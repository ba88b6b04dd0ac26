import ShlteOs.FormatReads

/-!
The comparison functions of `string.c`.  A pointer is the list of the bytes that
can be read from it on, and reading behind the end of the list is `none`, so that
a result for a string with nothing behind its NUL shows that the NUL is the last
byte read.
-/

namespace ShlteOs.StringComparison

open ShlteOs.ByteMemory
open ShlteOs.FormatReads (CString)

def strlen : List Byte → Option Nat
  | [] => none
  | c :: s => if c ≠ 0 then (strlen s).map (· + 1) else some 0

/-- The difference of two characters as `unsigned char`. -/
def charDifference (c d : Byte) : Int := c.toNat - d.toNat

/-- Running behind the end of a string is `none`. -/
def strcmp : List Byte → List Byte → Option Int
  | c :: s1, d :: s2 => if c ≠ 0 ∧ c = d then strcmp s1 s2 else some (charDifference c d)
  | _, _ => none

/-- The loop of `strncmp`, with the count as `--n` leaves it. -/
def strncmpLoop : Nat → List Byte → List Byte → Option Int
  | n, c :: s1, d :: s2 =>
      if 0 < n ∧ c ≠ 0 ∧ c = d then strncmpLoop (n - 1) s1 s2 else some (charDifference c d)
  | _, _, _ => none

def strncmp (s1 s2 : List Byte) (n : Nat) : Option Int :=
  if n = 0 then some 0 else strncmpLoop (n - 1) s1 s2

/-- The first `n` bytes, also behind a NUL. -/
def memcmp : List Byte → List Byte → Nat → Option Int
  | _, _, 0 => some 0
  | p1, p2, n + 1 =>
      match p1, p2 with
      | c :: p1, d :: p2 => if c ≠ d then some (charDifference c d) else memcmp p1 p2 n
      | _, _ => none
termination_by structural _ _ n => n

/-- The difference of two strings at the first position where they are not the same,
a string that has ended counting as NUL there. -/
def difference : List Byte → List Byte → Int
  | [], [] => 0
  | [], d :: _ => charDifference 0 d
  | c :: _, [] => charDifference c 0
  | c :: s, d :: t => if c = d then difference s t else charDifference c d

theorem pair_induction {motive : List Byte → List Byte → Prop} (ended : motive [] [])
    (shorter : ∀ d b, d ≠ 0 → motive [] (d :: b)) (longer : ∀ c a, c ≠ 0 → motive (c :: a) [])
    (differ : ∀ c d a b, d ≠ 0 → c ≠ d → motive (c :: a) (d :: b))
    (same : ∀ c a b, c ≠ 0 → motive a b → motive (c :: a) (c :: b)) {a b : List Byte}
    (ha : 0 ∉ a) (hb : 0 ∉ b) : motive a b := by
  induction a generalizing b with
  | nil =>
      cases b with
      | nil => exact ended
      | cons d b => exact shorter d b (List.ne_and_not_mem_of_not_mem_cons hb).1.symm
  | cons c a ih =>
      obtain ⟨hc, ha⟩ := List.ne_and_not_mem_of_not_mem_cons ha
      cases b with
      | nil => exact longer c a hc.symm
      | cons d b =>
          obtain ⟨hd, hb⟩ := List.ne_and_not_mem_of_not_mem_cons hb
          by_cases hcd : c = d
          · rw [← hcd]
            exact same c a b hc.symm (ih ha hb)
          · exact differ c d a b hd.symm hcd

section Calls

variable {a b : List Byte} (ta tb : List Byte)

theorem strlen_eq (ha : 0 ∉ a) : strlen (a ++ 0 :: ta) = some a.length := by
  induction a with
  | nil => rfl
  | cons c a ih =>
      obtain ⟨hc, ha⟩ := List.ne_and_not_mem_of_not_mem_cons ha
      rw [List.cons_append, strlen, if_pos hc.symm, ih ha]
      rfl

theorem strcmp_eq (ha : 0 ∉ a) (hb : 0 ∉ b) :
    strcmp (a ++ 0 :: ta) (b ++ 0 :: tb) = some (difference a b) := by
  refine pair_induction (motive := fun a b => strcmp (a ++ 0 :: ta) (b ++ 0 :: tb) =
    some (difference a b)) rfl ?_ ?_ ?_ ?_ ha hb
  · intro d b _
    rfl
  · intro c a hc
    exact if_neg fun h => hc h.2
  · intro c d a b _ hcd
    rw [List.cons_append, List.cons_append, strcmp, if_neg fun h => hcd h.2, difference,
      if_neg hcd]
  · intro c a b hc ih
    rw [List.cons_append, List.cons_append, strcmp, if_pos ⟨hc, rfl⟩, difference, if_pos rfl, ih]

/-- The count cuts both strings: where it stops the loop, the characters compared
are the last ones of the cut strings. -/
theorem strncmpLoop_eq (n : Nat) (ha : 0 ∉ a) (hb : 0 ∉ b) :
    strncmpLoop n (a ++ 0 :: ta) (b ++ 0 :: tb) =
      some (difference (a.take (n + 1)) (b.take (n + 1))) := by
  refine pair_induction (motive := fun a b => ∀ n, strncmpLoop n (a ++ 0 :: ta) (b ++ 0 :: tb) =
    some (difference (a.take (n + 1)) (b.take (n + 1)))) ?_ ?_ ?_ ?_ ?_ ha hb n
  · intro n
    exact if_neg fun h => h.2.1 rfl
  · intro d b _ n
    exact if_neg fun h => h.2.1 rfl
  · intro c a hc n
    exact if_neg fun h => hc h.2.2
  · intro c d a b _ hcd n
    rw [List.cons_append, List.cons_append, strncmpLoop, if_neg fun h => hcd h.2.2,
      List.take_succ_cons, List.take_succ_cons, difference, if_neg hcd]
  · intro c a b hc ih n
    rw [List.cons_append, List.cons_append, strncmpLoop, List.take_succ_cons,
      List.take_succ_cons, difference, if_pos rfl]
    cases n with
    | zero =>
        rw [if_neg fun h => absurd h.1 (Nat.lt_irrefl 0)]
        exact congrArg some (Int.sub_self _)
    | succ n =>
        rw [if_pos ⟨Nat.succ_pos n, hc, rfl⟩]
        exact ih n

theorem strncmp_eq (n : Nat) (ha : 0 ∉ a) (hb : 0 ∉ b) :
    strncmp (a ++ 0 :: ta) (b ++ 0 :: tb) n = some (difference (a.take n) (b.take n)) := by
  cases n with
  | zero => rfl
  | succ n => exact strncmpLoop_eq ta tb n ha hb

theorem memcmp_eq (ha : 0 ∉ a) (hb : 0 ∉ b) :
    memcmp (a ++ 0 :: ta) (b ++ 0 :: tb) (min a.length b.length + 1) =
      some (difference a b) := by
  refine pair_induction (motive := fun a b => memcmp (a ++ 0 :: ta) (b ++ 0 :: tb)
    (min a.length b.length + 1) = some (difference a b)) ?_ ?_ ?_ ?_ ?_ ha hb
  · rfl
  · intro d b hd
    exact if_pos hd.symm
  · intro c a hc
    exact if_pos hc
  · intro c d a b _ hcd
    rw [difference, if_neg hcd]
    exact if_pos hcd
  · intro c a b _ ih
    rw [difference, if_pos rfl, ← ih, List.length_cons, List.length_cons, Nat.add_min_add_right]
    exact if_neg fun h => h rfl

end Calls

section Order

variable {a b : List Byte}

theorem charDifference_neg_iff (c d : Byte) : charDifference c d < 0 ↔ c < d := by
  rw [charDifference, BitVec.lt_def]
  omega

theorem zero_lt_of_ne {c : Byte} (h : c ≠ 0) : 0 < c := by
  rw [BitVec.lt_def]
  exact Nat.pos_of_ne_zero fun hzero => h (BitVec.eq_of_toNat_eq hzero)

theorem not_lt_zero (c : Byte) : ¬ c < 0 := Nat.not_lt_zero c.toNat

theorem difference_neg_iff (ha : 0 ∉ a) (hb : 0 ∉ b) : difference a b < 0 ↔ a < b := by
  refine pair_induction (motive := fun a b => difference a b < 0 ↔ a < b) ?_ ?_ ?_ ?_ ?_ ha hb
  · exact ⟨fun h => absurd h (lt_irrefl 0), fun h => absurd h (List.lt_irrefl [])⟩
  · intro d b hd
    exact ⟨fun _ => List.nil_lt_cons d b,
      fun _ => (charDifference_neg_iff 0 d).mpr (zero_lt_of_ne hd)⟩
  · intro c a _
    exact ⟨fun h => absurd ((charDifference_neg_iff c 0).mp h) (not_lt_zero c),
      fun h => absurd h (List.not_lt_nil _)⟩
  · intro c d a b _ hcd
    rw [List.cons_lt_cons_iff, difference, if_neg hcd, charDifference_neg_iff]
    exact ⟨.inl, fun h => h.resolve_right fun hrest => hcd hrest.1⟩
  · intro c a b _ ih
    rw [List.cons_lt_cons_iff, difference, if_pos rfl, ih]
    exact ⟨fun h => .inr ⟨rfl, h⟩, fun h => (h.resolve_left (BitVec.lt_irrefl c)).2⟩

theorem charDifference_swap (c d : Byte) : charDifference d c = -charDifference c d :=
  (Int.neg_sub _ _).symm

theorem difference_swap (ha : 0 ∉ a) (hb : 0 ∉ b) : difference b a = -difference a b := by
  refine pair_induction (motive := fun a b => difference b a = -difference a b) rfl ?_ ?_ ?_ ?_
    ha hb
  · intro d b _
    exact charDifference_swap 0 d
  · intro c a _
    exact charDifference_swap c 0
  · intro c d a b _ hcd
    rw [difference, difference, if_neg hcd, if_neg hcd.symm, charDifference_swap]
  · intro c a b _ ih
    rw [difference, difference, if_pos rfl, if_pos rfl, ih]

theorem difference_pos_iff (ha : 0 ∉ a) (hb : 0 ∉ b) : 0 < difference a b ↔ b < a := by
  rw [difference_swap hb ha, neg_pos]
  exact difference_neg_iff hb ha

theorem charDifference_ne_zero {c d : Byte} (h : c ≠ d) : charDifference c d ≠ 0 := by
  have hne : c.toNat ≠ d.toNat := fun heq => h (BitVec.eq_of_toNat_eq heq)
  rw [charDifference]
  omega

theorem difference_eq_zero_iff (ha : 0 ∉ a) (hb : 0 ∉ b) : difference a b = 0 ↔ a = b := by
  refine pair_induction (motive := fun a b => difference a b = 0 ↔ a = b) ?_ ?_ ?_ ?_ ?_ ha hb
  · exact ⟨fun _ => rfl, fun _ => rfl⟩
  · intro d b hd
    exact ⟨fun h => absurd h (charDifference_ne_zero hd.symm), fun h => (by cases h)⟩
  · intro c a hc
    exact ⟨fun h => absurd h (charDifference_ne_zero hc), fun h => (by cases h)⟩
  · intro c d a b _ hcd
    rw [difference, if_neg hcd]
    exact ⟨fun h => absurd h (charDifference_ne_zero hcd), fun h => absurd (List.cons.inj h).1 hcd⟩
  · intro c a b _ ih
    rw [difference, if_pos rfl, ih]
    exact ⟨fun h => by rw [h], fun h => (List.cons.inj h).2⟩

end Order

/-- The three functions compare the two strings in one order, whatever lies behind
the NULs, also when nothing there can be read. -/
structure OneOrder (a b : CString) (n : Nat) : Prop where
  order : ∃ r, (∀ ta tb, strcmp (a.bytes ++ 0 :: ta) (b.bytes ++ 0 :: tb) = some r) ∧
    (r < 0 ↔ a.bytes < b.bytes) ∧ (r = 0 ↔ a.bytes = b.bytes) ∧ (0 < r ↔ b.bytes < a.bytes)
  cut : ∃ r, (∀ ta tb, strncmp (a.bytes ++ 0 :: ta) (b.bytes ++ 0 :: tb) n = some r) ∧
    ∀ ta tb, strcmp (a.bytes.take n ++ 0 :: ta) (b.bytes.take n ++ 0 :: tb) = some r
  bytes : ∃ i j r, (∀ ta, strlen (a.bytes ++ 0 :: ta) = some i) ∧
    (∀ tb, strlen (b.bytes ++ 0 :: tb) = some j) ∧
    (∀ ta tb, memcmp (a.bytes ++ 0 :: ta) (b.bytes ++ 0 :: tb) (min i j + 1) = some r) ∧
    ∀ ta tb, strcmp (a.bytes ++ 0 :: ta) (b.bytes ++ 0 :: tb) = some r

/-- `strcmp` decides the order of unsigned bytes, `strncmp` that of the cut strings, and
`memcmp` over the shorter string and its NUL agrees with `strcmp`. -/
theorem comparisons_one_order (a b : CString) (n : Nat) : OneOrder a b n := by
  obtain ⟨a, ha⟩ := a
  obtain ⟨b, hb⟩ := b
  have hcut : ∀ s : List Byte, 0 ∉ s → 0 ∉ s.take n := fun s hs h => hs (List.mem_of_mem_take h)
  refine ⟨?_, ?_, ?_⟩
  · exact ⟨difference a b, fun ta tb => strcmp_eq ta tb ha hb, difference_neg_iff ha hb,
      difference_eq_zero_iff ha hb, difference_pos_iff ha hb⟩
  · exact ⟨difference (a.take n) (b.take n), fun ta tb => strncmp_eq ta tb n ha hb,
      fun ta tb => strcmp_eq ta tb (hcut a ha) (hcut b hb)⟩
  · exact ⟨a.length, b.length, difference a b, fun ta => strlen_eq ta ha,
      fun tb => strlen_eq tb hb, fun ta tb => memcmp_eq ta tb ha hb,
      fun ta tb => strcmp_eq ta tb ha hb⟩

end ShlteOs.StringComparison
