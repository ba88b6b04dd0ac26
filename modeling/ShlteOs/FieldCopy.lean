import Mathlib.Data.List.GetD

/-!
`strncpy` on any kind of store.  The test of its first loop stores a byte, and the NUL
that ends the string is stored there without being counted; the second loop then fills
up one byte too many.
-/

namespace ShlteOs.FieldCopy

/-- The two pointers of a copy, after so many steps: what is read through the source,
and what a store through the destination does. -/
structure Pointers (σ β : Type) where
  read : σ → Nat → β
  put : σ → Nat → β → σ

section Loops

variable {σ β : Type} [Zero β] [DecidableEq β] (p : Pointers σ β)

/-- `while (n > 0 && (*dst++ = *src++)) n--;`, with the position and the count it ends
with. -/
def copyLoop : Nat → Nat → σ → σ × Nat × Nat
  | 0, pos, s => (s, pos, 0)
  | n + 1, pos, s =>
      let c := p.read s pos
      let s := p.put s pos c
      if c ≠ 0 then copyLoop n (pos + 1) s else (s, pos + 1, n + 1)

/-- `while (n > 0) { *dst++ = '\0'; n--; }` -/
def padLoop : Nat → Nat → σ → σ
  | 0, _, s => s
  | n + 1, pos, s => padLoop n (pos + 1) (p.put s pos 0)

def strncpy (n : Nat) (s : σ) : σ :=
  let r := copyLoop p n 0 s
  padLoop p r.2.2 r.2.1 r.1

/-- The characters of a text stored one behind the other. -/
def putAll (pos : Nat) (s : σ) : List β → σ
  | [] => s
  | c :: text => putAll (pos + 1) (p.put s pos c) text

end Loops

/-- What `strncpy` stores: a string that does not fill the field is followed by its
NUL and then by as many as were left for the whole rest of the field. -/
def storedText {β : Type} [Zero β] (n : Nat) (text : List β) : List β :=
  if n ≤ text.length then text.take n else text ++ 0 :: List.replicate (n - text.length) 0

section Stored

variable {β : Type} [Zero β]

theorem length_storedText (n : Nat) (text : List β) :
    (storedText n text).length = if n ≤ text.length then n else n + 1 := by
  rw [storedText]
  split
  · rw [List.length_take]
    omega
  · rw [List.length_append, List.length_cons, List.length_replicate]
    omega

theorem length_storedText_le (n : Nat) (text : List β) : (storedText n text).length ≤ n + 1 := by
  rw [length_storedText]
  split
  · exact Nat.le_succ n
  · exact Nat.le_refl _

theorem le_length_storedText (n : Nat) (text : List β) : n ≤ (storedText n text).length := by
  rw [length_storedText]
  split
  · exact Nat.le_refl _
  · exact Nat.le_succ n

theorem getD_replicate_zero (n i : Nat) : (List.replicate n (0 : β)).getD i 0 = 0 := by
  rw [List.getD_eq_getElem?_getD, List.getElem?_getD_replicate_default_eq]

theorem getD_storedText {n i : Nat} (text : List β) (hi : i < n) :
    (storedText n text).getD i 0 = text.getD i 0 := by
  rw [storedText]
  split
  · rw [List.getD_eq_getElem?_getD, List.getElem?_take_of_lt hi, List.getD_eq_getElem?_getD]
  · rcases Nat.lt_or_ge i text.length with hlt | hge
    · rw [List.getD_append _ _ _ _ hlt]
    · rw [List.getD_append_right _ _ _ _ hge, List.getD_eq_default _ _ hge, ← List.replicate_succ,
        getD_replicate_zero]

end Stored

section Copies

variable {σ β : Type} {p : Pointers σ β} {s : σ}

theorem putAll_append (pos : Nat) (s : σ) (front back : List β) :
    putAll p pos s (front ++ back) = putAll p (pos + front.length) (putAll p pos s front) back := by
  induction front generalizing pos s with
  | nil => rfl
  | cons c front ih =>
      rw [List.cons_append, putAll, ih, putAll, List.length_cons, Nat.add_right_comm, Nat.add_assoc]

variable [Zero β]

theorem padLoop_eq (n pos : Nat) (s : σ) :
    padLoop p n pos s = putAll p pos s (List.replicate n 0) := by
  induction n generalizing pos s with
  | zero => rfl
  | succ n ih => exact ih (pos + 1) (p.put s pos 0)

variable [DecidableEq β]

/-- Both loops from the middle of a string on, the part in front having been stored. -/
theorem loops_eq (n : Nat) (front : List β) {rest : List β} (hnul : 0 ∉ rest)
    (hread : ∀ k < n, k ≤ rest.length →
      p.read (putAll p 0 s (front ++ rest.take k)) (front.length + k) = rest.getD k 0) :
    padLoop p (copyLoop p n front.length (putAll p 0 s front)).2.2
        (copyLoop p n front.length (putAll p 0 s front)).2.1
        (copyLoop p n front.length (putAll p 0 s front)).1 =
      putAll p 0 s (front ++ storedText n rest) := by
  induction n generalizing front rest with
  | zero =>
      rw [storedText, if_pos (Nat.zero_le _), List.take_zero, List.append_nil]
      rfl
  | succ n ih =>
      have hfirst := hread 0 (Nat.succ_pos n) (Nat.zero_le _)
      rw [List.take_zero, List.append_nil, Nat.add_zero] at hfirst
      rw [copyLoop, hfirst, putAll_append, Nat.zero_add]
      cases rest with
      | nil =>
          rw [if_neg (not_not.mpr List.getD_nil), padLoop_eq, List.getD_nil]
          rfl
      | cons c rest =>
          rw [List.mem_cons, not_or] at hnul
          rw [List.getD_cons_zero, if_pos (Ne.symm hnul.1)]
          have hput : p.put (putAll p 0 s front) front.length c = putAll p 0 s (front ++ [c]) := by
            rw [putAll_append, Nat.zero_add]
            rfl
          have hlength : front.length + 1 = (front ++ [c]).length := by
            rw [List.length_append, List.length_singleton]
          have hstored : storedText (n + 1) (c :: rest) = c :: storedText n rest := by
            simp only [storedText, List.length_cons, Nat.succ_le_succ_iff, List.take_succ_cons,
              Nat.succ_sub_succ]
            split
            · rfl
            · rfl
          rw [hput, hlength, hstored, ih _ hnul.2, List.append_assoc, ← Nat.zero_add front.length,
            ← putAll_append]
          · rfl
          intro k hk hle
          have hnext := hread (k + 1) (by omega) (Nat.succ_le_succ hle)
          rw [List.take_succ_cons, List.getD_cons_succ] at hnext
          rw [List.append_assoc, List.singleton_append, ← hlength, Nat.add_right_comm]
          exact hnext

/-- A copy stores the string, if what is read at each turn is still its next character. -/
theorem strncpy_eq {n : Nat} (text : List β) (hnul : 0 ∉ text)
    (hread : ∀ k < n, k ≤ text.length →
      p.read (putAll p 0 s (text.take k)) k = text.getD k 0) :
    strncpy p n s = putAll p 0 s (storedText n text) := by
  apply loops_eq n [] hnul
  intro k hk hle
  rw [List.nil_append, List.length_nil, Nat.zero_add]
  exact hread k hk hle

end Copies

end ShlteOs.FieldCopy
