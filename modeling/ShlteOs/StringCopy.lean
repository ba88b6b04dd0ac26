import ShlteOs.ConsoleOutput
import ShlteOs.FieldCopy

/-!
`strncpy` on a flat memory: what it leaves in the field and around it.
-/

namespace ShlteOs.StringCopy

open ShlteOs.ByteMemory
open ShlteOs.ConsoleOutput (StringAt)
open ShlteOs.FieldCopy

/-- The memory, and the addresses stored to so far. -/
structure Written where
  mem : Memory
  stores : List Word

def Written.put (w : Written) (a : Word) (c : Byte) : Written where
  mem := storeByte w.mem a c
  stores := a :: w.stores

/-- The source and the destination of a copy inside one memory. -/
def pointers (dst src : Word) : Pointers Written Byte where
  read w i := w.mem (src + BitVec.ofNat 64 i)
  put w i c := w.put (dst + BitVec.ofNat 64 i) c

def strncpy (m : Memory) (dst src : Word) (n : Nat) : Written :=
  FieldCopy.strncpy (pointers dst src) n ⟨m, []⟩

/-- The first `n` characters of the string, filled up with NULs, are at the
destination, and every other byte is as before. -/
structure Copied (m : Memory) (dst : Word) (n : Nat) (s : List Byte) (m' : Memory) : Prop where
  bytes : ∀ i < n, m' (dst + BitVec.ofNat 64 i) = s.getD i 0
  frame : ∀ x, ¬ Covers dst n x → m' x = m x

section Texts

/-- The bytes of a text stored one behind the other. -/
def Written.putAll (w : Written) (dst : Word) : List Byte → Written
  | [] => w
  | c :: text => (w.put dst c).putAll (dst + 1) text

theorem length_stores_putAll (w : Written) (dst : Word) (text : List Byte) :
    (w.putAll dst text).stores.length = text.length + w.stores.length := by
  induction text generalizing w dst with
  | nil => exact (Nat.zero_add _).symm
  | cons c text ih =>
      have hput : (w.put dst c).stores.length = w.stores.length + 1 := rfl
      rw [Written.putAll, ih, hput, List.length_cons]
      omega

theorem putAll_of_not_covers {w : Written} {dst x : Word} {text : List Byte}
    (hlen : text.length ≤ 2 ^ 64) (hx : ¬ Covers dst text.length x) :
    (w.putAll dst text).mem x = w.mem x := by
  induction text generalizing w dst with
  | nil => rfl
  | cons c text ih =>
      rw [List.length_cons] at hlen hx
      obtain ⟨hhead, htail⟩ := not_covers_succ hx
      rw [Written.putAll, ih (by omega) htail]
      exact if_neg hhead

theorem putAll_add {w : Written} {dst : Word} {text : List Byte} {i : Nat}
    (hlen : text.length ≤ 2 ^ 64) (hi : i < text.length) :
    (w.putAll dst text).mem (dst + BitVec.ofNat 64 i) = text.getD i 0 := by
  induction text generalizing w dst i with
  | nil => exact absurd hi (Nat.not_lt_zero i)
  | cons c text ih =>
      rw [List.length_cons] at hlen hi
      rw [Written.putAll]
      cases i with
      | zero =>
          rw [BitVec.add_zero, putAll_of_not_covers (by omega) (not_covers_behind (by omega))]
          exact if_pos rfl
      | succ i =>
          rw [add_ofNat_succ, ih (by omega) (by omega)]
          rfl

end Texts

section Copies

variable {m : Memory} {dst src : Word} {n : Nat} {s : List Byte}

theorem stringAt_ne_zero (hs : StringAt m src s) : 0 ∉ s := by
  induction s generalizing src with
  | nil => exact List.not_mem_nil
  | cons c s ih =>
      intro h
      rcases List.mem_cons.mp h with rfl | h
      · exact hs.2.1 rfl
      · exact ih hs.2.2 h

theorem stringAt_getD (hs : StringAt m src s) {k : Nat} (hk : k ≤ s.length) :
    m (src + BitVec.ofNat 64 k) = s.getD k 0 := by
  induction s generalizing src k with
  | nil =>
      obtain rfl := Nat.le_zero.mp hk
      exact (congrArg m (BitVec.add_zero src)).trans hs
  | cons c s ih =>
      cases k with
      | zero =>
          rw [BitVec.add_zero, List.getD_cons_zero]
          exact hs.1
      | succ k =>
          rw [add_ofNat_succ, List.getD_cons_succ]
          exact ih hs.2.2 (Nat.le_of_succ_le_succ hk)

theorem putAll_pointers (pos : Nat) (w : Written) (text : List Byte) :
    putAll (pointers dst src) pos w text = w.putAll (dst + BitVec.ofNat 64 pos) text := by
  induction text generalizing pos w with
  | nil => rfl
  | cons c text ih =>
      have hnext : dst + BitVec.ofNat 64 (pos + 1) = dst + BitVec.ofNat 64 pos + 1 := by
        rw [BitVec.ofNat_add, BitVec.add_assoc]
        rfl
      rw [putAll, ih, hnext]
      rfl

theorem strncpy_eq (hn : n ≤ 2 ^ 64) (hs : StringAt m src s)
    (hapart : Apart src (s.length + 1) dst n) :
    strncpy m dst src n = (⟨m, []⟩ : Written).putAll dst (storedText n s) := by
  have hstart : dst + BitVec.ofNat 64 0 = dst := BitVec.add_zero dst
  rw [strncpy, FieldCopy.strncpy_eq s (stringAt_ne_zero hs), putAll_pointers, hstart]
  intro k hk hle
  have hlen : (s.take k).length = k := List.length_take_of_le hle
  have hsource : Covers src (s.length + 1) (src + BitVec.ofNat 64 k) := covers_add (by omega)
  have houtside : ¬ Covers dst (s.take k).length (src + BitVec.ofNat 64 k) := by
    rw [hlen]
    exact fun hfield => hapart _ hsource (lt_trans hfield hk)
  rw [putAll_pointers, hstart]
  exact (putAll_of_not_covers (by omega) houtside).trans (stringAt_getD hs hle)

end Copies

section Field

variable {m : Memory} {dst src : Word} {n : Nat} {s : List Byte}

theorem strncpy_add (hn : n < 2 ^ 64) (hs : StringAt m src s)
    (hapart : Apart src (s.length + 1) dst n) {i : Nat} (hi : i < n) :
    (strncpy m dst src n).mem (dst + BitVec.ofNat 64 i) = s.getD i 0 := by
  have hle := length_storedText_le n s
  have hge := le_length_storedText n s
  rw [strncpy_eq (by omega) hs hapart, putAll_add (by omega) (by omega), getD_storedText s hi]

theorem strncpy_nul_behind (hn : n < 2 ^ 64) (hs : StringAt m src s)
    (hapart : Apart src (s.length + 1) dst n) (hshort : ¬ n ≤ s.length) :
    (strncpy m dst src n).mem (dst + BitVec.ofNat 64 n) = 0 := by
  have hlen := length_storedText n s
  rw [if_neg hshort] at hlen
  rw [strncpy_eq (by omega) hs hapart, putAll_add (by omega) (by omega), storedText, if_neg hshort,
    List.getD_append_right _ _ _ _ (by omega), ← List.replicate_succ, getD_replicate_zero]

theorem strncpy_of_full (hn : n < 2 ^ 64) (hs : StringAt m src s)
    (hapart : Apart src (s.length + 1) dst n) (hfull : n ≤ s.length) {x : Word}
    (hx : ¬ Covers dst n x) : (strncpy m dst src n).mem x = m x := by
  have hlen := length_storedText n s
  rw [if_pos hfull] at hlen
  rw [← hlen] at hx
  rw [strncpy_eq (by omega) hs hapart, putAll_of_not_covers (by omega) hx]

theorem strncpy_of_ne (hn : n < 2 ^ 64) (hs : StringAt m src s)
    (hapart : Apart src (s.length + 1) dst n) {x : Word} (hx : ¬ Covers dst n x)
    (hend : x ≠ dst + BitVec.ofNat 64 n) : (strncpy m dst src n).mem x = m x := by
  have hlen := length_storedText_le n s
  rw [strncpy_eq (by omega) hs hapart]
  apply putAll_of_not_covers (by omega)
  intro hcovers
  obtain ⟨i, hi, rfl⟩ := Covers.exists_add (lt_of_lt_of_le hcovers hlen)
  rcases Nat.lt_succ_iff_lt_or_eq.mp hi with hlt | rfl
  · exact hx (covers_add hlt)
  · exact hend rfl

theorem copied_iff (hn : n < 2 ^ 64) (hs : StringAt m src s)
    (hapart : Apart src (s.length + 1) dst n) :
    Copied m dst n s (strncpy m dst src n).mem ↔
      n ≤ s.length ∨ m (dst + BitVec.ofNat 64 n) = 0 := by
  have hbytes : ∀ i < n, (strncpy m dst src n).mem (dst + BitVec.ofNat 64 i) = s.getD i 0 :=
    fun i hi => strncpy_add hn hs hapart hi
  constructor
  · intro h
    by_contra hneither
    obtain ⟨hshort, hne⟩ := not_or.mp hneither
    have hbehind : ¬ Covers dst n (dst + BitVec.ofNat 64 n) := by
      rw [Covers, add_ofNat_sub_self, BitVec.toNat_ofNat, Nat.mod_eq_of_lt hn]
      exact lt_irrefl n
    exact hne ((h.frame _ hbehind).symm.trans (strncpy_nul_behind hn hs hapart hshort))
  · rintro (hfull | hnul)
    · exact ⟨hbytes, fun x hx => strncpy_of_full hn hs hapart hfull hx⟩
    · refine ⟨hbytes, fun x hx => ?_⟩
      by_cases hend : x = dst + BitVec.ofNat 64 n
      · rcases Nat.lt_or_ge s.length n with hshort | hfull
        · rw [hend, hnul, strncpy_nul_behind hn hs hapart (Nat.not_le.mpr hshort)]
        · exact strncpy_of_full hn hs hapart hfull hx
      · exact strncpy_of_ne hn hs hapart hx hend

end Field

/-- `strncpy` leaves the bytes outside its field as they were exactly when the
string fills the field, or the byte behind the field happens to be a NUL already;
it stores as many bytes as it is asked for in the first case only. -/
theorem strncpy_exact_iff (m : Memory) (dst src n : Word) (s : List Byte)
    (hs : StringAt m src s) (hapart : Apart src (s.length + 1) dst n.toNat) :
    (Copied m dst n.toNat s (strncpy m dst src n.toNat).mem ↔
        n.toNat ≤ s.length ∨ m (dst + n) = 0) ∧
      ((strncpy m dst src n.toNat).stores.length = n.toNat ↔ n.toNat ≤ s.length) := by
  have hword : BitVec.ofNat 64 n.toNat = n := by
    rw [BitVec.ofNat_toNat, BitVec.setWidth_eq]
  have hcopied := copied_iff n.isLt hs hapart
  have hlen := length_storedText n.toNat s
  have hstores := length_stores_putAll ⟨m, []⟩ dst (storedText n.toNat s)
  rw [← strncpy_eq n.isLt.le hs hapart, hlen, List.length_nil, Nat.add_zero] at hstores
  rw [hword] at hcopied
  refine ⟨hcopied, ?_⟩
  rw [hstores]
  split
  · rename_i hfull
    exact ⟨fun _ => hfull, fun _ => rfl⟩
  · rename_i hshort
    exact ⟨fun h => absurd h (Nat.succ_ne_self _), fun h => absurd h hshort⟩

/-- The string `a` at `0x2000`, and a byte 7 behind a field of two bytes at
`0x1000`. -/
def letterMemory : Memory := fun x => if x = 0x2000 then 97 else if x = 0x1002 then 7 else 0

theorem letterMemory_string : StringAt letterMemory 0x2000 [97] := by
  refine ⟨rfl, ?_, rfl⟩
  decide

theorem letterMemory_apart : Apart 0x2000 2 0x1000 2 := by
  apply apart_of_le_sub
  · decide
  · decide

theorem strncpy_exact_iff_letter :
    (Copied letterMemory 0x1000 (2 : Word).toNat [97]
          (strncpy letterMemory 0x1000 0x2000 (2 : Word).toNat).mem ↔
        (2 : Word).toNat ≤ [(97 : Byte)].length ∨ letterMemory (0x1000 + 2) = 0) ∧
      ((strncpy letterMemory 0x1000 0x2000 (2 : Word).toNat).stores.length = (2 : Word).toNat ↔
        (2 : Word).toNat ≤ [(97 : Byte)].length) :=
  strncpy_exact_iff letterMemory 0x1000 0x2000 2 [97] letterMemory_string letterMemory_apart

/-- A copy of `a` into two bytes stores three, and the byte behind the field is
lost. -/
theorem strncpy_letter_not_exact :
    ¬ ∀ (m : Memory) (dst src n : Word) (s : List Byte), StringAt m src s →
      Apart src (s.length + 1) dst n.toNat →
      Copied m dst n.toNat s (strncpy m dst src n.toNat).mem := by
  intro hall
  have hcopied := hall letterMemory 0x1000 0x2000 2 [97] letterMemory_string letterMemory_apart
  have hkept := hcopied.frame 0x1002 (by decide)
  exact absurd hkept (by decide)

end ShlteOs.StringCopy
