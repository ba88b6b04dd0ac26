import ShlteOs.PointerWalk
import ShlteOs.StringCopy

/-!
`strcpy`, `strcat` and `strchr` on a flat memory.  The copy loop reads a byte of the
source after it has stored the one before, so that a destination inside the string, but
not at its start, makes it run behind its own output for ever.
-/

namespace ShlteOs.StringBuilding

open ShlteOs.ByteMemory
open ShlteOs.PointerWalk
open ShlteOs.ConsoleOutput (StringAt)
open ShlteOs.StringCopy

section Functions

/-- `while ((*dst++ = *src++));` -/
def copyUntilNul : Nat → Word → Word → Written → Option Written
  | 0, _, _, _ => none
  | fuel + 1, dst, src, w =>
      let c := w.mem src
      if c ≠ 0 then copyUntilNul fuel (dst + 1) (src + 1) (w.put dst c) else some (w.put dst c)

def strcpy (fuel : Nat) (m : Memory) (dst src : Word) : Option Written :=
  copyUntilNul fuel dst src ⟨m, []⟩

/-- `while (*dst) dst++;` -/
def findNul (fuel : Nat) (m : Memory) (dst : Word) : Option Word :=
  walk (fun p => m p == 0) (· + 1) fuel dst

/-- The copy starts at the NUL of the destination. -/
def strcat (fuel : Nat) (m : Memory) (dst src : Word) : Option Written :=
  (findNul fuel m dst).bind fun stop => copyUntilNul fuel stop src ⟨m, []⟩

/-- The pointer returned, or `none` inside for NULL; `c` is an `int`, compared with the
characters as a `char` and with the NUL as it is. -/
def strchr (m : Memory) (c : BitVec 32) : Nat → Word → Option (Option Word)
  | 0, _ => none
  | fuel + 1, s =>
      if m s ≠ 0 then
        if m s = c.setWidth 8 then some (some s) else strchr m c fuel (s + 1)
      else if c = 0 then some (some s) else some none

end Functions

section Strings

variable {m : Memory} {p : Word} {s : List Byte}

theorem stringAt_nul (hs : StringAt m p s) : m (p + BitVec.ofNat 64 s.length) = 0 :=
  (stringAt_getD hs le_rfl).trans (List.getD_eq_default _ _ le_rfl)

theorem stringAt_byte (hs : StringAt m p s) {i : Nat} (hi : i < s.length) :
    m (p + BitVec.ofNat 64 i) ≠ 0 := by
  rw [stringAt_getD hs hi.le, List.getD_eq_getElem _ _ hi]
  intro hzero
  exact stringAt_ne_zero hs (hzero ▸ List.getElem_mem hi)

theorem stringAt_length (hs : StringAt m p s) : s.length < 2 ^ 64 := by
  by_contra hlong
  have hwrap : BitVec.ofNat 64 (s.length - 2 ^ 64) = BitVec.ofNat 64 s.length := by
    apply BitVec.eq_of_toNat_eq
    rw [BitVec.toNat_ofNat, BitVec.toNat_ofNat]
    omega
  refine stringAt_byte hs (i := s.length - 2 ^ 64) (by omega) ?_
  rw [hwrap]
  exact stringAt_nul hs

theorem stringAt_putAll {w : Written} {dst : Word} (hs : 0 ∉ s) (hlen : s.length < 2 ^ 64) :
    StringAt (w.putAll dst (s ++ [0])).mem dst s := by
  induction s generalizing w dst with
  | nil => exact if_pos rfl
  | cons c s ih =>
      obtain ⟨hc, hs⟩ := List.ne_and_not_mem_of_not_mem_cons hs
      rw [List.length_cons] at hlen
      refine ⟨?_, Ne.symm hc, ih hs (by omega)⟩
      have hbehind : ¬ Covers (dst + 1) (s ++ [0]).length dst := by
        rw [List.length_append, List.length_singleton]
        exact not_covers_behind hlen
      rw [List.cons_append, Written.putAll, putAll_of_not_covers _ hbehind]
      · exact if_pos rfl
      · rw [List.length_append, List.length_singleton]
        omega

theorem stringAt_of_frame {m' : Memory} {dst : Word} {n : Nat}
    (hframe : ∀ x, ¬ Covers dst n x → m' x = m x) (hapart : Apart p (s.length + 1) dst n)
    (hs : StringAt m p s) : StringAt m' p s := by
  apply hs.congr
  intro i hi
  exact hframe _ fun h => hapart _ (covers_add (Nat.lt_succ_of_le hi)) h

end Strings

section Copying

variable {dst src : Word} {s : List Byte}

theorem copyUntilNul_endless {k : Nat} (hk : 0 < k) (fuel : Nat) (src : Word) (w : Written)
    (hwindow : ∀ j < k, w.mem (src + BitVec.ofNat 64 j) ≠ 0) :
    copyUntilNul fuel (src + BitVec.ofNat 64 k) src w = none := by
  induction fuel generalizing src w with
  | zero => rfl
  | succ fuel ih =>
      have hbyte := hwindow 0 hk
      rw [BitVec.add_zero] at hbyte
      have hnext : src + BitVec.ofNat 64 k + 1 = src + 1 + BitVec.ofNat 64 k := by
        rw [BitVec.add_assoc, BitVec.add_assoc, BitVec.add_comm 1]
      rw [copyUntilNul, if_pos hbyte, hnext]
      apply ih
      intro j hj
      by_cases heq : src + 1 + BitVec.ofNat 64 j = src + BitVec.ofNat 64 k
      · rw [heq]
        exact (if_pos rfl).trans_ne hbyte
      · have hstep : src + 1 + BitVec.ofNat 64 j = src + BitVec.ofNat 64 (j + 1) :=
          (add_ofNat_succ src j).symm
        have hlast : j + 1 ≠ k := fun h => heq (by rw [hstep, h])
        refine (if_neg heq).trans_ne ?_
        rw [hstep]
        exact hwindow (j + 1) (by omega)

/-- The destination is inside of the string or at its NUL, but not at its start. -/
def Behind (dst src : Word) (n : Nat) : Prop :=
  0 < (dst - src).toNat ∧ (dst - src).toNat ≤ n

theorem copyUntilNul_returns {fuel : Nat} {w : Written} (hs : StringAt w.mem src s)
    (hsafe : ¬ Behind dst src s.length) (hfuel : s.length < fuel) :
    copyUntilNul fuel dst src w = some (w.putAll dst (s ++ [0])) := by
  induction s generalizing dst src w fuel with
  | nil =>
      obtain ⟨fuel, rfl⟩ : ∃ n, fuel = n + 1 := ⟨fuel - 1, by omega⟩
      have hnul : w.mem src = 0 := hs
      rw [copyUntilNul, hnul, if_neg (not_not.mpr rfl)]
      rfl
  | cons c s ih =>
      obtain ⟨fuel, rfl⟩ : ∃ n, fuel = n + 1 := ⟨fuel - 1, by omega⟩
      have hlen := stringAt_length hs
      obtain ⟨hc, hne, hrest⟩ := hs
      rw [List.length_cons] at hlen hsafe hfuel
      have hmoved : dst + 1 - (src + 1) = dst - src := by bv_omega
      have hkept : StringAt (w.put dst c).mem (src + 1) s := by
        apply hrest.congr
        intro i hi
        refine if_neg fun heq => hsafe ?_
        have hdist : (dst - src).toNat = i + 1 := by
          rw [← heq, ← add_ofNat_succ, add_ofNat_sub_self, BitVec.toNat_ofNat]
          exact Nat.mod_eq_of_lt (by omega)
        exact ⟨by omega, by omega⟩
      rw [copyUntilNul, hc, if_pos hne,
        ih hkept (fun h => hsafe ?_) (by omega)]
      · rfl
      · rw [Behind, hmoved] at h
        exact ⟨h.1, Nat.le_succ_of_le h.2⟩

theorem copyUntilNul_mono {fuel fuel' : Nat} {w w' : Written}
    (h : copyUntilNul fuel dst src w = some w') (hle : fuel ≤ fuel') :
    copyUntilNul fuel' dst src w = some w' := by
  induction fuel generalizing fuel' dst src w with
  | zero => cases h
  | succ fuel ih =>
      obtain ⟨fuel', rfl⟩ : ∃ n, fuel' = n + 1 := ⟨fuel' - 1, by omega⟩
      rw [copyUntilNul] at h ⊢
      split at h <;> rename_i hc
      · rw [if_pos hc]
        exact ih h (Nat.le_of_succ_le_succ hle)
      · rw [if_neg hc]
        exact h

theorem copyUntilNul_endless_of_behind {fuel : Nat} {w : Written} (hs : StringAt w.mem src s)
    (hbehind : Behind dst src s.length) : copyUntilNul fuel dst src w = none := by
  have hdst : src + BitVec.ofNat 64 (dst - src).toNat = dst := by
    rw [BitVec.ofNat_toNat, BitVec.setWidth_eq, BitVec.add_comm, BitVec.sub_add_cancel]
  rw [← hdst]
  refine copyUntilNul_endless hbehind.1 fuel src w fun j hj => ?_
  exact stringAt_byte hs (Nat.lt_of_lt_of_le hj hbehind.2)

theorem length_append_nul (s : List Byte) : (s ++ [0]).length = s.length + 1 := by
  rw [List.length_append, List.length_singleton]

theorem putAll_frame {w : Written} (hlen : s.length < 2 ^ 64) {x : Word}
    (hx : ¬ Covers dst (s.length + 1) x) : (w.putAll dst (s ++ [0])).mem x = w.mem x := by
  rw [← length_append_nul] at hx
  exact putAll_of_not_covers (by rw [length_append_nul]; omega) hx

end Copying

section Specifications

variable {m : Memory} {dst src : Word} {s : List Byte}

theorem copyUntilNul_some {fuel : Nat} {w w' : Written} (hs : StringAt w.mem src s)
    (h : copyUntilNul fuel dst src w = some w') :
    ¬ Behind dst src s.length ∧ w' = w.putAll dst (s ++ [0]) := by
  have hsafe : ¬ Behind dst src s.length := by
    intro hbehind
    rw [copyUntilNul_endless_of_behind hs hbehind] at h
    cases h
  have hmore := copyUntilNul_mono h (Nat.le_max_right (s.length + 1) fuel)
  rw [copyUntilNul_returns hs hsafe (by omega)] at hmore
  exact ⟨hsafe, (Option.some.inj hmore).symm⟩

end Specifications

/-- `strcpy` returns exactly if the destination does not lie inside of the source string
or at its NUL, other than at its start; then it leaves the string at the destination and
every other byte as it was. -/
theorem strcpy_returns_iff {m : Memory} {dst src : Word} {s : List Byte}
    (hs : StringAt m src s) :
    ((∃ fuel w, strcpy fuel m dst src = some w) ↔ ¬ Behind dst src s.length) ∧
      ∀ fuel w, strcpy fuel m dst src = some w →
        StringAt w.mem dst s ∧ ∀ x, ¬ Covers dst (s.length + 1) x → w.mem x = m x := by
  have hlen := stringAt_length hs
  refine ⟨⟨?_, ?_⟩, ?_⟩
  · rintro ⟨fuel, w, hw⟩
    exact (copyUntilNul_some (w := ⟨m, []⟩) hs hw).1
  · intro hsafe
    exact ⟨s.length + 1, _, copyUntilNul_returns hs hsafe (Nat.lt_succ_self _)⟩
  · intro fuel w hw
    obtain ⟨-, rfl⟩ := copyUntilNul_some (w := ⟨m, []⟩) hs hw
    exact ⟨stringAt_putAll (stringAt_ne_zero hs) hlen, fun x hx => putAll_frame hlen hx⟩

theorem strcpy_returns_iff_letter :
    ((∃ fuel w, strcpy fuel letterMemory 0x2001 0x2000 = some w) ↔
        ¬ Behind 0x2001 0x2000 1) ∧
      ∀ fuel w, strcpy fuel letterMemory 0x2001 0x2000 = some w →
        StringAt w.mem 0x2001 [97] ∧
          ∀ x, ¬ Covers 0x2001 2 x → w.mem x = letterMemory x :=
  strcpy_returns_iff letterMemory_string

section Concatenation

variable {m : Memory} {dst src : Word} {d s : List Byte}

theorem findNul_returns (hd : StringAt m dst d) {fuel : Nat} (hfuel : d.length < fuel) :
    findNul fuel m dst = some (dst + BitVec.ofNat 64 d.length) := by
  induction d generalizing dst fuel with
  | nil =>
      have hnul : m dst = 0 := hd
      rw [findNul, walk_of_stop (by simpa using hnul) hfuel]
      exact congrArg some (BitVec.add_zero dst).symm
  | cons c d ih =>
      obtain ⟨fuel, rfl⟩ : ∃ n, fuel = n + 1 := ⟨fuel - 1, by omega⟩
      obtain ⟨hc, hne, hd⟩ := hd
      rw [List.length_cons] at hfuel ⊢
      rw [findNul, walk, if_neg (by simpa [hc] using hne), add_ofNat_succ]
      exact ih hd (by omega)

theorem findNul_mono {fuel fuel' : Nat} {stop : Word} (h : findNul fuel m dst = some stop)
    (hle : fuel ≤ fuel') : findNul fuel' m dst = some stop := by
  obtain ⟨k, hk, hend⟩ := walk_eq_some_iff.mp h
  exact walk_eq_some_iff.mpr ⟨k, Nat.lt_of_lt_of_le hk hle, hend⟩

theorem findNul_some (hd : StringAt m dst d) {fuel : Nat} {stop : Word}
    (h : findNul fuel m dst = some stop) : stop = dst + BitVec.ofNat 64 d.length := by
  have hmore := findNul_mono h (Nat.le_max_right (d.length + 1) fuel)
  rw [findNul_returns hd (by omega)] at hmore
  exact (Option.some.inj hmore).symm

/-- If the loop that appends ends, both strings and the NUL fit into the memory: else the
NUL of the source would lie inside of the destination. -/
theorem length_add_lt (hd : StringAt m dst d) (hs : StringAt m src s)
    (hsafe : ¬ Behind (dst + BitVec.ofNat 64 d.length) src s.length) :
    d.length + s.length < 2 ^ 64 := by
  have hlen := stringAt_length hd
  have hslen := stringAt_length hs
  generalize hk : (dst + BitVec.ofNat 64 d.length - src).toNat = k
  have hlt : k < 2 ^ 64 := hk ▸ BitVec.isLt _
  rw [Behind, hk] at hsafe
  rcases Nat.eq_zero_or_pos k with rfl | hpos
  · -- the source is the NUL of the destination
    have hsrc : src = dst + BitVec.ofNat 64 d.length := by
      have hzero : dst + BitVec.ofNat 64 d.length - src = 0 := BitVec.eq_of_toNat_eq hk
      bv_omega
    cases s with
    | nil => exact hlen
    | cons c s => exact absurd (hsrc ▸ stringAt_nul hd) (hs.1 ▸ hs.2.1)
  · by_contra hlong
    have hgap : k - s.length ≤ d.length ∧ 0 < k - s.length := by omega
    refine stringAt_byte hd (i := d.length - (k - s.length)) (by omega) ?_
    have hsame : dst + BitVec.ofNat 64 (d.length - (k - s.length)) =
        src + BitVec.ofNat 64 s.length := by
      have hend : dst + BitVec.ofNat 64 d.length = src + BitVec.ofNat 64 k := by
        rw [← hk, BitVec.ofNat_toNat, BitVec.setWidth_eq]
        ring
      have hd' : BitVec.ofNat 64 d.length =
          BitVec.ofNat 64 (d.length - (k - s.length)) + BitVec.ofNat 64 (k - s.length) := by
        rw [← BitVec.ofNat_add, Nat.sub_add_cancel hgap.1]
      have hk' : BitVec.ofNat 64 k =
          BitVec.ofNat 64 s.length + BitVec.ofNat 64 (k - s.length) := by
        rw [← BitVec.ofNat_add, Nat.add_sub_cancel' (by omega)]
      rw [hd', hk', ← add_assoc, ← add_assoc] at hend
      exact add_right_cancel hend
    rw [hsame]
    exact stringAt_nul hs

theorem stringAt_append {m' : Memory} (hd : StringAt m dst d)
    (hkept : ∀ i < d.length, m' (dst + BitVec.ofNat 64 i) = m (dst + BitVec.ofNat 64 i))
    (hs : StringAt m' (dst + BitVec.ofNat 64 d.length) s) : StringAt m' dst (d ++ s) := by
  induction d generalizing dst with
  | nil =>
      rw [List.length_nil, BitVec.add_zero] at hs
      exact hs
  | cons c d ih =>
      obtain ⟨hc, hne, hd⟩ := hd
      have hbyte := hkept 0 (Nat.succ_pos _)
      rw [BitVec.add_zero] at hbyte
      refine ⟨hbyte.trans hc, hne, ih hd ?_ ?_⟩
      · intro i hi
        have hnext := hkept (i + 1) (Nat.succ_lt_succ hi)
        rw [add_ofNat_succ] at hnext
        exact hnext
      · rw [← add_ofNat_succ]
        exact hs

/-- What `strcat` leaves when it returns. -/
structure Appended (m : Memory) (dst : Word) (d s : List Byte) (m' : Memory) : Prop where
  text : StringAt m' dst (d ++ s)
  frame : ∀ x, ¬ Covers (dst + BitVec.ofNat 64 d.length) (s.length + 1) x → m' x = m x

theorem appended_putAll (hd : StringAt m dst d) (hs : StringAt m src s)
    (hsafe : ¬ Behind (dst + BitVec.ofNat 64 d.length) src s.length) :
    Appended m dst d s
      (Written.putAll ⟨m, []⟩ (dst + BitVec.ofNat 64 d.length) (s ++ [0])).mem := by
  have hfits := length_add_lt hd hs hsafe
  have hframe : ∀ x, ¬ Covers (dst + BitVec.ofNat 64 d.length) (s.length + 1) x →
      (Written.putAll ⟨m, []⟩ (dst + BitVec.ofNat 64 d.length) (s ++ [0])).mem x = m x :=
    fun x hx => putAll_frame (by omega) hx
  refine ⟨stringAt_append hd ?_ (stringAt_putAll (stringAt_ne_zero hs) (by omega)), hframe⟩
  intro i hi
  apply hframe
  rw [Covers, BitVec.toNat_sub, BitVec.toNat_add, BitVec.toNat_add, BitVec.toNat_ofNat,
    BitVec.toNat_ofNat]
  omega

theorem strcat_returns (hd : StringAt m dst d) (hs : StringAt m src s)
    (hsafe : ¬ Behind (dst + BitVec.ofNat 64 d.length) src s.length) {fuel : Nat}
    (hfuel : d.length < fuel ∧ s.length < fuel) :
    ∃ w, strcat fuel m dst src = some w ∧ Appended m dst d s w.mem := by
  refine ⟨_, ?_, appended_putAll hd hs hsafe⟩
  rw [strcat, findNul_returns hd hfuel.1, Option.bind_some]
  exact copyUntilNul_returns hs hsafe hfuel.2

end Concatenation

/-- `strcat` returns exactly if the end of the destination does not lie inside of the
source string or at its NUL, other than at its start: never for a string appended to
itself.  When it returns it has appended the string and left every other byte. -/
theorem strcat_returns_iff {m : Memory} {dst src : Word} {d s : List Byte}
    (hd : StringAt m dst d) (hs : StringAt m src s) :
    ((∃ fuel w, strcat fuel m dst src = some w) ↔
        ¬ Behind (dst + BitVec.ofNat 64 d.length) src s.length) ∧
      ∀ fuel w, strcat fuel m dst src = some w → Appended m dst d s w.mem := by
  have hsome : ∀ fuel w, strcat fuel m dst src = some w →
      ¬ Behind (dst + BitVec.ofNat 64 d.length) src s.length ∧
        w = Written.putAll ⟨m, []⟩ (dst + BitVec.ofNat 64 d.length) (s ++ [0]) := by
    intro fuel w hw
    obtain ⟨stop, hstop, hcopy⟩ := Option.bind_eq_some_iff.mp hw
    rw [findNul_some hd hstop] at hcopy
    exact copyUntilNul_some (w := ⟨m, []⟩) hs hcopy
  refine ⟨⟨?_, ?_⟩, ?_⟩
  · rintro ⟨fuel, w, hw⟩
    exact (hsome fuel w hw).1
  · intro hsafe
    obtain ⟨w, hw, -⟩ := strcat_returns hd hs hsafe
      (Nat.max_lt.mp (Nat.lt_succ_self (max d.length s.length)))
    exact ⟨_, w, hw⟩
  · intro fuel w hw
    obtain ⟨hsafe, rfl⟩ := hsome fuel w hw
    exact appended_putAll hd hs hsafe

theorem strcat_returns_iff_letter :
    ((∃ fuel w, strcat fuel letterMemory 0x2000 0x2000 = some w) ↔
        ¬ Behind (0x2000 + BitVec.ofNat 64 ([97] : List Byte).length) 0x2000
          ([97] : List Byte).length) ∧
      ∀ fuel w, strcat fuel letterMemory 0x2000 0x2000 = some w →
        Appended letterMemory 0x2000 [97] [97] w.mem :=
  strcat_returns_iff letterMemory_string letterMemory_string

section Sequences

variable {m : Memory} {dst : Word} {d : List Byte}

/-- One `strcat` after the other, all to the same buffer. -/
def build (fuel : Nat) (dst : Word) : List Word → Memory → Option Memory
  | [], m => some m
  | src :: srcs, m => (strcat fuel m dst src).bind fun w => build fuel dst srcs w.mem

/-- The strings to be appended, each with its address. -/
abbrev Parts := List (Word × List Byte)

def joined (parts : Parts) : List Byte :=
  parts.flatMap Prod.snd

theorem covers_end {n : Nat} {x : Word} (hlen : d.length < 2 ^ 64) {k : Nat}
    (hn : d.length + k ≤ n) (hx : Covers (dst + BitVec.ofNat 64 d.length) k x) :
    Covers dst n x := by
  refine hx.mono (d := d.length) ?_ hn
  rw [add_ofNat_sub_self, BitVec.toNat_ofNat]
  exact Nat.mod_eq_of_lt hlen

theorem not_behind_of_apart {src : Word} {s : List Byte} {n : Nat} (hlen : d.length < 2 ^ 64)
    (hn : d.length < n) (hapart : Apart src (s.length + 1) dst n) :
    ¬ Behind (dst + BitVec.ofNat 64 d.length) src s.length := by
  rintro ⟨-, hle⟩
  exact hapart (dst + BitVec.ofNat 64 d.length) (Nat.lt_succ_of_le hle)
    (covers_end hlen (k := 1) hn (covers_self Nat.one_pos))

theorem build_step {src : Word} {s : List Byte} {n fuel : Nat} (hd : StringAt m dst d)
    (hs : StringAt m src s) (hn : d.length + s.length < n) (hfuel : n ≤ fuel)
    (hapart : Apart src (s.length + 1) dst n) :
    ∃ w, strcat fuel m dst src = some w ∧ StringAt w.mem dst (d ++ s) ∧
      ∀ x, ¬ Covers dst n x → w.mem x = m x := by
  have hlen := stringAt_length hd
  obtain ⟨w, hw, happended⟩ := strcat_returns hd hs
    (not_behind_of_apart hlen (by omega) hapart) (show d.length < fuel ∧ s.length < fuel by omega)
  refine ⟨w, hw, happended.text, fun x hx => happended.frame x fun h => hx ?_⟩
  exact covers_end hlen (by omega) h

end Sequences

/-- A buffer filled by any sequence of `strcat` from strings apart from it holds their
concatenation, and nothing is stored outside of the room that takes. -/
theorem build_concatenates {m : Memory} {dst : Word} {d : List Byte} (hd : StringAt m dst d)
    (parts : Parts)
    (hparts : ∀ q ∈ parts, StringAt m q.1 q.2 ∧
      Apart q.1 (q.2.length + 1) dst (d.length + (joined parts).length + 1)) {fuel : Nat}
    (hfuel : d.length + (joined parts).length < fuel) :
    ∃ m', build fuel dst (parts.map Prod.fst) m = some m' ∧ StringAt m' dst (d ++ joined parts) ∧
      ∀ x, ¬ Covers dst (d.length + (joined parts).length + 1) x → m' x = m x := by
  induction parts generalizing m d with
  | nil =>
      refine ⟨m, rfl, ?_, fun x _ => rfl⟩
      rw [joined, List.flatMap_nil, List.append_nil]
      exact hd
  | cons q parts ih =>
      obtain ⟨src, s⟩ := q
      have htext : joined ((src, s) :: parts) = s ++ joined parts := List.flatMap_cons
      obtain ⟨⟨hs, hapart⟩, hparts⟩ := List.forall_mem_cons.mp hparts
      dsimp only at hs hapart
      rw [htext, List.length_append] at hapart hfuel
      obtain ⟨w, hw, hjoined, hframe⟩ := build_step hd hs (by omega) hfuel hapart
      have hlength : (d ++ s).length + (joined parts).length =
          d.length + (s.length + (joined parts).length) := by
        rw [List.length_append, Nat.add_assoc]
      have hrest : ∀ q ∈ parts, StringAt w.mem q.1 q.2 ∧
          Apart q.1 (q.2.length + 1) dst ((d ++ s).length + (joined parts).length + 1) := by
        intro q hq
        obtain ⟨hq, hqapart⟩ := hparts q hq
        rw [htext, List.length_append] at hqapart
        rw [hlength]
        exact ⟨stringAt_of_frame hframe hqapart hq, hqapart⟩
      obtain ⟨m', hbuild, hall, hframe'⟩ := ih hjoined hrest (by omega)
      refine ⟨m', ?_, ?_, fun x hx => ?_⟩
      · rw [List.map_cons, build, hw, Option.bind_some, hbuild]
      · rw [htext, ← List.append_assoc]
        exact hall
      · rw [htext, List.length_append] at hx
        rw [hframe' x (by rw [hlength]; exact hx), hframe x hx]

theorem build_concatenates_letters :
    ∃ m', build 3 0x1000 [0x2000, 0x2000] letterMemory = some m' ∧
      StringAt m' 0x1000 [97, 97] ∧
      ∀ x, ¬ Covers 0x1000 3 x → m' x = letterMemory x := by
  have hempty : StringAt letterMemory 0x1000 [] := rfl
  have hapart : Apart 0x2000 2 0x1000 3 := by
    apply apart_of_le_sub
    · decide
    · decide
  refine build_concatenates hempty [(0x2000, [97]), (0x2000, [97])] ?_ (by decide)
  intro q hq
  simp only [List.mem_cons, List.not_mem_nil, or_false, or_self] at hq
  subst hq
  exact ⟨letterMemory_string, hapart⟩

section Search

variable {m : Memory} {p : Word} {s : List Byte} {c : BitVec 32}

/-- The standard's `strchr`: the first place of the character in the string with its
NUL. -/
def standardStrchr (p : Word) (s : List Byte) (c : BitVec 32) : Option Word :=
  ((s ++ [0]).idxOf? (c.setWidth 8)).map fun i => p + BitVec.ofNat 64 i

theorem strchr_eq_standard (hs : StringAt m p s) (hc : c = 0 ∨ c.setWidth 8 ≠ (0 : Byte))
    {fuel : Nat} (hfuel : s.length < fuel) :
    strchr m c fuel p = some (standardStrchr p s c) := by
  induction s generalizing p fuel with
  | nil =>
      obtain ⟨fuel, rfl⟩ : ∃ n, fuel = n + 1 := ⟨fuel - 1, by omega⟩
      have hnul : m p = 0 := hs
      rw [strchr, hnul, if_neg (not_not.mpr rfl), standardStrchr, List.nil_append,
        List.idxOf?_cons]
      rcases hc with rfl | hc
      · rw [if_pos rfl]
        simp
      · have hne : c ≠ 0 := by
          rintro rfl
          exact hc rfl
        rw [if_neg hne, if_neg (by simpa using Ne.symm hc)]
        rfl
  | cons x s ih =>
      obtain ⟨fuel, rfl⟩ : ∃ n, fuel = n + 1 := ⟨fuel - 1, by omega⟩
      obtain ⟨hx, hne, hs⟩ := hs
      rw [List.length_cons] at hfuel
      rw [strchr, hx, if_pos hne, standardStrchr, List.cons_append, List.idxOf?_cons]
      by_cases heq : x = c.setWidth 8
      · rw [if_pos heq, if_pos (by simpa using heq)]
        simp
      · rw [if_neg heq, if_neg (by simpa using heq), ih hs (by omega), standardStrchr,
          Option.map_map]
        congr 2
        funext i
        exact (add_ofNat_succ p i).symm

theorem strchr_none (hs : StringAt m p s) (hne : c ≠ 0) (hc : c.setWidth 8 = (0 : Byte))
    {fuel : Nat} (hfuel : s.length < fuel) : strchr m c fuel p = some none := by
  induction s generalizing p fuel with
  | nil =>
      obtain ⟨fuel, rfl⟩ : ∃ n, fuel = n + 1 := ⟨fuel - 1, by omega⟩
      have hnul : m p = 0 := hs
      rw [strchr, hnul, if_neg (not_not.mpr rfl), if_neg hne]
  | cons x s ih =>
      obtain ⟨fuel, rfl⟩ : ∃ n, fuel = n + 1 := ⟨fuel - 1, by omega⟩
      obtain ⟨hx, hx0, hs⟩ := hs
      rw [List.length_cons] at hfuel
      rw [strchr, hx, if_pos hx0, if_neg (by rw [hc]; exact hx0), ih hs (by omega)]

end Search

/-- `strchr` finds what the standard's one finds for every string and every `int`, except
that a nonzero multiple of 256, which is NUL as a character, finds nothing. -/
theorem strchr_standard_iff {m : Memory} {p : Word} {s : List Byte} (hs : StringAt m p s)
    (c : BitVec 32) {fuel : Nat} (hfuel : s.length < fuel) :
    strchr m c fuel p = some (standardStrchr p s c) ↔ ¬ (c ≠ 0 ∧ c.setWidth 8 = (0 : Byte)) := by
  constructor
  · rintro heq ⟨hne, hc⟩
    rw [strchr_none hs hne hc hfuel, standardStrchr, hc] at heq
    have hnone := (Option.map_eq_none_iff.mp (Option.some.inj heq).symm)
    rw [List.idxOf?_eq_none_iff] at hnone
    exact hnone (List.mem_append_right s List.mem_cons_self)
  · intro h
    refine strchr_eq_standard hs ?_ hfuel
    by_cases hc : c = 0
    · exact .inl hc
    · exact .inr fun h0 => h ⟨hc, h0⟩

theorem strchr_standard_iff_letter :
    strchr letterMemory 256 2 0x2000 = some (standardStrchr 0x2000 [97] 256) ↔
      ¬ ((256 : BitVec 32) ≠ 0 ∧ (256 : BitVec 32).setWidth 8 = (0 : Byte)) :=
  strchr_standard_iff letterMemory_string 256 (by decide)

end ShlteOs.StringBuilding
