import ShlteOs.PageAllocatorSteps

/-!
The allocation bitmap as a set of bits.  Writing one bit changes this bit and no
other, writing a range changes the bits of the range, and neither touches memory
outside of the bitmap.
-/

namespace ShlteOs.PageBitmap

open ShlteOs.ByteMemory
open ShlteOs.PageAllocator
open ShlteOs.PageAllocatorSteps

/-- The address is one of the bytes of the bitmap. -/
def InBitmap (b : Buddy) (x : Word) : Prop := Covers b.bitmap (b.bitmapWords.toNat * 8) x

/-- The page has a bit in the bitmap. -/
def HasBit (b : Buddy) (i : Word) : Prop := i.toNat < b.bitmapWords.toNat * 64

/-- A bit of the bitmap, whether or not the number is in range. -/
def bit (b : Buddy) (m : Memory) (i : Word) : Bool :=
  (load m (b.bitmap + i / 64 * 8)).getLsbD (i % 64).toNat

section Bits

theorem getLsbD_one_shiftLeft (k : Nat) {n : Nat} (hn : n < 64) :
    ((1 : Word) <<< k).getLsbD n = decide (n = k) := by
  have hone : (1 : Word).getLsbD (n - k) = decide (n - k = 0) := by
    rw [BitVec.ofNat_eq_ofNat, BitVec.getLsbD_one]
    simp
  rw [BitVec.getLsbD_shiftLeft, hone, decide_eq_true hn, Bool.true_and]
  by_cases h : n = k
  · simp [h]
  · simp only [h, decide_false, Bool.and_eq_false_iff, Bool.not_eq_false', decide_eq_true_eq,
      decide_eq_false_iff_not]
    omega

theorem shiftRight_and_one (x k : Word) : (x >>> k &&& 1 != 0) = x.getLsbD k.toNat := by
  rw [BitVec.ushiftRight_eq', BitVec.ofNat_eq_ofNat, BitVec.and_one_eq_setWidth_ofBool_getLsbD,
    BitVec.getLsbD_ushiftRight, Nat.add_zero]
  cases x.getLsbD k.toNat with
  | false => rfl
  | true => rfl

theorem toNat_umod_lt (i : Word) : (i % 64).toNat < 64 := by
  have hsixty : (64 : Word).toNat = 64 := rfl
  rw [BitVec.toNat_umod, hsixty]
  omega

variable {b : Buddy} {m : Memory} {i j : Word} {allocated : Bool}

theorem hasBit_iff : HasBit b i ↔ ¬ b.bitmapWords ≤ i / 64 := by
  have hsixty : (64 : Word).toNat = 64 := rfl
  rw [HasBit, BitVec.le_def, BitVec.toNat_udiv, hsixty]
  omega

theorem buddyIsAllocated_eq (h : HasBit b i) : buddyIsAllocated b m i = bit b m i := by
  rw [buddyIsAllocated, if_neg (hasBit_iff.mp h), shiftRight_and_one]
  rfl

theorem buddyIsAllocated_of_not_hasBit (h : ¬ HasBit b i) : buddyIsAllocated b m i = true := by
  rw [hasBit_iff, not_not] at h
  rw [buddyIsAllocated, if_pos h]

theorem covers_word (h : HasBit b i) (hwords : b.bitmapWords.toNat * 8 ≤ 2 ^ 64) {x : Word}
    (hx : Covers (b.bitmap + i / 64 * 8) 8 x) : InBitmap b x := by
  have hword : i / 64 = BitVec.ofNat 64 (i / 64).toNat := by
    rw [BitVec.ofNat_toNat, BitVec.setWidth_eq]
  have hlt := hasBit_iff.mp h
  rw [BitVec.le_def] at hlt
  rw [hword] at hx
  exact covers_slot (by omega) hwords hx

theorem buddyIsAllocated_congr {m' : Memory} (hwords : b.bitmapWords.toNat * 8 ≤ 2 ^ 64)
    (h : ∀ x, InBitmap b x → m x = m' x) (i : Word) :
    buddyIsAllocated b m i = buddyIsAllocated b m' i := by
  by_cases hbit : HasBit b i
  · rw [buddyIsAllocated_eq hbit, buddyIsAllocated_eq hbit, bit, bit,
      load_congr fun x hx => h x (covers_word hbit hwords hx)]
  · rw [buddyIsAllocated_of_not_hasBit hbit, buddyIsAllocated_of_not_hasBit hbit]

theorem apart_words (hi : HasBit b i) (hj : HasBit b j) (hne : i / 64 ≠ j / 64)
    (hwords : b.bitmapWords.toNat * 8 ≤ 2 ^ 64) :
    Apart (b.bitmap + j / 64 * 8) 8 (b.bitmap + i / 64 * 8) 8 := by
  have hval : ∀ w : Word, w = BitVec.ofNat 64 w.toNat := fun w => by
    rw [BitVec.ofNat_toNat, BitVec.setWidth_eq]
  have hlt := hasBit_iff.mp hi
  have hlt' := hasBit_iff.mp hj
  rw [BitVec.le_def] at hlt hlt'
  rw [hval (i / 64), hval (j / 64)]
  refine apart_slots (fun h => hne (BitVec.eq_of_toNat_eq h.symm)) ?_ ?_ hwords
  · omega
  · omega

theorem bit_setAllocated (hi : HasBit b i) (hj : HasBit b j)
    (hwords : b.bitmapWords.toNat * 8 ≤ 2 ^ 64) :
    bit b (buddySetAllocated b m i allocated) j = if i = j then allocated else bit b m j := by
  have hset : buddySetAllocated b m i allocated = store m (b.bitmap + i / 64 * 8)
      (if allocated then load m (b.bitmap + i / 64 * 8) ||| (1 : Word) <<< (i % 64)
        else load m (b.bitmap + i / 64 * 8) &&& ~~~((1 : Word) <<< (i % 64))) := by
    rw [buddySetAllocated, if_neg (hasBit_iff.mp hi)]
    cases allocated with
    | false => rfl
    | true => rfl
  have hdiv : i / 64 = j / 64 → (i % 64).toNat = (j % 64).toNat → i = j := by
    intro hdiv hmod
    have hsixty : (64 : Word).toNat = 64 := rfl
    have hquot := congrArg BitVec.toNat hdiv
    simp only [BitVec.toNat_udiv, BitVec.toNat_umod, hsixty] at hquot hmod
    apply BitVec.eq_of_toNat_eq
    omega
  rw [hset, bit, bit]
  by_cases hword : i / 64 = j / 64
  · rw [hword, load_store_same]
    have hmod : i = j ↔ (j % 64).toNat = (i % 64).toNat :=
      ⟨fun h => by rw [h], fun h => hdiv hword h.symm⟩
    have hn := toNat_umod_lt j
    cases allocated with
    | false =>
        simp only [Bool.false_eq_true, if_false, BitVec.shiftLeft_eq', BitVec.getLsbD_and,
          BitVec.getLsbD_not, getLsbD_one_shiftLeft _ hn, decide_eq_true hn, Bool.true_and]
        split_ifs with heq
        · rw [decide_eq_true (hmod.mp heq), Bool.not_true, Bool.and_false]
        · rw [decide_eq_false (fun h => heq (hmod.mpr h)), Bool.not_false, Bool.and_true]
    | true =>
        simp only [if_true, BitVec.shiftLeft_eq', BitVec.getLsbD_or,
          getLsbD_one_shiftLeft _ hn]
        split_ifs with heq
        · rw [decide_eq_true (hmod.mp heq), Bool.or_true]
        · rw [decide_eq_false (fun h => heq (hmod.mpr h)), Bool.or_false]
  · rw [load_store_apart (apart_words hi hj hword hwords), if_neg]
    rintro rfl
    exact hword rfl

theorem buddyIsAllocated_set (hi : HasBit b i) (hwords : b.bitmapWords.toNat * 8 ≤ 2 ^ 64) :
    buddyIsAllocated b (buddySetAllocated b m i allocated) i = allocated := by
  rw [buddyIsAllocated_eq hi, bit_setAllocated hi hi hwords, if_pos rfl]

theorem buddyIsAllocated_set_of_ne (hne : i ≠ j) (hwords : b.bitmapWords.toNat * 8 ≤ 2 ^ 64) :
    buddyIsAllocated b (buddySetAllocated b m i allocated) j = buddyIsAllocated b m j := by
  by_cases hj : HasBit b j
  · by_cases hi : HasBit b i
    · rw [buddyIsAllocated_eq hj, buddyIsAllocated_eq hj, bit_setAllocated hi hj hwords,
        if_neg hne]
    · rw [hasBit_iff, not_not] at hi
      rw [buddySetAllocated, if_pos hi]
  · rw [buddyIsAllocated_of_not_hasBit hj, buddyIsAllocated_of_not_hasBit hj]

end Bits

section Ranges

variable {b : Buddy} {m : Memory} {first j : Word} {count : Nat} {allocated : Bool}

theorem setAllocatedRange_succ (b : Buddy) (m : Memory) (first : Word) (count : Nat)
    (allocated : Bool) :
    setAllocatedRange b m first (count + 1) allocated =
      buddySetAllocated b (setAllocatedRange b m first count allocated)
        (first + BitVec.ofNat 64 count) allocated := by
  simp only [setAllocatedRange, List.range_succ, List.foldl_append, List.foldl_cons,
    List.foldl_nil]

theorem setAllocatedRange_of_not_inBitmap (hwords : b.bitmapWords.toNat * 8 ≤ 2 ^ 64) {x : Word}
    (hx : ¬ InBitmap b x) : setAllocatedRange b m first count allocated x = m x := by
  induction count with
  | zero => rfl
  | succ count ih =>
      rw [setAllocatedRange_succ, buddySetAllocated_of_not_covers hwords hx, ih]

theorem load_setAllocatedRange (hwords : b.bitmapWords.toNat * 8 ≤ 2 ^ 64) {a : Word}
    (ha : ∀ x, Covers a 8 x → ¬ InBitmap b x) :
    load (setAllocatedRange b m first count allocated) a = load m a :=
  load_congr fun x hx => setAllocatedRange_of_not_inBitmap hwords (ha x hx)

theorem buddyIsAllocated_range_of_not_mem (hwords : b.bitmapWords.toNat * 8 ≤ 2 ^ 64)
    (h : ∀ i < count, first + BitVec.ofNat 64 i ≠ j) :
    buddyIsAllocated b (setAllocatedRange b m first count allocated) j =
      buddyIsAllocated b m j := by
  induction count with
  | zero => rfl
  | succ count ih =>
      rw [setAllocatedRange_succ, buddyIsAllocated_set_of_ne (h count (Nat.lt_succ_self _)) hwords]
      exact ih fun i hi => h i (Nat.lt_succ_of_lt hi)

theorem buddyIsAllocated_range_of_mem (hwords : b.bitmapWords.toNat * 8 ≤ 2 ^ 64)
    (hj : HasBit b j) (h : ∃ i < count, first + BitVec.ofNat 64 i = j) :
    buddyIsAllocated b (setAllocatedRange b m first count allocated) j = allocated := by
  induction count with
  | zero =>
      obtain ⟨i, hi, -⟩ := h
      exact absurd hi (Nat.not_lt_zero _)
  | succ count ih =>
      rw [setAllocatedRange_succ]
      by_cases hlast : first + BitVec.ofNat 64 count = j
      · rw [hlast, buddyIsAllocated_set hj hwords]
      · rw [buddyIsAllocated_set_of_ne hlast hwords]
        obtain ⟨i, hi, heq⟩ := h
        have hlt : i < count := by
          rcases Nat.lt_succ_iff_lt_or_eq.mp hi with hlt | rfl
          · exact hlt
          · exact absurd heq hlast
        exact ih ⟨i, hlt, heq⟩

end Ranges

section Restoration

variable {b : Buddy} {m m' : Memory} {first : Word} {count : Nat}

theorem setAllocatedRange_of_not_word {x : Word} {allocated : Bool}
    (hx : ∀ i, HasBit b i → ¬ Covers (b.bitmap + i / 64 * 8) 8 x) :
    setAllocatedRange b m first count allocated x = m x := by
  induction count with
  | zero => rfl
  | succ count ih =>
      rw [setAllocatedRange_succ, buddySetAllocated]
      dsimp only
      split
      · exact ih
      · rename_i hlt
        have hword := hx (first + BitVec.ofNat 64 count) (hasBit_iff.mpr hlt)
        split
        · rw [store_of_not_covers hword, ih]
        · rw [store_of_not_covers hword, ih]

theorem load_eq_of_bits (h : ∀ j, HasBit b j → bit b m j = bit b m' j) {i : Word}
    (hi : HasBit b i) : load m (b.bitmap + i / 64 * 8) = load m' (b.bitmap + i / 64 * 8) := by
  have hsixty : (64 : Word).toNat = 64 := rfl
  have hlt := i.isLt
  apply BitVec.eq_of_getLsbD_eq
  intro n hn
  have hindex : (i / 64 * 64 + BitVec.ofNat 64 n).toNat = i.toNat / 64 * 64 + n := by
    rw [BitVec.toNat_add, BitVec.toNat_mul, BitVec.toNat_udiv, BitVec.toNat_ofNat, hsixty]
    omega
  have hword : (i / 64 * 64 + BitVec.ofNat 64 n) / 64 = i / 64 := by
    apply BitVec.eq_of_toNat_eq
    rw [BitVec.toNat_udiv, BitVec.toNat_udiv, hindex, hsixty]
    omega
  have hbit : ((i / 64 * 64 + BitVec.ofNat 64 n) % 64).toNat = n := by
    rw [BitVec.toNat_umod, hindex, hsixty]
    omega
  have hhas : HasBit b (i / 64 * 64 + BitVec.ofNat 64 n) := by
    rw [hasBit_iff, hword, ← hasBit_iff]
    exact hi
  have hsame := h (i / 64 * 64 + BitVec.ofNat 64 n) hhas
  rw [bit, bit, hword, hbit] at hsame
  exact hsame

theorem eq_of_bits (h : ∀ j, HasBit b j → bit b m j = bit b m' j)
    (hframe : ∀ x, (∀ i, HasBit b i → ¬ Covers (b.bitmap + i / 64 * 8) 8 x) → m x = m' x) :
    m = m' := by
  funext x
  by_cases hx : ∃ i, HasBit b i ∧ Covers (b.bitmap + i / 64 * 8) 8 x
  · obtain ⟨i, hi, hcovers⟩ := hx
    obtain ⟨k, hk, rfl⟩ := hcovers.exists_add
    rw [← wordByte_load m _ hk, ← wordByte_load m' _ hk, load_eq_of_bits h hi]
  · exact hframe x fun i hi hcovers => hx ⟨i, hi, hcovers⟩

theorem range_restored_iff (hwords : b.bitmapWords.toNat * 8 ≤ 2 ^ 64) :
    setAllocatedRange b (setAllocatedRange b m first count true) first count false = m ↔
      ∀ k < count, HasBit b (first + BitVec.ofNat 64 k) →
        buddyIsAllocated b m (first + BitVec.ofNat 64 k) = false := by
  constructor
  · intro h k hk hbit
    rw [← h]
    exact buddyIsAllocated_range_of_mem hwords hbit ⟨k, hk, rfl⟩
  · intro hclear
    apply eq_of_bits (b := b)
    · intro j hj
      rw [← buddyIsAllocated_eq hj, ← buddyIsAllocated_eq hj]
      by_cases hmem : ∃ k < count, first + BitVec.ofNat 64 k = j
      · rw [buddyIsAllocated_range_of_mem hwords hj hmem]
        obtain ⟨k, hk, rfl⟩ := hmem
        exact (hclear k hk hj).symm
      · have hout : ∀ k < count, first + BitVec.ofNat 64 k ≠ j := fun k hk h => hmem ⟨k, hk, h⟩
        rw [buddyIsAllocated_range_of_not_mem hwords hout,
          buddyIsAllocated_range_of_not_mem hwords hout]
    · intro x hx
      rw [setAllocatedRange_of_not_word hx, setAllocatedRange_of_not_word hx]

theorem buddySetAllocated_of_not_hasBit {i : Word} (h : ¬ HasBit b i) (allocated : Bool) :
    buddySetAllocated b m i allocated = m := by
  rw [hasBit_iff, not_not] at h
  rw [buddySetAllocated, if_pos h]

/-- The bitmap is a map from pages to bits: a write is read back at its own page
and nowhere else, and pages without a bit are always allocated. -/
theorem bitmap_map (b : Buddy) (m : Memory) (hwords : b.bitmapWords.toNat * 8 ≤ 2 ^ 64) :
    (∀ i j allocated, buddyIsAllocated b (buddySetAllocated b m i allocated) j =
        if j = i ∧ i.toNat < 64 * b.bitmapWords.toNat then allocated else buddyIsAllocated b m j) ∧
      (∀ i : Word, 64 * b.bitmapWords.toNat ≤ i.toNat →
        buddyIsAllocated b m i = true ∧ ∀ allocated, buddySetAllocated b m i allocated = m) ∧
      ∀ first count,
        setAllocatedRange b (setAllocatedRange b m first count true) first count false = m ↔
          ∀ k < count, (first + BitVec.ofNat 64 k).toNat < 64 * b.bitmapWords.toNat →
            buddyIsAllocated b m (first + BitVec.ofNat 64 k) = false := by
  have hbit : ∀ i : Word, i.toNat < 64 * b.bitmapWords.toNat ↔ HasBit b i := by
    intro i
    rw [HasBit, Nat.mul_comm]
  refine ⟨?_, ?_, ?_⟩
  · intro i j allocated
    split
    · rename_i h
      rw [h.1, buddyIsAllocated_set ((hbit i).mp h.2) hwords]
    · rename_i h
      by_cases hi : HasBit b i
      · exact buddyIsAllocated_set_of_ne (fun heq => h ⟨heq.symm, (hbit i).mpr hi⟩) hwords
      · rw [buddySetAllocated_of_not_hasBit hi]
  · intro i hi
    have hno : ¬ HasBit b i := fun h => absurd ((hbit i).mpr h) (Nat.not_lt.mpr hi)
    exact ⟨buddyIsAllocated_of_not_hasBit hno, buddySetAllocated_of_not_hasBit hno⟩
  · intro first count
    simp only [hbit]
    exact range_restored_iff hwords

/-- A bitmap of two words at `0x1000`. -/
def smallBitmap : Buddy := { bitmap := 0x1000, bitmapWords := 2 }

theorem bitmap_map_smallBitmap :
    (∀ i j allocated, buddyIsAllocated smallBitmap
          (buddySetAllocated smallBitmap (fun _ => 0) i allocated) j =
        if j = i ∧ i.toNat < 64 * smallBitmap.bitmapWords.toNat then allocated
          else buddyIsAllocated smallBitmap (fun _ => 0) j) ∧
      (∀ i : Word, 64 * smallBitmap.bitmapWords.toNat ≤ i.toNat →
        buddyIsAllocated smallBitmap (fun _ => 0) i = true ∧
          ∀ allocated, buddySetAllocated smallBitmap (fun _ => 0) i allocated = fun _ => 0) ∧
      ∀ first count,
        setAllocatedRange smallBitmap
            (setAllocatedRange smallBitmap (fun _ => 0) first count true) first count false =
            (fun _ => 0) ↔
          ∀ k < count, (first + BitVec.ofNat 64 k).toNat < 64 * smallBitmap.bitmapWords.toNat →
            buddyIsAllocated smallBitmap (fun _ => 0) (first + BitVec.ofNat 64 k) = false :=
  bitmap_map smallBitmap (fun _ => 0) (by decide)

end Restoration

end ShlteOs.PageBitmap
