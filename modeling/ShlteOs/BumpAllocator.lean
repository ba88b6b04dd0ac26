import ShlteOs.ByteMemory

/-!
The early allocator `kmalloc_simple`, which both architectures have with a
different heap start: a pointer that only moves up, by sizes rounded to pages.
Nothing checks that the rounding or the pointer does not wrap.
-/

namespace ShlteOs.BumpAllocator

open ShlteOs.ByteMemory

/-- The architectures, which differ in where the heap starts. -/
inductive Arch
  | arm64
  | x86
  deriving DecidableEq, Repr

/-- The initial value of the static `alloc_ptr`. -/
def heapStart : Arch → Word
  | .arm64 => 0x10000000
  | .x86 => 0x20000000

/-- A size rounded up to whole pages; it wraps for the largest sizes. -/
def roundSize (size : Word) : Word := (size + 0xFFF) &&& ~~~0xFFF

/-- `kmalloc_simple`: the pointer it returns and the new `alloc_ptr`. -/
def kmallocSimple (allocPtr size : Word) : Word × Word :=
  let size := roundSize size
  let ptr := allocPtr
  let allocPtr := allocPtr + size
  (ptr, allocPtr)

/-- What a caller was given, and the size it asked for. -/
structure Region where
  base : Word
  size : Word

/-- The regions of a sequence of requests. -/
def allocations : Word → List Word → List Region
  | _, [] => []
  | allocPtr, size :: sizes =>
      { base := (kmallocSimple allocPtr size).1, size := size } ::
        allocations (kmallocSimple allocPtr size).2 sizes

/-- No byte belongs to both regions. -/
def Region.Disjoint (a b : Region) : Prop := Apart a.base a.size.toNat b.base b.size.toNat

/-- The regions start at page boundaries, lie in the heap and do not overlap. -/
structure Sound (start : Word) (regions : List Region) : Prop where
  aligned : ∀ r ∈ regions, r.base.toNat % 4096 = 0
  inHeap : ∀ r ∈ regions, start.toNat ≤ r.base.toNat
  disjoint : regions.Pairwise Region.Disjoint

/-- The size a request takes up, without wrapping. -/
def taken (size : Word) : Nat := (size.toNat + 4095) / 4096 * 4096

/-- What the first `i` requests take up together. -/
def takenBefore (sizes : List Word) (i : Nat) : Nat := ((sizes.take i).map taken).sum

/-- The request finds its pointer inside the address space and ends before the
heap comes round to its own start.  A request of no bytes may also come after
the whole address space was given away. -/
def Room (start : Word) (before : Nat) (size : Word) : Prop :=
  if size = 0 then start.toNat + before < 2 ^ 64 ∨ 2 ^ 64 ≤ before
  else start.toNat + before < 2 ^ 64 ∧ before + size.toNat ≤ 2 ^ 64

/-- Every request ends inside the address space. -/
def Fits (start : Word) (sizes : List Word) : Prop :=
  ∀ i size, sizes[i]? = some size → Room start (takenBefore sizes i) size

theorem toNat_and_not_page (x : Word) : (x &&& ~~~0xFFF).toNat = x.toNat / 4096 * 4096 :=
  toNat_and_not_mask x (k := 12) (by decide)

theorem roundSize_eq (size : Word) : roundSize size = BitVec.ofNat 64 (taken size) := by
  have hadd : (size + 0xFFF).toNat = (size.toNat + 4095) % 2 ^ 64 := by
    rw [BitVec.toNat_add]
    rfl
  apply BitVec.eq_of_toNat_eq
  rw [roundSize, toNat_and_not_page, hadd, taken, BitVec.toNat_ofNat]
  omega

theorem takenBefore_succ {sizes : List Word} {i : Nat} {size : Word}
    (h : sizes[i]? = some size) :
    takenBefore sizes (i + 1) = takenBefore sizes i + taken size := by
  rw [takenBefore, List.take_add_one, h]
  simp [takenBefore]

theorem takenBefore_succ_of_none {sizes : List Word} {i : Nat} (h : sizes[i]? = none) :
    takenBefore sizes (i + 1) = takenBefore sizes i := by
  rw [takenBefore, List.take_add_one, h]
  simp [takenBefore]

theorem takenBefore_mono {sizes : List Word} {i j : Nat} (h : i ≤ j) :
    takenBefore sizes i ≤ takenBefore sizes j := by
  induction h with
  | refl => exact le_rfl
  | @step j hij ih =>
      rcases hget : sizes[j]? with _ | size
      · rw [takenBefore_succ_of_none hget]
        exact ih
      · rw [takenBefore_succ hget]
        omega

theorem takenBefore_aligned (sizes : List Word) (i : Nat) : takenBefore sizes i % 4096 = 0 := by
  induction i with
  | zero => rfl
  | succ i ih =>
      rcases hget : sizes[i]? with _ | size
      · rw [takenBefore_succ_of_none hget, ih]
      · rw [takenBefore_succ hget, taken]
        omega

theorem exists_taker {sizes : List Word} {q i : Nat} (h : q < takenBefore sizes i) :
    ∃ k < i, ∃ size, sizes[k]? = some size ∧ takenBefore sizes k ≤ q ∧
      q < takenBefore sizes k + taken size := by
  induction i with
  | zero => exact absurd h (Nat.not_lt_zero q)
  | succ i ih =>
      by_cases hq : q < takenBefore sizes i
      · obtain ⟨k, hk, htaker⟩ := ih hq
        exact ⟨k, by omega, htaker⟩
      · rcases hget : sizes[i]? with _ | size
        · rw [takenBefore_succ_of_none hget] at h
          exact absurd h hq
        · rw [takenBefore_succ hget] at h
          exact ⟨i, by omega, size, hget, by omega, h⟩

theorem allocations_getElem? (allocPtr : Word) (sizes : List Word) (i : Nat) :
    (allocations allocPtr sizes)[i]? = sizes[i]?.map fun size =>
      { base := allocPtr + BitVec.ofNat 64 (takenBefore sizes i), size := size } := by
  induction sizes generalizing allocPtr i with
  | nil => rfl
  | cons size sizes ih =>
      cases i with
      | zero => simp [allocations, kmallocSimple, takenBefore]
      | succ i =>
          have hsum : takenBefore (size :: sizes) (i + 1) = taken size + takenBefore sizes i := by
            simp [takenBefore]
          rw [allocations, List.getElem?_cons_succ, List.getElem?_cons_succ, ih, hsum,
            kmallocSimple, roundSize_eq]
          simp only [BitVec.ofNat_add, BitVec.add_assoc]

section Heap

variable {start : Word} {sizes : List Word}

/-- The region of the `i`-th request. -/
def regionAt (start : Word) (sizes : List Word) (i : Nat) (size : Word) : Region where
  base := start + BitVec.ofNat 64 (takenBefore sizes i)
  size := size

theorem toNat_regionAt (start : Word) (sizes : List Word) (i : Nat) (size : Word) :
    (regionAt start sizes i size).base.toNat =
      (start.toNat + takenBefore sizes i) % 2 ^ 64 := by
  rw [regionAt, BitVec.toNat_add, BitVec.toNat_ofNat, Nat.add_mod_mod]

theorem toNat_regionAt_of_lt {i : Nat} {size : Word}
    (h : start.toNat + takenBefore sizes i < 2 ^ 64) :
    (regionAt start sizes i size).base.toNat = start.toNat + takenBefore sizes i := by
  rw [toNat_regionAt, Nat.mod_eq_of_lt h]

theorem mem_allocations {r : Region} :
    r ∈ allocations start sizes ↔
      ∃ i size, sizes[i]? = some size ∧ r = regionAt start sizes i size := by
  rw [List.mem_iff_getElem?]
  refine exists_congr fun i => ?_
  rw [allocations_getElem?, Option.map_eq_some_iff]
  exact exists_congr fun size => and_congr_right fun _ => eq_comm

theorem pairwise_allocations {R : Region → Region → Prop} :
    (allocations start sizes).Pairwise R ↔
      ∀ i j si sj, i < j → sizes[i]? = some si → sizes[j]? = some sj →
        R (regionAt start sizes i si) (regionAt start sizes j sj) := by
  rw [List.pairwise_iff_getElem]
  constructor
  · intro h i j si sj hij hi hj
    have hai : (allocations start sizes)[i]? = some (regionAt start sizes i si) := by
      rw [allocations_getElem?, hi]
      rfl
    have haj : (allocations start sizes)[j]? = some (regionAt start sizes j sj) := by
      rw [allocations_getElem?, hj]
      rfl
    obtain ⟨hilt, hieq⟩ := List.getElem?_eq_some_iff.mp hai
    obtain ⟨hjlt, hjeq⟩ := List.getElem?_eq_some_iff.mp haj
    rw [← hieq, ← hjeq]
    exact h i j hilt hjlt hij
  · intro h i j hi hj hij
    have hai := List.getElem?_eq_getElem hi
    have haj := List.getElem?_eq_getElem hj
    rw [allocations_getElem?, Option.map_eq_some_iff] at hai haj
    obtain ⟨si, hsi, hri⟩ := hai
    obtain ⟨sj, hsj, hrj⟩ := haj
    rw [← hri, ← hrj]
    exact h i j si sj hij hsi hsj

theorem apart_of_size_zero {a b : Word} {n : Nat} : Apart a n b 0 :=
  fun _ _ h => absurd h (Nat.not_lt_zero _)

theorem le_taken (size : Word) : size.toNat ≤ taken size := by
  rw [taken]
  omega

theorem toNat_pos {size : Word} (h : size ≠ 0) : 0 < size.toNat :=
  Nat.pos_of_ne_zero fun hzero => h (BitVec.eq_of_toNat_eq hzero)

theorem room_of_ne_zero {before : Nat} {size : Word} (hsize : size ≠ 0)
    (h : Room start before size) :
    start.toNat + before < 2 ^ 64 ∧ before + size.toNat ≤ 2 ^ 64 := by
  rwa [Room, if_neg hsize] at h

theorem disjoint_of_fits (h : Fits start sizes) {i j : Nat} {si sj : Word} (hij : i < j)
    (hi : sizes[i]? = some si) (hj : sizes[j]? = some sj) :
    (regionAt start sizes i si).Disjoint (regionAt start sizes j sj) := by
  by_cases hsi : si = 0
  · subst hsi
    exact apart_of_size_zero.symm
  · by_cases hsj : sj = 0
    · subst hsj
      exact apart_of_size_zero
    · have hroomi := room_of_ne_zero hsi (h i si hi)
      have hroomj := room_of_ne_zero hsj (h j sj hj)
      have hpos := toNat_pos hsi
      have hbefore : takenBefore sizes i + si.toNat ≤ takenBefore sizes j := by
        have hmono : takenBefore sizes (i + 1) ≤ takenBefore sizes j := takenBefore_mono hij
        have hle := le_taken si
        rw [takenBefore_succ hi] at hmono
        omega
      apply apart_of_le_sub
      · rw [BitVec.toNat_sub, toNat_regionAt_of_lt hroomi.1, toNat_regionAt_of_lt hroomj.1]
        simp only [regionAt]
        omega
      · rw [BitVec.toNat_sub, toNat_regionAt_of_lt hroomi.1, toNat_regionAt_of_lt hroomj.1]
        simp only [regionAt]
        omega

/-- A page boundary the pointer has passed over lies in the region of an earlier
request, since less than a page is lost to rounding. -/
theorem covered_of_lt (start : Word) {q i : Nat} (hq : q < takenBefore sizes i)
    (halign : q % 4096 = 0) :
    ∃ k < i, ∃ size, sizes[k]? = some size ∧
      Covers (regionAt start sizes k size).base size.toNat (start + BitVec.ofNat 64 q) := by
  obtain ⟨k, hk, size, hget, hlow, hhigh⟩ := exists_taker hq
  refine ⟨k, hk, size, hget, ?_⟩
  have hoffset : start + BitVec.ofNat 64 q - (regionAt start sizes k size).base =
      BitVec.ofNat 64 (q - takenBefore sizes k) := by
    have hsplit : BitVec.ofNat 64 q =
        BitVec.ofNat 64 (takenBefore sizes k) + BitVec.ofNat 64 (q - takenBefore sizes k) := by
      rw [← BitVec.ofNat_add, Nat.add_sub_cancel' hlow]
    rw [hsplit, regionAt, ← BitVec.add_assoc, BitVec.add_comm, BitVec.add_sub_cancel]
  have haligned := takenBefore_aligned sizes k
  rw [Covers, hoffset, BitVec.toNat_ofNat]
  rw [taken] at hhigh
  omega

theorem room_of_sound (h : Sound start (allocations start sizes)) {i : Nat} {size : Word}
    (hi : sizes[i]? = some size) : Room start (takenBefore sizes i) size := by
  have hheap : start.toNat ≤ (start.toNat + takenBefore sizes i) % 2 ^ 64 := by
    rw [← toNat_regionAt start sizes i size]
    exact h.inHeap _ (mem_allocations.mpr ⟨i, size, hi, rfl⟩)
  have hdisjoint := pairwise_allocations.mp h.disjoint
  have hstart := start.isLt
  by_cases hsize : size = 0
  · rw [Room, if_pos hsize]
    omega
  · have hpos := toNat_pos hsize
    rw [Room, if_neg hsize]
    have hbelow : takenBefore sizes i < 2 ^ 64 := by
      by_contra hover
      have halign := takenBefore_aligned sizes i
      obtain ⟨k, hk, sk, hgetk, hcover⟩ := covered_of_lt start
        (show takenBefore sizes i % 2 ^ 64 < takenBefore sizes i by omega) (by omega)
      refine hdisjoint k i sk size hk hgetk hi _ hcover ?_
      have hbase : start + BitVec.ofNat 64 (takenBefore sizes i % 2 ^ 64) =
          (regionAt start sizes i size).base := by
        apply BitVec.eq_of_toNat_eq
        rw [toNat_regionAt, BitVec.toNat_add, BitVec.toNat_ofNat, Nat.mod_mod, Nat.add_mod_mod]
      rw [hbase]
      exact covers_self hpos
    refine ⟨by omega, ?_⟩
    by_contra hround
    have hsizelt := size.isLt
    obtain ⟨k, hk, sk, hgetk, hcover⟩ := covered_of_lt start
      (show 0 < takenBefore sizes i by omega) rfl
    refine hdisjoint k i sk size hk hgetk hi _ hcover ?_
    rw [Covers, BitVec.toNat_sub, toNat_regionAt_of_lt (by omega), BitVec.toNat_add]
    simp only [regionAt, BitVec.toNat_ofNat]
    omega

theorem takenBefore_le_of_fits (h : Fits start sizes) (i : Nat) :
    takenBefore sizes i ≤ 2 ^ 64 := by
  induction i with
  | zero => exact Nat.zero_le _
  | succ i ih =>
      rcases hget : sizes[i]? with _ | size
      · rw [takenBefore_succ_of_none hget]
        exact ih
      · rw [takenBefore_succ hget, taken]
        by_cases hsize : size = 0
        · subst hsize
          exact ih
        · have hroom := room_of_ne_zero hsize (h i size hget)
          have halign := takenBefore_aligned sizes i
          omega

theorem inHeap_of_fits (h : Fits start sizes) {i : Nat} {size : Word}
    (hi : sizes[i]? = some size) :
    start.toNat ≤ (start.toNat + takenBefore sizes i) % 2 ^ 64 := by
  have hle := takenBefore_le_of_fits h i
  have hroom := h i size hi
  have hstart := start.isLt
  rw [Room] at hroom
  split at hroom
  · omega
  · omega

theorem sound_of_fits (hstart : start.toNat % 4096 = 0) (h : Fits start sizes) :
    Sound start (allocations start sizes) := by
  refine ⟨?_, ?_, ?_⟩
  · intro r hr
    obtain ⟨i, size, hi, rfl⟩ := mem_allocations.mp hr
    have halign := takenBefore_aligned sizes i
    rw [toNat_regionAt]
    omega
  · intro r hr
    obtain ⟨i, size, hi, rfl⟩ := mem_allocations.mp hr
    rw [toNat_regionAt]
    exact inHeap_of_fits h hi
  · exact pairwise_allocations.mpr fun i j si sj hij hi hj => disjoint_of_fits h hij hi hj

end Heap

theorem heapStart_aligned (arch : Arch) : (heapStart arch).toNat % 4096 = 0 := by
  cases arch with
  | arm64 => rfl
  | x86 => rfl

/-- For every sequence of requests, the regions are aligned, above the heap
start and disjoint exactly when each request still had room. -/
theorem sound_allocations_iff (arch : Arch) (sizes : List Word) :
    Sound (heapStart arch) (allocations (heapStart arch) sizes) ↔ Fits (heapStart arch) sizes := by
  constructor
  · intro h i size hi
    exact room_of_sound h hi
  · exact sound_of_fits (heapStart_aligned arch)

/-- A request of almost the whole address space is rounded to nothing, and the
next one gets the same pointer. -/
theorem not_sound_largest_then_one :
    ¬ Sound (heapStart .arm64) (allocations (heapStart .arm64) [0xFFFFFFFFFFFFFFFF, 1]) := by
  intro h
  have hdisjoint := pairwise_allocations.mp h.disjoint 0 1 _ _ (by decide) rfl rfl
  exact hdisjoint (heapStart .arm64) (by decide) (by decide)

end ShlteOs.BumpAllocator
