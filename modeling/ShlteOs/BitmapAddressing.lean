import ShlteOs.PageAllocatorSteps

/-!
The bits `alloc_pages` and `free_pages` use for a block.  The bitmap has one bit
for each page, but the first bit of a block is taken from its number among the
blocks of its order.
-/

namespace ShlteOs.BitmapAddressing

open ShlteOs.ByteMemory
open ShlteOs.PageAllocator
open ShlteOs.PageAllocatorSteps

def indices (first : Word) (count : Nat) : List Word :=
  (List.range count).map fun i => first + BitVec.ofNat 64 i

/-- The bits that are set for a block when `alloc_pages` pops it or splits it off,
and cleared when `free_pages` inserts it. -/
def blockIndices (b : Buddy) (block : Word) (k : Nat) : List Word :=
  indices (buddyPhysToIdx b block k) (2 ^ k)

/-- The bits `free_pages` examines and clears for the buddy of a block. -/
def buddyIndices (b : Buddy) (block : Word) (k : Nat) : List Word :=
  indices (buddyOf b block k).2 (2 ^ k)

/-- The bits of a list of numbers, set or cleared. -/
def setBits (b : Buddy) (m : Memory) (is : List Word) (allocated : Bool) : Memory :=
  is.foldl (fun m i => buddySetAllocated b m i allocated) m

section Code

theorem setAllocatedRange_eq (b : Buddy) (m : Memory) (first : Word) (count : Nat)
    (allocated : Bool) :
    setAllocatedRange b m first count allocated = setBits b m (indices first count) allocated := by
  rw [setBits, indices, List.foldl_map]
  rfl

theorem popBlock_mem (s : MM) (found : Nat) :
    (popBlock s found).mem =
      setBits s.buddy s.mem (blockIndices s.buddy (secondNode s found) found) true :=
  setAllocatedRange_eq _ _ _ _ _

theorem splitLoop_succ (order n : Nat) (s : MM) (block : Word) :
    splitLoop order (n + 1) s block =
      splitLoop order n
        (((s.setMem (setBits s.buddy s.mem
          (blockIndices s.buddy (block + blockPages (order + n) * pageSize) (order + n))
          true)).addFreeCount (-blockPages (order + n))).push (order + n) block)
        (block + blockPages (order + n) * pageSize) := by
  rw [splitLoop, setAllocatedRange_eq]
  rfl

theorem buddyFree_eq (b : Buddy) (m : Memory) (block : Word) (k : Nat) :
    buddyFree b m (buddyOf b block k).2 k =
      (buddyIndices b block k).all fun i => !buddyIsAllocated b m i := by
  rw [buddyIndices, indices, List.all_map]
  rfl

theorem coalesceLoop_succ (n : Nat) (s : MM) (phys : Word) (c : Nat) :
    coalesceLoop (n + 1) s phys c =
      if ((buddyIndices s.buddy phys c).all fun i => !buddyIsAllocated s.buddy s.mem i) = false then
        some (s, phys, c)
      else
        let t := (s.setMem (setBits s.buddy s.mem (buddyIndices s.buddy phys c) false)).addFreeCount
          (blockPages c)
        if t.buddy.freeLists c = 0 then some (t, phys, c)
        else
          (unlink t c (buddyOf s.buddy phys c).1).bind fun t =>
            coalesceLoop n t
              (if (buddyOf s.buddy phys c).1 < phys then (buddyOf s.buddy phys c).1 else phys)
              (c + 1) := by
  rw [coalesceLoop, buddyFree_eq, setAllocatedRange_eq]
  rfl

/-- The end of `free_pages`: the block is put on its list and its bits are
cleared. -/
def insert (order : Nat) (s : MM) (phys : Word) (coalesced : Nat) : MM :=
  ((s.push coalesced phys).setMem (setBits s.buddy (s.push coalesced phys).mem
    (blockIndices s.buddy phys coalesced) false)).addFreeCount
      (blockPages coalesced - blockPages order)

theorem freePages_eq {s : MM} {phys : Word} {order : Nat} (hinit : s.buddy.initialized = true)
    (horder : order < maxOrderBits) (halign : phys % (pageSize * blockPages order) = 0) :
    freePages s phys order =
      (coalesceLoop (maxOrderBits - 1 - order) s phys order).map fun r =>
        insert order r.1 r.2.1 r.2.2 := by
  rw [freePages, if_neg (by simp [hinit]), if_neg (Nat.not_le.mpr horder),
    if_neg (not_not.mpr halign)]
  refine congrArg (Option.map · _) (funext fun r => ?_)
  simp only [setAllocatedRange_eq]
  rfl

end Code

/-- The numbers of the pages of a block, counted from the start of the pool. -/
def pageNumbers (b : Buddy) (block : Word) (k : Nat) : List Word :=
  indices ((block - b.poolStart) / pageSize) (2 ^ k)

/-- The bits used for a block, and those used for its buddy, are those of its
pages. -/
structure AddressedInPages (b : Buddy) (block : Word) (k : Nat) : Prop where
  ofBlock : blockIndices b block k = pageNumbers b block k
  ofBuddy : buddyIndices b block k = pageNumbers b (buddyOf b block k).1 k

theorem indices_inj {first first' : Word} (k : Nat) :
    indices first (2 ^ k) = indices first' (2 ^ k) ↔ first = first' := by
  constructor
  · intro h
    obtain ⟨n, hn⟩ := Nat.exists_eq_succ_of_ne_zero (Nat.two_pow_pos k).ne'
    have hhead := congrArg List.head? h
    rw [indices, indices, hn, List.range_succ_eq_map] at hhead
    simpa using hhead
  · rintro rfl
    rfl

theorem toNat_blockBytes {k : Nat} (hk : k < maxOrderBits) :
    (blockPages k * pageSize).toNat = 2 ^ k * 4096 := by
  have hle := two_pow_le_of_lt hk
  have hpage : pageSize.toNat = 4096 := rfl
  rw [blockPages_eq, BitVec.toNat_mul, BitVec.toNat_ofNat, hpage]
  omega

section Blocks

variable {b : Buddy} {k n : Nat}

theorem buddyPhysToIdx_block (hk : k < maxOrderBits) (hn : n * 2 ^ k * 4096 < 2 ^ 64) :
    buddyPhysToIdx b (b.poolStart + BitVec.ofNat 64 (n * 2 ^ k * 4096)) k = BitVec.ofNat 64 n := by
  apply BitVec.eq_of_toNat_eq
  rw [buddyPhysToIdx, add_ofNat_sub_self, BitVec.toNat_udiv, toNat_blockBytes hk,
    BitVec.toNat_ofNat, BitVec.toNat_ofNat, Nat.mod_eq_of_lt hn, Nat.mul_assoc,
    Nat.mul_div_cancel _ (by positivity)]
  have hle : n ≤ n * 2 ^ k * 4096 := by
    calc
      n ≤ n * (2 ^ k * 4096) := Nat.le_mul_of_pos_right n (by positivity)
      _ = n * 2 ^ k * 4096 := (Nat.mul_assoc _ _ _).symm
  exact (Nat.mod_eq_of_lt (lt_of_le_of_lt hle hn)).symm

theorem page_of_block (hn : n * 2 ^ k * 4096 < 2 ^ 64) :
    (b.poolStart + BitVec.ofNat 64 (n * 2 ^ k * 4096) - b.poolStart) / pageSize =
      BitVec.ofNat 64 (n * 2 ^ k) := by
  have hpage : pageSize.toNat = 4096 := rfl
  apply BitVec.eq_of_toNat_eq
  rw [add_ofNat_sub_self, BitVec.toNat_udiv, hpage, BitVec.toNat_ofNat, BitVec.toNat_ofNat,
    Nat.mod_eq_of_lt hn]
  omega

theorem ofBlock_iff (hk : k < maxOrderBits) (hn : n * 2 ^ k * 4096 < 2 ^ 64) :
    blockIndices b (b.poolStart + BitVec.ofNat 64 (n * 2 ^ k * 4096)) k =
        pageNumbers b (b.poolStart + BitVec.ofNat 64 (n * 2 ^ k * 4096)) k ↔
      k = 0 ∨ n = 0 := by
  rw [blockIndices, pageNumbers, indices_inj, buddyPhysToIdx_block hk hn, page_of_block hn]
  constructor
  · intro h
    have hle : n ≤ n * 2 ^ k := Nat.le_mul_of_pos_right n (Nat.two_pow_pos k)
    have hval := congrArg BitVec.toNat h
    rw [BitVec.toNat_ofNat, BitVec.toNat_ofNat, Nat.mod_eq_of_lt (by omega),
      Nat.mod_eq_of_lt (by omega)] at hval
    by_contra hne
    obtain ⟨hk', hn'⟩ := not_or.mp hne
    have hlt : n * 1 < n * 2 ^ k :=
      Nat.mul_lt_mul_of_pos_left (Nat.one_lt_two_pow hk') (Nat.pos_of_ne_zero hn')
    omega
  · rintro (rfl | rfl)
    · rw [pow_zero, Nat.mul_one]
    · rw [Nat.zero_mul]

theorem ofBuddy_zero (hn : (n + 1) * 4096 < 2 ^ 64) :
    buddyIndices b (b.poolStart + BitVec.ofNat 64 (n * 2 ^ 0 * 4096)) 0 =
      pageNumbers b (buddyOf b (b.poolStart + BitVec.ofNat 64 (n * 2 ^ 0 * 4096)) 0).1 0 := by
  have hfits : ∀ n' ≤ n + 1, n' * 2 ^ 0 * 4096 < 2 ^ 64 := by
    intro n' hn'
    rw [pow_zero, Nat.mul_one]
    exact lt_of_le_of_lt (Nat.mul_le_mul_right _ hn') hn
  have hidx : buddyPhysToIdx b (b.poolStart + BitVec.ofNat 64 (n * 2 ^ 0 * 4096)) 0 =
      BitVec.ofNat 64 n := buddyPhysToIdx_block (by decide) (hfits n (Nat.le_succ n))
  have hbytes : blockPages 0 * pageSize = BitVec.ofNat 64 4096 := by decide
  have hone : blockPages 0 = BitVec.ofNat 64 1 := by decide
  rw [buddyIndices, pageNumbers, indices_inj, buddyOf, hidx]
  split
  · have hpage := page_of_block (b := b) (k := 0) (hfits (n + 1) le_rfl)
    rw [hbytes, hone, add_assoc, ← BitVec.ofNat_add, ← BitVec.ofNat_add]
    rw [pow_zero, Nat.mul_one] at hpage ⊢
    rw [show n * 4096 + 4096 = (n + 1) * 4096 by omega, hpage]
  · rename_i hodd
    obtain ⟨n, rfl⟩ : ∃ n', n = n' + 1 := by
      refine Nat.exists_eq_succ_of_ne_zero ?_
      rintro rfl
      exact hodd rfl
    have hpage := page_of_block (b := b) (k := 0) (hfits n (by omega))
    rw [pow_zero, Nat.mul_one] at hpage ⊢
    rw [hbytes, hone, show (n + 1) * 4096 = n * 4096 + 4096 by omega, BitVec.ofNat_add,
      BitVec.ofNat_add, ← add_assoc, add_sub_cancel_right, add_sub_cancel_right, hpage]

theorem ofBuddy_first (hk : k < maxOrderBits) :
    buddyIndices b (b.poolStart + BitVec.ofNat 64 (0 * 2 ^ k * 4096)) k =
      pageNumbers b (buddyOf b (b.poolStart + BitVec.ofNat 64 (0 * 2 ^ k * 4096)) k).1 k := by
  have hle := two_pow_le_of_lt hk
  have hidx : buddyPhysToIdx b (b.poolStart + BitVec.ofNat 64 (0 * 2 ^ k * 4096)) k =
      BitVec.ofNat 64 0 := buddyPhysToIdx_block hk (by omega)
  have hbytes : blockPages k * pageSize = BitVec.ofNat 64 (2 ^ k * 4096) := by
    apply BitVec.eq_of_toNat_eq
    rw [toNat_blockBytes hk, BitVec.toNat_ofNat]
    omega
  have heven : BitVec.ofNat 64 0 % 2 = (0 : Word) := by decide
  have hpage := page_of_block (b := b) (k := k) (n := 1) (by omega)
  rw [buddyIndices, pageNumbers, indices_inj, buddyOf, hidx, if_pos heven]
  rw [Nat.one_mul] at hpage
  rw [hbytes, Nat.zero_mul, Nat.zero_mul, BitVec.add_zero, hpage, blockPages_eq]
  exact BitVec.zero_add _

/-- The bitmap is addressed in pages at order zero and for the block at the start
of the pool, and nowhere else. -/
theorem addressedInPages_iff (b : Buddy) (k n : Nat) (hk : k < maxOrderBits)
    (hpool : b.poolPages.toNat * 4096 < 2 ^ 64) (hin : (n + 1) * 2 ^ k ≤ b.poolPages.toNat) :
    AddressedInPages b (b.poolStart + BitVec.ofNat 64 (n * 2 ^ k * 4096)) k ↔ k = 0 ∨ n = 0 := by
  have hfits : (n + 1) * 2 ^ k * 4096 < 2 ^ 64 :=
    lt_of_le_of_lt (Nat.mul_le_mul_right _ hin) hpool
  have hn : n * 2 ^ k * 4096 < 2 ^ 64 :=
    lt_of_le_of_lt (Nat.mul_le_mul_right _ (Nat.mul_le_mul_right _ (Nat.le_succ n))) hfits
  constructor
  · intro h
    exact (ofBlock_iff hk hn).mp h.ofBlock
  · intro h
    refine ⟨(ofBlock_iff hk hn).mpr h, ?_⟩
    rcases h with rfl | rfl
    · rw [pow_zero, Nat.mul_one] at hfits
      exact ofBuddy_zero hfits
    · exact ofBuddy_first hk

end Blocks

def fourPages : Buddy where
  poolStart := 0x200000
  poolPages := 4
  bitmap := 0x100000
  bitmapWords := 1
  initialized := true

theorem addressedInPages_fourPages :
    AddressedInPages fourPages (fourPages.poolStart + BitVec.ofNat 64 (0 * 2 ^ 1 * 4096)) 1 :=
  (addressedInPages_iff fourPages 1 0 (by decide) (by decide) (by decide)).mpr (.inr rfl)

/-- The second block of two pages is marked with the bits of pages one and two. -/
theorem not_addressedInPages_fourPages :
    (1 + 1) * 2 ^ 1 ≤ fourPages.poolPages.toNat ∧
      blockIndices fourPages 0x202000 1 = [1, 2] ∧ pageNumbers fourPages 0x202000 1 = [2, 3] ∧
      ¬ AddressedInPages fourPages 0x202000 1 :=
  ⟨by decide, by decide, by decide, fun h => absurd h.ofBlock (by decide)⟩

end ShlteOs.BitmapAddressing
