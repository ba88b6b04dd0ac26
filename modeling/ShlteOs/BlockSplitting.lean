import ShlteOs.BitmapAddressing
import ShlteOs.PageBitmap

/-!
The split loop of `alloc_pages`.  Each turn leaves the left half of what is left
of the block on the list of its order, so the halves and the block that is handed
out tile the block the loop began with.
-/

namespace ShlteOs.BlockSplitting

open ShlteOs.ByteMemory
open ShlteOs.PointerWalk
open ShlteOs.PageAllocator
open ShlteOs.PageAllocatorSteps
open ShlteOs.PageBitmap

section Halves

/-- The half that is left behind at order `k`, in a block of order `found`. -/
def leftHalf (block : Word) (found k : Nat) : Word :=
  block + BitVec.ofNat 64 ((2 ^ found - 2 ^ (k + 1)) * 4096)

/-- What is left of a block after the halves of all orders from `found` down to `order`
are cut off in front. -/
def lastPart (block : Word) (found order : Nat) : Word :=
  block + BitVec.ofNat 64 ((2 ^ found - 2 ^ order) * 4096)

def blockBytes (k : Nat) : Nat := 2 ^ k * 4096

theorem covers_add_iff {base x : Word} {d n : Nat} (h : d + n ≤ 2 ^ 64) :
    Covers (base + BitVec.ofNat 64 d) n x ↔
      d ≤ (x - base).toNat ∧ (x - base).toNat < d + n := by
  simp only [Covers, BitVec.toNat_sub, BitVec.toNat_add, BitVec.toNat_ofNat]
  omega

variable {block x : Word} {found order k : Nat}

theorem blockBytes_le (hfound : found < maxOrderBits) : blockBytes found ≤ 2 ^ 21 := by
  have := two_pow_le_of_lt hfound
  rw [blockBytes]
  omega

theorem two_pow_mono {i j : Nat} (h : i ≤ j) : 2 ^ i ≤ 2 ^ j := Nat.pow_le_pow_right (by decide) h

theorem covers_leftHalf (hfound : found < maxOrderBits) (hk : k < found) :
    Covers (leftHalf block found k) (blockBytes k) x ↔
      (2 ^ found - 2 ^ (k + 1)) * 4096 ≤ (x - block).toNat ∧
        (x - block).toNat < (2 ^ found - 2 ^ k) * 4096 := by
  have hle := two_pow_le_of_lt hfound
  have hmono := two_pow_mono (show k + 1 ≤ found from hk)
  have hend : (2 ^ found - 2 ^ (k + 1)) * 4096 + blockBytes k = (2 ^ found - 2 ^ k) * 4096 := by
    rw [blockBytes]
    rw [pow_succ] at *
    omega
  rw [leftHalf, covers_add_iff, hend]
  rw [hend]
  omega

theorem covers_lastPart (hfound : found < maxOrderBits) (horder : order ≤ found) :
    Covers (lastPart block found order) (blockBytes order) x ↔
      (2 ^ found - 2 ^ order) * 4096 ≤ (x - block).toNat ∧
        (x - block).toNat < blockBytes found := by
  have hle := two_pow_le_of_lt hfound
  have hmono := two_pow_mono horder
  have hend : (2 ^ found - 2 ^ order) * 4096 + blockBytes order = blockBytes found := by
    rw [blockBytes, blockBytes]
    omega
  rw [lastPart, covers_add_iff, hend]
  rw [hend, blockBytes]
  omega

theorem apart_leftHalf {k' : Nat} (hfound : found < maxOrderBits) (hlt : k < k')
    (hk' : k' < found) :
    Apart (leftHalf block found k) (blockBytes k) (leftHalf block found k') (blockBytes k') := by
  have hmono := two_pow_mono (show k + 1 ≤ k' from hlt)
  intro x hx hx'
  have hfirst := ((covers_leftHalf hfound (hlt.trans hk')).mp hx).1
  have hlast := ((covers_leftHalf hfound hk').mp hx').2
  omega

theorem apart_lastPart (hfound : found < maxOrderBits) (horder : order ≤ k) (hk : k < found) :
    Apart (lastPart block found order) (blockBytes order) (leftHalf block found k)
      (blockBytes k) := by
  have hmono := two_pow_mono horder
  intro x hx hx'
  have hfirst := ((covers_lastPart hfound (horder.trans hk.le)).mp hx).1
  have hlast := ((covers_leftHalf hfound hk).mp hx').2
  omega

theorem covers_block_iff (hfound : found < maxOrderBits) (horder : order ≤ found) :
    Covers block (blockBytes found) x ↔
      Covers (lastPart block found order) (blockBytes order) x ∨
        ∃ k, order ≤ k ∧ k < found ∧ Covers (leftHalf block found k) (blockBytes k) x := by
  constructor
  · intro hx
    -- Downwards from the order of the block: the last part splits once more each time.
    induction horder using Nat.decreasingInduction with
    | self =>
        refine .inl ((covers_lastPart hfound le_rfl).mpr ⟨?_, hx⟩)
        rw [Nat.sub_self]
        omega
    | of_succ j hj ih =>
        rcases ih with hlast | ⟨k, hjk, hk, hhalf⟩
        · obtain ⟨hfirst, hend⟩ := (covers_lastPart hfound hj).mp hlast
          rcases Nat.lt_or_ge (x - block).toNat ((2 ^ found - 2 ^ j) * 4096) with hlt | hge
          · exact .inr ⟨j, le_rfl, hj, (covers_leftHalf hfound hj).mpr ⟨hfirst, hlt⟩⟩
          · exact .inl ((covers_lastPart hfound hj.le).mpr ⟨hge, hend⟩)
        · exact .inr ⟨k, by omega, hk, hhalf⟩
  · rintro (hlast | ⟨k, -, hk, hhalf⟩)
    · exact ((covers_lastPart hfound horder).mp hlast).2
    · have hend := ((covers_leftHalf hfound hk).mp hhalf).2
      exact lt_of_lt_of_le hend (Nat.mul_le_mul_right _ (Nat.sub_le _ _))

theorem multiple_of_le (found : Nat) {i j : Nat} (h : i ≤ j) :
    ∃ n, 2 ^ found - 2 ^ j = n * 2 ^ i := by
  obtain ⟨n, hn⟩ : 2 ^ i ∣ 2 ^ found - 2 ^ j := by
    rcases Nat.lt_or_ge found j with hlt | hge
    · rw [Nat.sub_eq_zero_of_le (two_pow_mono hlt.le)]
      exact dvd_zero _
    · exact Nat.dvd_sub (Nat.pow_dvd_pow 2 (h.trans hge)) (Nat.pow_dvd_pow 2 h)
  exact ⟨n, hn.trans (Nat.mul_comm _ _)⟩

theorem leftHalf_self (block : Word) (k : Nat) : leftHalf block (k + 1) k = block := by
  rw [leftHalf, Nat.sub_self]
  exact BitVec.add_zero block

theorem leftHalf_succ (block : Word) (hk : k < found) :
    leftHalf block (found + 1) k =
      leftHalf (block + BitVec.ofNat 64 (blockBytes found)) found k := by
  have hmono := two_pow_mono (show k + 1 ≤ found from hk)
  rw [leftHalf, leftHalf, BitVec.add_assoc, ← BitVec.ofNat_add, blockBytes, ← Nat.add_mul,
    pow_succ 2 found]
  congr 3
  omega

end Halves

section Loop

variable {order k : Nat}

/-- One turn of the split loop. -/
def splitStep (s : MM) (block : Word) (found : Nat) : MM :=
  ((s.setMem (setAllocatedRange s.buddy s.mem
    (buddyPhysToIdx s.buddy (block + blockPages found * pageSize) found) (2 ^ found)
    true)).addFreeCount (-blockPages found)).push found block

theorem splitLoop_succ_eq (n : Nat) (s : MM) (block : Word) (h : order + n < maxOrderBits) :
    splitLoop order (n + 1) s block =
      splitLoop order n (splitStep s block (order + n))
        (block + BitVec.ofNat 64 (blockBytes (order + n))) := by
  have hbytes : blockPages (order + n) * pageSize = BitVec.ofNat 64 (blockBytes (order + n)) := by
    apply BitVec.eq_of_toNat_eq
    rw [BitmapAddressing.toNat_blockBytes h, BitVec.toNat_ofNat, Nat.mod_eq_of_lt]
    · rfl
    · exact lt_of_le_of_lt (blockBytes_le h) (by decide)
  rw [← hbytes]
  rfl

theorem splitStep_mem_of_not_covers {s : MM} {block x : Word} (found : Nat)
    (hwords : s.buddy.bitmapWords.toNat * 8 ≤ 2 ^ 64) (hx : ¬ InBitmap s.buddy x)
    (hblock : ¬ Covers block 8 x) : (splitStep s block found).mem x = s.mem x :=
  (store_of_not_covers hblock).trans (setAllocatedRange_of_not_inBitmap hwords hx)

theorem load_splitStep (s : MM) (block : Word) (found : Nat) :
    load (splitStep s block found).mem block = s.buddy.freeLists found :=
  load_store_same _ _ _

theorem splitStep_freeLists_self (s : MM) (block : Word) (found : Nat) :
    (splitStep s block found).buddy.freeLists found = block :=
  Function.update_self _ _ _

theorem splitStep_freeLists_of_ne {found : Nat} (s : MM) (block : Word) (hne : k ≠ found) :
    (splitStep s block found).buddy.freeLists k = s.buddy.freeLists k :=
  Function.update_of_ne hne _ _

theorem covers_right {block x : Word} {found : Nat} (h : found + 1 < maxOrderBits)
    (hx : Covers (block + BitVec.ofNat 64 (blockBytes found)) (blockBytes found) x) :
    Covers block (blockBytes (found + 1)) x ∧ ¬ Covers block (blockBytes found) x := by
  have hle := blockBytes_le h
  have hdouble : blockBytes (found + 1) = blockBytes found + blockBytes found := by
    rw [blockBytes, blockBytes, pow_succ]
    omega
  obtain ⟨hfirst, hlast⟩ := (covers_add_iff (by omega)).mp hx
  rw [Covers, Covers, hdouble]
  exact ⟨hlast, Nat.not_lt.mpr hfirst⟩

theorem covers_link {block x : Word} (k : Nat) (hx : Covers block 8 x) :
    Covers block (blockBytes k) x := by
  have hpos := Nat.two_pow_pos k
  rw [Covers, blockBytes] at *
  omega

theorem splitLoop_mem {n : Nat} {s : MM} {block x : Word} (h : order + n < maxOrderBits)
    (hwords : s.buddy.bitmapWords.toNat * 8 ≤ 2 ^ 64) (hx : ¬ InBitmap s.buddy x)
    (hblock : ¬ Covers block (blockBytes (order + n)) x) :
    (splitLoop order n s block).1.mem x = s.mem x := by
  induction n generalizing s block with
  | zero => rfl
  | succ n ih =>
      have hstep := splitStep_mem_of_not_covers (order + n) hwords hx
        fun hc => hblock (covers_link _ hc)
      rw [splitLoop_succ_eq n s block (by omega), ← hstep]
      exact ih (by omega) hwords hx fun hc => hblock (covers_right h hc).1

theorem splitLoop_freeLists_of_not_between {n : Nat} {s : MM} {block : Word}
    (h : order + n < maxOrderBits) (hk : k < order ∨ order + n ≤ k) :
    (splitLoop order n s block).1.buddy.freeLists k = s.buddy.freeLists k := by
  induction n generalizing s block with
  | zero => rfl
  | succ n ih =>
      rw [splitLoop_succ_eq n s block (by omega), ih (by omega) (by omega),
        splitStep_freeLists_of_ne s block (by omega)]

theorem splitLoop_head {n : Nat} {s : MM} {block : Word} (h : order + n < maxOrderBits)
    (hwords : s.buddy.bitmapWords.toNat * 8 ≤ 2 ^ 64)
    (hapart : ∀ x, Covers block (blockBytes (order + n)) x → ¬ InBitmap s.buddy x)
    (hle : order ≤ k) (hlt : k < order + n) :
    (splitLoop order n s block).1.buddy.freeLists k = leftHalf block (order + n) k ∧
      load (splitLoop order n s block).1.mem (leftHalf block (order + n) k) =
        s.buddy.freeLists k := by
  induction n generalizing s block with
  | zero => omega
  | succ n ih =>
      rw [splitLoop_succ_eq n s block (by omega)]
      rcases Nat.lt_or_ge k (order + n) with hbelow | habove
      · rw [show order + (n + 1) = order + n + 1 by omega, leftHalf_succ block hbelow,
          ← splitStep_freeLists_of_ne s block (show k ≠ order + n by omega)]
        exact ih (by omega) hwords (fun x hx => hapart x (covers_right h hx).1) hbelow
      · obtain rfl : k = order + n := by omega
        rw [show order + (n + 1) = order + n + 1 by omega, leftHalf_self,
          splitLoop_freeLists_of_not_between (by omega) (.inr le_rfl)]
        refine ⟨splitStep_freeLists_self s block _, ?_⟩
        rw [← load_splitStep s block (order + n)]
        refine load_congr fun x hx => splitLoop_mem (by omega) hwords ?_ ?_
        · exact hapart x (covers_link _ hx)
        · exact fun hc => (covers_right h hc).2 (covers_link _ hx)

end Loop

/-- The block has been cut into one listed block for each order from `order` up
to `found` and the block that is handed out. -/
structure Tiled (s : MM) (block : Word) (found order : Nat) (result : Word)
    (half : Nat → Word) : Prop where
  listed : ∀ k, order ≤ k → k < found → Chain (load s.mem) 0 (s.buddy.freeLists k) [half k]
  apart : ∀ k, order ≤ k → k < found → ∀ k', order ≤ k' → k' < found → k ≠ k' →
    Apart (half k) (blockBytes k) (half k') (blockBytes k')
  apartResult : ∀ k, order ≤ k → k < found →
    Apart result (blockBytes order) (half k) (blockBytes k)
  union : ∀ x, Covers block (blockBytes found) x ↔ Covers result (blockBytes order) x ∨
    ∃ k, order ≤ k ∧ k < found ∧ Covers (half k) (blockBytes k) x
  aligned : ∀ k, order ≤ k → k < found →
    ∃ n, half k = block + BitVec.ofNat 64 (n * 2 ^ k * 4096)
  alignedResult : ∃ n, result = block + BitVec.ofNat 64 (n * 2 ^ order * 4096)

theorem leftHalf_ne_zero {block : Word} {found k : Nat} (hne : block ≠ 0)
    (hfit : block.toNat + blockBytes found ≤ 2 ^ 64) : leftHalf block found k ≠ 0 := by
  intro hzero
  have hval := congrArg BitVec.toNat hzero
  have hpos : block.toNat ≠ 0 := fun h => hne (BitVec.eq_of_toNat_eq h)
  have hpow := Nat.two_pow_pos found
  have hpow' := Nat.two_pow_pos (k + 1)
  have hzero' : (0 : Word).toNat = 0 := rfl
  rw [leftHalf, BitVec.toNat_add, BitVec.toNat_ofNat, hzero'] at hval
  rw [blockBytes] at hfit
  omega

/-- `alloc_pages` tiles the block it has found, wherever it lies, as long as the
bitmap is elsewhere. -/
theorem allocPages_tiled (s : MM) (order found : Nat) (hfinds : Finds s order found)
    (hne : secondNode s found ≠ 0)
    (hfit : (secondNode s found).toNat + blockBytes found ≤ 2 ^ 64)
    (hwords : s.buddy.bitmapWords.toNat * 8 ≤ 2 ^ 64)
    (hapart : ∀ x, Covers (secondNode s found) (blockBytes found) x → ¬ InBitmap s.buddy x) :
    ∃ result s' half, allocPages s order = (some result, s') ∧
      Tiled s' (secondNode s found) found order result half := by
  have hle := hfinds.order_le
  have hlt := hfinds.found_lt
  have hback : order + (found - order) = found := by omega
  refine ⟨_, _, leftHalf (secondNode s found) found, allocPages_of_finds hfinds, ?_⟩
  rw [splitLoop_block, hback]
  refine ⟨?_, ?_, ?_, ?_, ?_, ?_⟩
  · intro k hk hk'
    have hempty : s.buddy.freeLists k = 0 :=
      (searchOrder_eq_some_iff.mp hfinds.2.2.2).2.2.2 k hk hk'
    have hpop : (popBlock s found).buddy.freeLists k = s.buddy.freeLists k :=
      Function.update_of_ne (by omega) _ _
    have hpart : ∀ x, Covers (secondNode s found) (blockBytes (order + (found - order))) x →
        ¬ InBitmap (popBlock s found).buddy x := by rwa [hback]
    obtain ⟨hhead, hlink⟩ :=
      splitLoop_head (s := popBlock s found) (by omega) hwords hpart hk (by omega)
    rw [hback] at hhead hlink
    rw [hhead]
    refine .cons (leftHalf_ne_zero hne hfit) ?_
    rw [hlink, hpop, hempty]
    exact .nil
  · intro k _ hk k' _ hk' hkk
    rcases Nat.lt_or_gt_of_ne hkk with hbelow | habove
    · exact apart_leftHalf hlt hbelow hk'
    · exact (apart_leftHalf hlt habove hk).symm
  · exact fun k hk hk' => apart_lastPart hlt hk hk'
  · exact fun x => covers_block_iff hlt hle
  · intro k _ _
    obtain ⟨n, hn⟩ := multiple_of_le found (Nat.le_succ k)
    exact ⟨n, by rw [leftHalf, hn]⟩
  · obtain ⟨n, hn⟩ := multiple_of_le found (le_refl order)
    exact ⟨n, by rw [hn]⟩

/-- Two blocks of two pages on one list. -/
def twoBlocks : MM where
  mem := store (fun _ => 0) 0x200000 0x202000
  buddy :=
    { poolStart := 0x200000
      poolPages := 4
      bitmap := 0x100000
      bitmapWords := 1
      freeLists := fun k => if k = 1 then 0x200000 else 0
      freeCount := 4
      initialized := true }

theorem secondNode_twoBlocks : secondNode twoBlocks 1 = 0x202000 := load_store_same _ _ _

theorem allocPages_tiled_twoBlocks : ∃ result s' half,
    allocPages twoBlocks 0 = (some result, s') ∧ Tiled s' 0x202000 1 0 result half := by
  have hfinds : Finds twoBlocks 0 1 := ⟨rfl, by decide, by decide, by decide⟩
  rw [← secondNode_twoBlocks]
  refine allocPages_tiled twoBlocks 0 1 hfinds ?_ ?_ (by decide) ?_
  · rw [secondNode_twoBlocks]
    decide
  · rw [secondNode_twoBlocks]
    decide
  · rw [secondNode_twoBlocks]
    have hbitmap : Apart 0x202000 (blockBytes 1) 0x100000 8 :=
      apart_of_le_sub (by decide) (by decide)
    exact hbitmap

end ShlteOs.BlockSplitting
