import Mathlib.Data.List.Range
import ShlteOs.PageAllocator

/-!
What one call of the page allocator can do.  Each lemma describes a loop or a
whole call by its effect on the fields later proofs look at, so that those
proofs never unfold the code again.
-/

namespace ShlteOs.PageAllocatorSteps

open ShlteOs.ByteMemory
open ShlteOs.PointerWalk
open ShlteOs.PageAllocator

/-- The fields of the record that no call behind `mm_init` changes. -/
def pool (s : MM) : Word × Word × Bool :=
  (s.buddy.poolStart, s.buddy.poolPages, s.buddy.initialized)

@[simp] theorem pool_setFreeList (s : MM) (k : Nat) (node : Word) :
    pool (s.setFreeList k node) = pool s := rfl

@[simp] theorem pool_addFreeCount (s : MM) (n : Word) :
    pool (s.addFreeCount n) = pool s := rfl

@[simp] theorem pool_setMem (s : MM) (m : Memory) : pool (s.setMem m) = pool s := rfl

@[simp] theorem pool_push (s : MM) (k : Nat) (node : Word) :
    pool (s.push k node) = pool s := rfl

@[simp] theorem freeCount_setFreeList (s : MM) (k : Nat) (node : Word) :
    (s.setFreeList k node).buddy.freeCount = s.buddy.freeCount := rfl

@[simp] theorem freeCount_addFreeCount (s : MM) (n : Word) :
    (s.addFreeCount n).buddy.freeCount = s.buddy.freeCount + n := rfl

@[simp] theorem freeCount_setMem (s : MM) (m : Memory) :
    (s.setMem m).buddy.freeCount = s.buddy.freeCount := rfl

@[simp] theorem freeCount_push (s : MM) (k : Nat) (node : Word) :
    (s.push k node).buddy.freeCount = s.buddy.freeCount := rfl

theorem blockPages_eq (order : Nat) : blockPages order = BitVec.ofNat 64 (2 ^ order) := by
  apply BitVec.eq_of_toNat_eq
  rw [blockPages, BitVec.toNat_shiftLeft, BitVec.toNat_ofNat]
  simp [Nat.shiftLeft_eq]

theorem two_pow_le_of_lt {k : Nat} (h : k < maxOrderBits) : 2 ^ k ≤ 512 := by
  have hk : k ≤ 9 := by
    unfold maxOrderBits at h
    omega
  calc
    2 ^ k ≤ 2 ^ 9 := Nat.pow_le_pow_right (by decide) hk
    _ = 512 := by decide

theorem searchOrder_eq_some_iff {freeLists : Nat → Word} {order found : Nat} :
    searchOrder freeLists order = some found ↔
      freeLists found ≠ 0 ∧ order ≤ found ∧ found < maxOrderBits ∧
        ∀ k, order ≤ k → k < found → freeLists k = 0 := by
  rw [searchOrder, List.find?_range'_eq_some, List.mem_range'_1]
  simp only [bne_iff_ne, Bool.not_eq_true', bne_eq_false_iff_eq]
  constructor
  · rintro ⟨hne, hmem, hbefore⟩
    exact ⟨hne, hmem.1, by omega, hbefore⟩
  · rintro ⟨hne, hle, hlt, hbefore⟩
    exact ⟨hne, ⟨hle, by omega⟩, hbefore⟩

/-- Splitting hands out the end of the block: the halves of all orders passed
lie before it. -/
theorem splitLoop_block (order n : Nat) (s : MM) (block : Word) :
    (splitLoop order n s block).2 =
      block + BitVec.ofNat 64 ((2 ^ (order + n) - 2 ^ order) * 4096) := by
  induction n generalizing s block with
  | zero => simp [splitLoop]
  | succ n ih =>
      simp only [splitLoop, ih, blockPages_eq, pageSize]
      have hmono : 2 ^ order ≤ 2 ^ (order + n) :=
        Nat.pow_le_pow_right (by decide) (by omega)
      have hsum : 2 ^ (order + n) * 4096 + (2 ^ (order + n) - 2 ^ order) * 4096 =
          (2 ^ (order + (n + 1)) - 2 ^ order) * 4096 := by
        rw [show order + (n + 1) = order + n + 1 by omega, pow_succ]
        omega
      rw [BitVec.add_assoc, BitVec.ofNat_eq_ofNat, ← BitVec.ofNat_mul, ← BitVec.ofNat_add,
        hsum]

theorem splitLoop_freeCount (order n : Nat) (s : MM) (block : Word) :
    (splitLoop order n s block).1.buddy.freeCount =
      s.buddy.freeCount - BitVec.ofNat 64 (2 ^ (order + n) - 2 ^ order) := by
  induction n generalizing s block with
  | zero => simp [splitLoop]
  | succ n ih =>
      simp only [splitLoop, ih, blockPages_eq, freeCount_push, freeCount_addFreeCount,
        freeCount_setMem]
      have hmono : 2 ^ order ≤ 2 ^ (order + n) :=
        Nat.pow_le_pow_right (by decide) (by omega)
      have hsum : 2 ^ (order + (n + 1)) - 2 ^ order =
          2 ^ (order + n) + (2 ^ (order + n) - 2 ^ order) := by
        rw [show order + (n + 1) = order + n + 1 by omega, pow_succ]
        omega
      rw [hsum, BitVec.ofNat_add]
      bv_omega

theorem splitLoop_pool (order n : Nat) (s : MM) (block : Word) :
    pool (splitLoop order n s block).1 = pool s := by
  induction n generalizing s block with
  | zero => rfl
  | succ n ih => simp [splitLoop, ih]

/-- The list `alloc_pages` would take its block from: the tests in front of the
scan pass and the scan stops at this order. -/
def Finds (s : MM) (order found : Nat) : Prop :=
  s.buddy.initialized = true ∧ order < maxOrderBits ∧
    ¬ (order = 0 ∧ s.buddy.poolPages = 0) ∧
    searchOrder s.buddy.freeLists order = some found

theorem Finds.order_le {s : MM} {order found : Nat} (h : Finds s order found) :
    order ≤ found :=
  (searchOrder_eq_some_iff.mp h.2.2.2).2.1

theorem Finds.found_lt {s : MM} {order found : Nat} (h : Finds s order found) :
    found < maxOrderBits :=
  (searchOrder_eq_some_iff.mp h.2.2.2).2.2.1

theorem Finds.eq_zero_of_head {s : MM} {found : Nat} (h : Finds s 0 found)
    (hhead : s.buddy.freeLists 0 ≠ 0) : found = 0 := by
  by_contra hne
  obtain ⟨-, -, -, hbefore⟩ := searchOrder_eq_some_iff.mp h.2.2.2
  exact hhead (hbefore 0 le_rfl (Nat.pos_of_ne_zero hne))

theorem allocPages_of_finds {s : MM} {order found : Nat} (h : Finds s order found) :
    allocPages s order =
      (some (splitLoop order (found - order) (popBlock s found) (secondNode s found)).2,
        (splitLoop order (found - order) (popBlock s found) (secondNode s found)).1) := by
  obtain ⟨hinit, horder, hempty, hsearch⟩ := h
  have hinit' : ¬ s.buddy.initialized = false := by simp [hinit]
  rw [allocPages, if_neg hinit', if_neg (by omega), if_neg hempty, hsearch]

theorem allocPages_of_not_finds {s : MM} {order : Nat} (h : ∀ found, ¬ Finds s order found) :
    allocPages s order = (none, s) := by
  rw [allocPages]
  split
  · rfl
  · split
    · rfl
    · split
      · rfl
      · rename_i hinit horder hempty
        cases hsearch : searchOrder s.buddy.freeLists order with
        | none => rfl
        | some found =>
            exact absurd ⟨by simpa using hinit, by omega, hempty, hsearch⟩ (h found)

/-- A call of `alloc_pages` either fails and changes nothing, or finds a list
and hands out the end of the block behind that list's head. -/
theorem allocPages_cases (s : MM) (order : Nat) :
    (allocPages s order = (none, s) ∧ ∀ found, ¬ Finds s order found) ∨
      ∃ found s', Finds s order found ∧
        allocPages s order =
          (some (secondNode s found +
            BitVec.ofNat 64 ((2 ^ found - 2 ^ order) * 4096)), s') ∧
        s'.buddy.freeCount = s.buddy.freeCount -
          BitVec.ofNat 64 (2 ^ found + (2 ^ found - 2 ^ order)) ∧
        pool s' = pool s := by
  by_cases hfinds : ∃ found, Finds s order found
  · obtain ⟨found, hfound⟩ := hfinds
    have hback : order + (found - order) = found := by
      have := hfound.order_le
      omega
    refine .inr ⟨found,
      (splitLoop order (found - order) (popBlock s found) (secondNode s found)).1,
      hfound, ?_, ?_, ?_⟩
    · rw [allocPages_of_finds hfound, splitLoop_block, hback]
    · rw [splitLoop_freeCount, hback, popBlock, freeCount_addFreeCount, freeCount_setMem,
        freeCount_setFreeList, blockPages_eq, BitVec.ofNat_add]
      bv_omega
    · rw [splitLoop_pool]
      rfl
  · have hnone : ∀ found, ¬ Finds s order found := fun found h => hfinds ⟨found, h⟩
    exact .inl ⟨allocPages_of_not_finds hnone, hnone⟩

theorem buddySetAllocated_of_not_covers {b : Buddy} {m : Memory} {pageIdx x : Word}
    {allocated : Bool} (hwords : b.bitmapWords.toNat * 8 ≤ 2 ^ 64)
    (h : ¬ Covers b.bitmap (b.bitmapWords.toNat * 8) x) :
    buddySetAllocated b m pageIdx allocated x = m x := by
  rw [buddySetAllocated]
  split
  · rfl
  · rename_i hidx
    have hlt : (pageIdx / 64).toNat < b.bitmapWords.toNat := by
      simpa [BitVec.le_def] using hidx
    have height : (8 : Word).toNat = 8 := rfl
    have hslot : ¬ Covers (b.bitmap + pageIdx / 64 * 8) 8 x := by
      generalize pageIdx / 64 = w at *
      simp only [Covers, BitVec.toNat_sub, BitVec.toNat_add, BitVec.toNat_mul, height] at *
      omega
    split
    · exact store_of_not_covers hslot
    · exact store_of_not_covers hslot

theorem allocPages_zero {s : MM} (hinit : s.buddy.initialized = true)
    (hpages : s.buddy.poolPages ≠ 0) (hhead : s.buddy.freeLists 0 ≠ 0) :
    allocPages s 0 = (some (secondNode s 0), popBlock s 0) := by
  have hsearch : searchOrder s.buddy.freeLists 0 = some 0 :=
    searchOrder_eq_some_iff.mpr ⟨hhead, le_rfl, by decide, by omega⟩
  exact allocPages_of_finds ⟨hinit, by decide, fun h => hpages h.2, hsearch⟩

@[simp] theorem popBlock_freeLists_self (s : MM) (found : Nat) :
    (popBlock s found).buddy.freeLists found = secondNode s found := by
  simp [popBlock, MM.setFreeList, MM.setMem, MM.addFreeCount]

theorem load_popBlock_zero {s : MM} {a : Word}
    (hwords : s.buddy.bitmapWords.toNat * 8 ≤ 2 ^ 64)
    (hapart : Apart a 8 s.buddy.bitmap (s.buddy.bitmapWords.toNat * 8)) :
    load (popBlock s 0).mem a = load s.mem a :=
  load_congr fun x hx => buddySetAllocated_of_not_covers hwords (hapart x hx)

theorem unlink_keeps {s s' : MM} {order : Nat} {target : Word}
    (h : unlink s order target = some s') :
    s'.buddy.freeCount = s.buddy.freeCount ∧ pool s' = pool s := by
  obtain ⟨p, -, rfl⟩ := Option.map_eq_some_iff.mp h
  split
  · exact ⟨rfl, rfl⟩
  · split
    · exact ⟨rfl, rfl⟩
    · exact ⟨rfl, rfl⟩

/-- The bitmap shows the buddy of a block as free although the list of that
order is empty: coalescing counts the buddy's pages and then gives up. -/
def BuddyUnlisted (s : MM) (phys : Word) (order : Nat) : Prop :=
  buddyFree s.buddy s.mem (buddyOf s.buddy phys order).2 order = true ∧
    s.buddy.freeLists order = 0

theorem coalesceLoop_of_buddyUnlisted {s : MM} {phys : Word} {order : Nat} (n : Nat)
    (h : BuddyUnlisted s phys order) :
    ∃ s', coalesceLoop (n + 1) s phys order = some (s', phys, order) ∧
      s'.buddy.freeCount = s.buddy.freeCount + blockPages order ∧ pool s' = pool s := by
  obtain ⟨hfree, hempty⟩ := h
  let cleared := setAllocatedRange s.buddy s.mem (buddyOf s.buddy phys order).2
    (2 ^ order) false
  refine ⟨(s.setMem cleared).addFreeCount (blockPages order), ?_, rfl, rfl⟩
  have hempty' : ((s.setMem cleared).addFreeCount (blockPages order)).buddy.freeLists order = 0 :=
    hempty
  simp only [coalesceLoop, hfree, Bool.true_eq_false, if_false]
  rw [if_pos hempty']

/-- The orders coalescing can end at, and what it has added to the count by
then: the pages of every buddy it merged with, and those of the last one when
it gave up on an empty list. -/
theorem coalesceLoop_freeCount {n : Nat} {s s' : MM} {phys phys' : Word} {c c' : Nat}
    (h : coalesceLoop n s phys c = some (s', phys', c')) :
    c ≤ c' ∧ c' ≤ c + n ∧ pool s' = pool s ∧
      ∃ extra, s'.buddy.freeCount =
          s.buddy.freeCount + BitVec.ofNat 64 (2 ^ c' - 2 ^ c + extra) ∧
        (extra = 0 ∨ extra = 2 ^ c' ∧ (c' = c → 0 < n ∧ BuddyUnlisted s phys c)) := by
  induction n generalizing s phys c with
  | zero =>
      cases h
      exact ⟨le_rfl, by omega, rfl, 0, by simp, .inl rfl⟩
  | succ n ih =>
      simp only [coalesceLoop] at h
      split at h
      · cases h
        exact ⟨le_rfl, by omega, rfl, 0, by simp, .inl rfl⟩
      rename_i hfree
      split at h
      · rename_i hempty
        cases h
        refine ⟨le_rfl, by omega, rfl, 2 ^ c', ?_, .inr ⟨rfl, fun _ => ⟨by omega, ?_, hempty⟩⟩⟩
        · simp [blockPages_eq]
        · simpa using hfree
      · obtain ⟨t, ht, htail⟩ := Option.bind_eq_some_iff.mp h
        obtain ⟨hcount, hpool⟩ := unlink_keeps ht
        obtain ⟨hle, hub, hpool', extra, hcount', hextra⟩ := ih htail
        have hdouble : 2 ^ (c + 1) ≤ 2 ^ c' := Nat.pow_le_pow_right (by decide) hle
        rw [pow_succ] at hdouble
        refine ⟨by omega, by omega, hpool'.trans hpool, extra, ?_, ?_⟩
        · have hsum : 2 ^ c' - 2 ^ c + extra = 2 ^ c + (2 ^ c' - 2 ^ (c + 1) + extra) := by
            rw [pow_succ]
            omega
          rw [hcount', hcount, hsum, BitVec.ofNat_add (2 ^ c)]
          simp only [freeCount_addFreeCount, freeCount_setMem, blockPages_eq,
            BitVec.add_assoc]
        · rcases hextra with hzero | ⟨hextra, -⟩
          · exact .inl hzero
          · exact .inr ⟨hextra, fun heq => by omega⟩

/-- The one way in which `free_pages` adds exactly the pages of the freed block
to the count. -/
def FreeCountsOnce (s : MM) (phys : Word) (order : Nat) : Prop :=
  phys % (pageSize * blockPages order) = 0 ∧ order < maxOrderBits - 1 ∧
    BuddyUnlisted s phys order

theorem freePages_of_countsOnce {s : MM} {phys : Word} {order : Nat}
    (hinit : s.buddy.initialized = true) (h : FreeCountsOnce s phys order) :
    ∃ s', freePages s phys order = some s' ∧
      s'.buddy.freeCount = s.buddy.freeCount + BitVec.ofNat 64 (2 ^ order) ∧
      pool s' = pool s := by
  obtain ⟨halign, horder, hunlisted⟩ := h
  obtain ⟨t, ht, hcount, hpool⟩ :=
    coalesceLoop_of_buddyUnlisted (maxOrderBits - 1 - order - 1) hunlisted
  rw [show maxOrderBits - 1 - order - 1 + 1 = maxOrderBits - 1 - order by omega] at ht
  have hlt : ¬ maxOrderBits ≤ order := by omega
  refine ⟨_, by simp [freePages, hinit, hlt, halign, ht]; rfl, ?_, ?_⟩
  · simp [hcount, blockPages_eq]
  · simp [hpool]

theorem freePages_of_not_countsOnce {s s' : MM} {phys : Word} {order : Nat}
    (hinit : s.buddy.initialized = true) (horder : order < maxOrderBits)
    (h : ¬ FreeCountsOnce s phys order) (hfree : freePages s phys order = some s') :
    pool s' = pool s ∧ ∃ d, d < 4096 ∧ d ≠ 2 ^ order ∧
      s'.buddy.freeCount = s.buddy.freeCount + BitVec.ofNat 64 d := by
  have hlt : ¬ maxOrderBits ≤ order := by omega
  have hpos : 0 < 2 ^ order := by positivity
  rw [freePages, if_neg (by simp [hinit]), if_neg hlt] at hfree
  split at hfree
  · cases hfree
    exact ⟨rfl, 0, by omega, by omega, by simp⟩
  · rename_i halign
    obtain ⟨⟨t, phys', c'⟩, ht, rfl⟩ := Option.map_eq_some_iff.mp hfree
    obtain ⟨hle, hub, hpool, extra, hcount, hextra⟩ := coalesceLoop_freeCount ht
    have hc' : 2 ^ c' ≤ 512 := two_pow_le_of_lt (by omega)
    have hmono : 2 ^ order ≤ 2 ^ c' := Nat.pow_le_pow_right (by decide) hle
    have hsub : blockPages c' - blockPages order = BitVec.ofNat 64 (2 ^ c' - 2 ^ order) := by
      rw [blockPages_eq, blockPages_eq]
      apply BitVec.eq_of_toNat_eq
      simp only [BitVec.toNat_sub, BitVec.toNat_ofNat]
      omega
    refine ⟨by simpa using hpool, 2 ^ c' - 2 ^ order + extra + (2 ^ c' - 2 ^ order), ?_, ?_, ?_⟩
    · omega
    · rcases Nat.eq_or_lt_of_le hle with heq | hlt'
      · rcases hextra with hzero | ⟨-, hunlisted⟩
        · rw [← heq]
          omega
        · obtain ⟨hn, hlist⟩ := hunlisted heq.symm
          exact absurd ⟨by simpa using halign, by omega, hlist⟩ h
      · have hdouble : 2 ^ (order + 1) ≤ 2 ^ c' := Nat.pow_le_pow_right (by decide) hlt'
        rw [pow_succ] at hdouble
        omega
    · simp only [freeCount_addFreeCount, freeCount_setMem, freeCount_push, hcount, hsub,
        BitVec.add_assoc, ← BitVec.ofNat_add]

end ShlteOs.PageAllocatorSteps
