import Mathlib.Data.Finset.Card
import Mathlib.Data.Finset.Union
import ShlteOs.PageBitmap

/-!
What a state of the page allocator stands for: a set of free pages, cut into
blocks that are kept on one list for each order.  `alloc_pages` takes the block
behind the head of a list, leaves that block on the list, and subtracts the
pages it splits off twice; in no state does it do what it is for.
-/

namespace ShlteOs.BuddyRepresentation

open ShlteOs.ByteMemory
open ShlteOs.PointerWalk
open ShlteOs.PageAllocator
open ShlteOs.PageAllocatorSteps
open ShlteOs.PageBitmap

/-- The pages of a block, by their addresses. -/
def pages (block : Word) (k : Nat) : Finset Word :=
  (Finset.range (2 ^ k)).image fun i => block + BitVec.ofNat 64 (i * 4096)

/-- The pages of all blocks on the lists. -/
def listed (lists : Nat → List Word) : Finset Word :=
  (Finset.range maxOrderBits).biUnion fun k => (lists k).toFinset.biUnion fun block => pages block k

/-- A block of `2 ^ k` pages, aligned relative to the start of the pool and inside
of it. -/
def InPool (b : Buddy) (block : Word) (k : Nat) : Prop :=
  ∃ n, block = b.poolStart + BitVec.ofNat 64 (n * 2 ^ k * 4096) ∧
    (n + 1) * 2 ^ k ≤ b.poolPages.toNat

/-- The address of the page with a number. -/
def pageAt (b : Buddy) (p : Nat) : Word := b.poolStart + BitVec.ofNat 64 (p * 4096)

/-- The lists hold these blocks, and bitmap and count agree with them. -/
structure Represents (s : MM) (lists : Nat → List Word) : Prop where
  initialized : s.buddy.initialized = true
  chain : ∀ k < maxOrderBits, Chain (load s.mem) 0 (s.buddy.freeLists k) (lists k)
  inPool : ∀ k < maxOrderBits, ∀ block ∈ lists k, InPool s.buddy block k
  disjoint : ∀ k < maxOrderBits, ∀ block ∈ lists k, ∀ k' < maxOrderBits, ∀ block' ∈ lists k',
    (block, k) ≠ (block', k') → Disjoint (pages block k) (pages block' k')
  marked : ∀ p < s.buddy.poolPages.toNat,
    buddyIsAllocated s.buddy s.mem (BitVec.ofNat 64 p) = false ↔ pageAt s.buddy p ∈ listed lists
  counted : s.buddy.freeCount.toNat = (listed lists).card

/-- `alloc_pages` succeeds, hands out pages that were listed, and takes exactly
these off the lists. -/
def Conserves (s : MM) (lists : Nat → List Word) (order : Nat) : Prop :=
  ∃ a s' lists', allocPages s order = (some a, s') ∧ a ≠ 0 ∧
    pages a order ⊆ listed lists ∧
    Represents s' lists' ∧ listed lists' = listed lists \ pages a order

theorem mem_pages {block x : Word} {k : Nat} :
    x ∈ pages block k ↔ ∃ i < 2 ^ k, block + BitVec.ofNat 64 (i * 4096) = x := by
  simp only [pages, Finset.mem_image, Finset.mem_range]

theorem self_mem_pages (block : Word) (k : Nat) : block ∈ pages block k :=
  mem_pages.mpr ⟨0, Nat.two_pow_pos k, by simp⟩

theorem mem_listed {lists : Nat → List Word} {x : Word} :
    x ∈ listed lists ↔ ∃ k < maxOrderBits, ∃ block ∈ lists k, x ∈ pages block k := by
  simp only [listed, Finset.mem_biUnion, Finset.mem_range, List.mem_toFinset]

theorem card_pages (block : Word) {k : Nat} (hk : k < maxOrderBits) :
    (pages block k).card = 2 ^ k := by
  have hle := two_pow_le_of_lt hk
  rw [pages, Finset.card_image_of_injOn, Finset.card_range]
  intro i hi j hj heq
  rw [Finset.coe_range, Set.mem_Iio] at hi hj
  have hval := congrArg BitVec.toNat (add_left_cancel heq)
  rw [BitVec.toNat_ofNat, BitVec.toNat_ofNat] at hval
  omega

theorem found_eq_of_counts {s s' : MM} {lists lists' : Nat → List Word} {order found : Nat}
    {a : Word} (h : Represents s lists) (h' : Represents s' lists') (hle : order ≤ found)
    (hfound : found < maxOrderBits) (hsub : pages a order ⊆ listed lists)
    (hlisted : listed lists' = listed lists \ pages a order)
    (hcount : s'.buddy.freeCount =
      s.buddy.freeCount - BitVec.ofNat 64 (2 ^ found + (2 ^ found - 2 ^ order))) :
    found = order := by
  have hcard : (listed lists').card = (listed lists).card - 2 ^ order := by
    rw [hlisted, Finset.card_sdiff_of_subset hsub, card_pages a (by omega)]
  have hlt := s.buddy.freeCount.isLt
  have hfits : 2 ^ order ≤ (listed lists).card := by
    rw [← card_pages a (show order < maxOrderBits by omega)]
    exact Finset.card_le_card hsub
  have hval := congrArg BitVec.toNat hcount
  rw [BitVec.toNat_sub, BitVec.toNat_ofNat, h'.counted, h.counted, hcard] at hval
  rw [h.counted] at hlt
  have hsmall := two_pow_le_of_lt hfound
  have hmono : 2 ^ order ≤ 2 ^ found := Nat.pow_le_pow_right (by decide) hle
  have hpow : 2 ^ found = 2 ^ order := by
    generalize 2 ^ found = x at *
    generalize 2 ^ order = y at *
    omega
  exact Nat.pow_right_injective (le_refl 2) hpow

/-- `alloc_pages` meets its purpose in no state: a block of the requested order
stays on its list, and after a split the count is wrong. -/
theorem not_conserves (s : MM) (lists : Nat → List Word) (order : Nat)
    (h : Represents s lists) : ¬ Conserves s lists order := by
  rintro ⟨a, s', lists', halloc, hne, hsub, h', hlisted⟩
  rcases allocPages_cases s order with ⟨hnone, -⟩ | ⟨found, t, hfinds, heq, hcount, -⟩
  · rw [hnone] at halloc
    cases halloc
  · obtain rfl : s' = t := congrArg Prod.snd (halloc.symm.trans heq)
    obtain rfl := found_eq_of_counts h h' hfinds.order_le hfinds.found_lt hsub hlisted hcount
    have halloc' := allocPages_of_finds hfinds
    rw [Nat.sub_self, splitLoop, halloc, Prod.mk.injEq, Option.some_inj] at halloc'
    obtain ⟨rfl, rfl⟩ := halloc'
    -- The block that is handed out is the head of its list afterwards.
    have hhead : secondNode s found ∈ lists' found := by
      have hchain := h'.chain found hfinds.found_lt
      rw [popBlock_freeLists_self] at hchain
      exact hchain.head_mem hne
    have hmem : secondNode s found ∈ listed lists' :=
      mem_listed.mpr ⟨found, hfinds.found_lt, _, hhead, self_mem_pages _ _⟩
    rw [hlisted] at hmem
    exact (Finset.mem_sdiff.mp hmem).2 (self_mem_pages _ _)

/-- A pool of one free page. -/
def onePage : MM where
  mem := fun _ => 0
  buddy :=
    { poolStart := 0x200000
      poolPages := 1
      bitmap := 0x100000
      bitmapWords := 1
      freeLists := fun k => if k = 0 then 0x200000 else 0
      freeCount := 1
      initialized := true }

def onePageLists (k : Nat) : List Word := if k = 0 then [0x200000] else []

theorem listed_onePage : listed onePageLists = {0x200000} := by decide

theorem represents_onePage : Represents onePage onePageLists where
  initialized := rfl
  chain := by
    intro k hk
    by_cases hzero : k = 0
    · subst hzero
      exact .cons (by decide) .nil
    · have hlist : onePageLists k = [] := if_neg hzero
      have hhead : onePage.buddy.freeLists k = 0 := if_neg hzero
      rw [hlist, hhead]
      exact .nil
  inPool := by
    intro k hk block hblock
    by_cases hzero : k = 0
    · subst hzero
      rw [List.mem_singleton.mp hblock]
      exact ⟨0, rfl, by decide⟩
    · rw [show onePageLists k = [] from if_neg hzero] at hblock
      cases hblock
  disjoint := by
    have hmem : ∀ k block, block ∈ onePageLists k → (block, k) = (0x200000, 0) := by
      intro k block hblock
      by_cases hzero : k = 0
      · subst hzero
        rw [List.mem_singleton.mp hblock]
      · rw [show onePageLists k = [] from if_neg hzero] at hblock
        cases hblock
    intro k hk block hblock k' hk' block' hblock' hne
    exact absurd ((hmem k block hblock).trans (hmem k' block' hblock').symm) hne
  marked := by
    intro p hp
    have hone : onePage.buddy.poolPages.toNat = 1 := rfl
    obtain rfl : p = 0 := by omega
    rw [listed_onePage]
    decide
  counted := by
    rw [listed_onePage]
    rfl

theorem not_conserves_onePage : ¬ Conserves onePage onePageLists 0 :=
  not_conserves onePage onePageLists 0 represents_onePage

/-- The only page is handed out as address zero. -/
theorem onePage_not_conserved :
    Represents onePage onePageLists ∧ ¬ Conserves onePage onePageLists 0 := by
  refine ⟨represents_onePage, ?_⟩
  rintro ⟨a, s', lists', halloc, hne, -⟩
  rw [allocPages_zero rfl (by decide) (by decide)] at halloc
  have hzero : secondNode onePage 0 = 0 := by decide
  exact hne ((Option.some_inj.mp (congrArg Prod.fst halloc)).symm.trans hzero)

end ShlteOs.BuddyRepresentation
