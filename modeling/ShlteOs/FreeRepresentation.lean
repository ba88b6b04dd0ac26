import ShlteOs.BuddyRepresentation
import ShlteOs.BitmapAddressing

/-!
What `free_pages` does to the state it stands for.  The count grows by the pages
of the block only when coalescing gives up on an empty list in its first turn, and
the bits of the block are cleared only where block numbers are page numbers; the
block comes back exactly where both hold.
-/

namespace ShlteOs.FreeRepresentation

open ShlteOs.ByteMemory
open ShlteOs.PointerWalk
open ShlteOs.PageAllocator
open ShlteOs.PageAllocatorSteps
open ShlteOs.PageBitmap
open ShlteOs.BuddyRepresentation

/-- A pool as `buddy_init` accepts it, with a bit for every page and the bitmap
outside of the pool. -/
structure Layout (b : Buddy) : Prop where
  pages_pos : 0 < b.poolPages.toNat
  pages_le : b.poolPages.toNat ≤ 0x100000
  bits : b.poolPages.toNat ≤ b.bitmapWords.toNat * 64
  fits : b.bitmapWords.toNat * 8 ≤ 2 ^ 64
  apart : ∀ p < b.poolPages.toNat, ∀ x, Covers (pageAt b p) 4096 x → ¬ InBitmap b x

section Pages

variable {b : Buddy} {n k p q : Nat} {x : Word}

theorem pageAt_sub (b : Buddy) (hpq : q ≤ p) :
    pageAt b p - pageAt b q = BitVec.ofNat 64 ((p - q) * 4096) := by
  have hsplit : p * 4096 = q * 4096 + (p - q) * 4096 := by omega
  rw [pageAt, pageAt, hsplit, BitVec.ofNat_add, ← BitVec.add_assoc, add_sub_cancel_left]

theorem pageAt_inj (hp : p < 0x100000) (hq : q < 0x100000) :
    pageAt b p = pageAt b q ↔ p = q := by
  constructor
  · intro h
    have hval := congrArg BitVec.toNat (add_left_cancel h)
    rw [BitVec.toNat_ofNat, BitVec.toNat_ofNat] at hval
    omega
  · rintro rfl
    rfl

theorem apart_links (hp : p < 0x100000) (hq : q < 0x100000) (hne : p ≠ q) :
    Apart (pageAt b p) 8 (pageAt b q) 8 := by
  have hlt : ∀ p q, p < 0x100000 → q < p → Apart (pageAt b p) 8 (pageAt b q) 8 := by
    intro p q hp hpq
    have hsub := pageAt_sub b hpq.le
    have hval := congrArg BitVec.toNat hsub
    rw [BitVec.toNat_ofNat] at hval
    apply apart_of_le_sub
    · omega
    · rw [BitVec.toNat_sub] at hval ⊢
      omega
  rcases Nat.lt_or_gt_of_ne hne with h | h
  · exact (hlt q p hq h).symm
  · exact hlt p q hp h

theorem mem_pages_pageAt :
    x ∈ pages (pageAt b (n * 2 ^ k)) k ↔
      ∃ p, n * 2 ^ k ≤ p ∧ p < (n + 1) * 2 ^ k ∧ pageAt b p = x := by
  have hsucc : (n + 1) * 2 ^ k = n * 2 ^ k + 2 ^ k := Nat.succ_mul _ _
  have hpage : ∀ i, pageAt b (n * 2 ^ k) + BitVec.ofNat 64 (i * 4096) =
      pageAt b (n * 2 ^ k + i) := by
    intro i
    rw [pageAt, pageAt, BitVec.add_assoc, ← BitVec.ofNat_add, ← Nat.add_mul]
  rw [mem_pages]
  constructor
  · rintro ⟨i, hi, rfl⟩
    exact ⟨n * 2 ^ k + i, by omega, by omega, (hpage i).symm⟩
  · rintro ⟨p, hle, hlt, rfl⟩
    exact ⟨p - n * 2 ^ k, by omega, by rw [hpage]; congr 1; omega⟩

theorem inPool_iff {block : Word} :
    InPool b block k ↔ ∃ n, block = pageAt b (n * 2 ^ k) ∧ (n + 1) * 2 ^ k ≤ b.poolPages.toNat :=
  Iff.rfl

theorem pageAt_mem_pages (hin : (n + 1) * 2 ^ k ≤ 0x100000) (hp : p < 0x100000) :
    pageAt b p ∈ pages (pageAt b (n * 2 ^ k)) k ↔ n * 2 ^ k ≤ p ∧ p < (n + 1) * 2 ^ k := by
  rw [mem_pages_pageAt]
  constructor
  · rintro ⟨q, hle, hlt, heq⟩
    obtain rfl := (pageAt_inj (by omega) hp).mp heq
    exact ⟨hle, hlt⟩
  · rintro ⟨hle, hlt⟩
    exact ⟨p, hle, hlt, rfl⟩

theorem pageAt_eq_poolStart (hin : (n + 1) * 2 ^ k ≤ 0x100000) :
    pageAt b (n * 2 ^ k) = b.poolStart ↔ n = 0 := by
  have hsucc : (n + 1) * 2 ^ k = n * 2 ^ k + 2 ^ k := Nat.succ_mul _ _
  have hpos := Nat.two_pow_pos k
  have hstart : b.poolStart = pageAt b 0 := by
    rw [pageAt, Nat.zero_mul]
    exact (BitVec.add_zero _).symm
  rw [hstart, pageAt_inj (by omega) (by omega), Nat.mul_eq_zero]
  exact or_iff_left hpos.ne'

theorem page_of_inPool {block : Word} (h : InPool b block k) (hx : x ∈ pages block k) :
    ∃ p < b.poolPages.toNat, pageAt b p = x := by
  obtain ⟨n, rfl, hin⟩ := inPool_iff.mp h
  obtain ⟨p, -, hlt, rfl⟩ := mem_pages_pageAt.mp hx
  exact ⟨p, by omega, rfl⟩

theorem page_of_listed {s : MM} {lists : Nat → List Word} (h : Represents s lists)
    (hx : x ∈ listed lists) : ∃ p < s.buddy.poolPages.toNat, pageAt s.buddy p = x := by
  obtain ⟨k, hk, block, hblock, hmem⟩ := mem_listed.mp hx
  exact page_of_inPool (h.inPool k hk block hblock) hmem

end Pages

section InPlace

/-- The state after `free_pages` when coalescing gives up in its first turn: the
buddy's bits are cleared and counted, and the block is inserted at its own order. -/
def freedInPlace (s : MM) (phys : Word) (order : Nat) : MM :=
  BitmapAddressing.insert order
    ((s.setMem (setAllocatedRange s.buddy s.mem (buddyOf s.buddy phys order).2 (2 ^ order)
      false)).addFreeCount (blockPages order)) phys order

variable {s : MM} {phys : Word} {order : Nat}

theorem coalesceLoop_of_countsOnce (h : FreeCountsOnce s phys order) :
    coalesceLoop (maxOrderBits - 1 - order) s phys order =
      some ((s.setMem (setAllocatedRange s.buddy s.mem (buddyOf s.buddy phys order).2 (2 ^ order)
        false)).addFreeCount (blockPages order), phys, order) := by
  obtain ⟨-, horder, hfree, hempty⟩ := h
  rw [show maxOrderBits - 1 - order = maxOrderBits - 1 - order - 1 + 1 by omega]
  simp only [coalesceLoop, hfree, Bool.true_eq_false, if_false]
  exact if_pos hempty

theorem freePages_of_countsOnce_eq (hinit : s.buddy.initialized = true)
    (h : FreeCountsOnce s phys order) :
    freePages s phys order = some (freedInPlace s phys order) := by
  have horder : order < maxOrderBits := by
    have := h.2.1
    omega
  rw [BitmapAddressing.freePages_eq hinit horder h.1, coalesceLoop_of_countsOnce h]
  rfl

theorem freedInPlace_mem (s : MM) (phys : Word) (order : Nat) :
    (freedInPlace s phys order).mem =
      setAllocatedRange s.buddy
        (store (setAllocatedRange s.buddy s.mem (buddyOf s.buddy phys order).2 (2 ^ order) false)
          phys (s.buddy.freeLists order))
        (buddyPhysToIdx s.buddy phys order) (2 ^ order) false := by
  rw [BitmapAddressing.setAllocatedRange_eq s.buddy (store _ _ _)]
  rfl

theorem freedInPlace_freeLists (s : MM) (phys : Word) (order : Nat) :
    (freedInPlace s phys order).buddy.freeLists =
      Function.update s.buddy.freeLists order phys :=
  rfl

theorem freedInPlace_freeCount (s : MM) (phys : Word) (order : Nat) :
    (freedInPlace s phys order).buddy.freeCount =
      s.buddy.freeCount + BitVec.ofNat 64 (2 ^ order) := by
  have hsub : blockPages order - blockPages order = 0 := sub_self _
  have hcount : (freedInPlace s phys order).buddy.freeCount =
      s.buddy.freeCount + blockPages order + (blockPages order - blockPages order) := rfl
  rw [hcount, hsub, blockPages_eq]
  exact BitVec.add_zero _

theorem buddyIsAllocated_clear_buddy (hwords : s.buddy.bitmapWords.toNat * 8 ≤ 2 ^ 64)
    (hfree : buddyFree s.buddy s.mem (buddyOf s.buddy phys order).2 order = true) (j : Word) :
    buddyIsAllocated s.buddy (setAllocatedRange s.buddy s.mem (buddyOf s.buddy phys order).2
      (2 ^ order) false) j = buddyIsAllocated s.buddy s.mem j := by
  by_cases hmem : ∃ i < 2 ^ order, (buddyOf s.buddy phys order).2 + BitVec.ofNat 64 i = j
  · obtain ⟨i, hi, rfl⟩ := hmem
    have hclear := List.all_eq_true.mp hfree i (List.mem_range.mpr hi)
    rw [Bool.not_eq_true'] at hclear
    have hbit : HasBit s.buddy ((buddyOf s.buddy phys order).2 + BitVec.ofNat 64 i) := by
      by_contra hno
      rw [buddyIsAllocated_of_not_hasBit hno] at hclear
      cases hclear
    rw [buddyIsAllocated_range_of_mem hwords hbit ⟨i, hi, rfl⟩, hclear]
  · exact buddyIsAllocated_range_of_not_mem hwords fun i hi heq => hmem ⟨i, hi, heq⟩

theorem covers_page {a x : Word} (hx : Covers a 8 x) : Covers a 4096 x := by
  rw [Covers] at *
  omega

variable {n : Nat}

theorem buddyIsAllocated_freedInPlace (hlayout : Layout s.buddy) (horder : order < maxOrderBits)
    (hin : (n + 1) * 2 ^ order ≤ s.buddy.poolPages.toNat)
    (hfree : buddyFree s.buddy s.mem
      (buddyOf s.buddy (pageAt s.buddy (n * 2 ^ order)) order).2 order = true)
    {p : Nat} (hp : p < s.buddy.poolPages.toNat) :
    buddyIsAllocated s.buddy (freedInPlace s (pageAt s.buddy (n * 2 ^ order)) order).mem
        (BitVec.ofNat 64 p) =
      if n ≤ p ∧ p < n + 2 ^ order then false
      else buddyIsAllocated s.buddy s.mem (BitVec.ofNat 64 p) := by
  have hpages := hlayout.pages_le
  have hsucc : (n + 1) * 2 ^ order = n * 2 ^ order + 2 ^ order := Nat.succ_mul _ _
  have hpos := Nat.two_pow_pos order
  have hle : n ≤ n * 2 ^ order := Nat.le_mul_of_pos_right n hpos
  have hidx : buddyPhysToIdx s.buddy (pageAt s.buddy (n * 2 ^ order)) order = BitVec.ofNat 64 n :=
    BitmapAddressing.buddyPhysToIdx_block horder (by omega)
  have hrange : (∃ i < 2 ^ order, BitVec.ofNat 64 n + BitVec.ofNat 64 i = BitVec.ofNat 64 p) ↔
      n ≤ p ∧ p < n + 2 ^ order := by
    constructor
    · rintro ⟨i, hi, heq⟩
      have hval := congrArg BitVec.toNat heq
      rw [← BitVec.ofNat_add, BitVec.toNat_ofNat, BitVec.toNat_ofNat] at hval
      omega
    · rintro ⟨hfirst, hlast⟩
      refine ⟨p - n, by omega, ?_⟩
      rw [← BitVec.ofNat_add, Nat.add_sub_cancel' hfirst]
  have hbit : HasBit s.buddy (BitVec.ofNat 64 p) := by
    have hbits := hlayout.bits
    rw [HasBit, BitVec.toNat_ofNat]
    omega
  rw [freedInPlace_mem, hidx]
  split_ifs with hmem
  · exact buddyIsAllocated_range_of_mem hlayout.fits hbit (hrange.mpr hmem)
  · rw [buddyIsAllocated_range_of_not_mem hlayout.fits
      fun i hi heq => hmem (hrange.mp ⟨i, hi, heq⟩),
      ← buddyIsAllocated_clear_buddy hlayout.fits hfree]
    refine buddyIsAllocated_congr hlayout.fits (fun x hx => ?_) _
    refine store_of_not_covers fun hcovers => ?_
    exact hlayout.apart (n * 2 ^ order) (by omega) x (covers_page hcovers) hx

theorem load_freedInPlace (hlayout : Layout s.buddy) {q : Nat}
    (hp : n * 2 ^ order < s.buddy.poolPages.toNat) (hq : q < s.buddy.poolPages.toNat) :
    load (freedInPlace s (pageAt s.buddy (n * 2 ^ order)) order).mem (pageAt s.buddy q) =
      if q = n * 2 ^ order then s.buddy.freeLists order else load s.mem (pageAt s.buddy q) := by
  have hpages := hlayout.pages_le
  have houtside : ∀ x, Covers (pageAt s.buddy q) 8 x → ¬ InBitmap s.buddy x :=
    fun x hx => hlayout.apart q hq x (covers_page hx)
  rw [freedInPlace_mem, load_setAllocatedRange hlayout.fits houtside]
  split_ifs with heq
  · rw [heq, load_store_same]
  · rw [load_store_apart (apart_links (by omega) (by omega) heq),
      load_setAllocatedRange hlayout.fits houtside]

end InPlace

/-- The buddies that coalescing merges with, each with its order. -/
def mergedBuddies : Nat → MM → Word → Nat → List (Word × Nat)
  | 0, _, _, _ => []
  | n + 1, s, phys, coalesced =>
      let buddyPhys := (buddyOf s.buddy phys coalesced).1
      let buddyPageIdx := (buddyOf s.buddy phys coalesced).2
      if buddyFree s.buddy s.mem buddyPageIdx coalesced = false then []
      else
        let s := s.setMem
          (setAllocatedRange s.buddy s.mem buddyPageIdx (2 ^ coalesced) false)
        let s := s.addFreeCount (blockPages coalesced)
        if s.buddy.freeLists coalesced = 0 then []
        else
          match unlink s coalesced buddyPhys with
          | none => []
          | some s =>
              (buddyPhys, coalesced) ::
                mergedBuddies n s (if buddyPhys < phys then buddyPhys else phys) (coalesced + 1)

/-- `free_pages` adds the pages of the block to the listed ones, and merges only
with listed blocks, which it takes off their lists. -/
def Preserves (s : MM) (lists : Nat → List Word) (phys : Word) (order : Nat) : Prop :=
  ∃ s' lists', freePages s phys order = some s' ∧ Represents s' lists' ∧
    listed lists' = listed lists ∪ pages phys order ∧
    ∀ merge ∈ mergedBuddies (maxOrderBits - 1 - order) s phys order,
      merge.1 ∈ lists merge.2 ∧ InPool s.buddy merge.1 merge.2 ∧ merge.1 ∉ lists' merge.2

/-- The block is put back as it is: its buddy's bits are clear, its list is empty,
and its number is that of its first page. -/
def FreesInPlace (s : MM) (phys : Word) (order : Nat) : Prop :=
  FreeCountsOnce s phys order ∧ phys ≠ 0 ∧ (order = 0 ∨ phys = s.buddy.poolStart)

/-- All pages of the block are marked as allocated. -/
def MarkedAllocated (s : MM) (phys : Word) (order : Nat) : Prop :=
  ∀ p < s.buddy.poolPages.toNat, pageAt s.buddy p ∈ pages phys order →
    buddyIsAllocated s.buddy s.mem (BitVec.ofNat 64 p) = true

section Freed

variable {s : MM} {lists : Nat → List Word} {phys : Word} {order : Nat}

theorem disjoint_listed (h : Represents s lists) (halloc : MarkedAllocated s phys order) :
    Disjoint (listed lists) (pages phys order) := by
  refine Finset.disjoint_left.mpr fun x hlisted hpage => ?_
  obtain ⟨p, hp, rfl⟩ := page_of_listed h hlisted
  have hclear := (h.marked p hp).mpr hlisted
  rw [halloc p hp hpage] at hclear
  cases hclear

theorem card_listed_le (h : Represents s lists) :
    (listed lists).card ≤ s.buddy.poolPages.toNat := by
  have hsub : listed lists ⊆ (Finset.range s.buddy.poolPages.toNat).image (pageAt s.buddy) := by
    intro x hx
    obtain ⟨p, hp, rfl⟩ := page_of_listed h hx
    exact Finset.mem_image_of_mem _ (Finset.mem_range.mpr hp)
  calc
    (listed lists).card ≤ _ := Finset.card_le_card hsub
    _ ≤ (Finset.range s.buddy.poolPages.toNat).card := Finset.card_image_le
    _ = s.buddy.poolPages.toNat := Finset.card_range _

theorem card_freed (h : Represents s lists) (halloc : MarkedAllocated s phys order)
    (horder : order < maxOrderBits) :
    (listed lists ∪ pages phys order).card = s.buddy.freeCount.toNat + 2 ^ order := by
  rw [Finset.card_union_of_disjoint (disjoint_listed h halloc), card_pages phys horder, h.counted]

/-- Only a free that gives up in its first turn counts the pages right. -/
theorem countsOnce_of_represents {s' : MM} {lists' : Nat → List Word} (hlayout : Layout s.buddy)
    (h : Represents s lists) (halloc : MarkedAllocated s phys order)
    (horder : order < maxOrderBits) (hfree : freePages s phys order = some s')
    (h' : Represents s' lists') (hlisted : listed lists' = listed lists ∪ pages phys order) :
    FreeCountsOnce s phys order := by
  by_contra hnot
  obtain ⟨-, d, hd, hne, hcount⟩ := freePages_of_not_countsOnce h.initialized horder hnot hfree
  have hval := congrArg BitVec.toNat hcount
  have hle := card_listed_le h
  have hpages := hlayout.pages_le
  have hpow := two_pow_le_of_lt horder
  rw [BitVec.toNat_add, BitVec.toNat_ofNat, h'.counted, hlisted,
    card_freed h halloc horder] at hval
  rw [← h.counted] at hle
  omega

theorem chain_freedInPlace (hlayout : Layout s.buddy) (h : Represents s lists)
    (halloc : MarkedAllocated s phys order) (hin : InPool s.buddy phys order) {k : Nat}
    (hk : k < maxOrderBits) (hne : k ≠ order) :
    Chain (load (freedInPlace s phys order).mem) 0
      ((freedInPlace s phys order).buddy.freeLists k) (lists k) := by
  obtain ⟨n, rfl, hn⟩ := inPool_iff.mp hin
  have hsucc : (n + 1) * 2 ^ order = n * 2 ^ order + 2 ^ order := Nat.succ_mul _ _
  have hpos := Nat.two_pow_pos order
  rw [freedInPlace_freeLists, Function.update_of_ne hne]
  refine (h.chain k hk).congr fun block hblock => ?_
  have hmem : block ∈ listed lists :=
    mem_listed.mpr ⟨k, hk, block, hblock, self_mem_pages _ _⟩
  obtain ⟨q, hq, rfl⟩ := page_of_listed h hmem
  rw [load_freedInPlace hlayout (by omega) hq, if_neg]
  rintro rfl
  exact Finset.disjoint_left.mp (disjoint_listed h halloc) hmem (self_mem_pages _ _)

theorem listed_update {k : Nat} {block : Word} (hk : k < maxOrderBits) (hempty : lists k = []) :
    listed (Function.update lists k [block]) = listed lists ∪ pages block k := by
  ext x
  rw [Finset.mem_union, mem_listed, mem_listed]
  constructor
  · rintro ⟨j, hj, b, hb, hx⟩
    by_cases hjk : j = k
    · subst hjk
      rw [Function.update_self, List.mem_singleton] at hb
      exact .inr (hb ▸ hx)
    · rw [Function.update_of_ne hjk] at hb
      exact .inl ⟨j, hj, b, hb, hx⟩
  · rintro (⟨j, hj, b, hb, hx⟩ | hx)
    · have hjk : j ≠ k := by
        rintro rfl
        rw [hempty] at hb
        cases hb
      exact ⟨j, hj, b, by rwa [Function.update_of_ne hjk], hx⟩
    · exact ⟨k, hk, block, by rw [Function.update_self]; exact List.mem_singleton_self _, hx⟩

theorem chain_freed (hlayout : Layout s.buddy) (hin : InPool s.buddy phys order)
    (hne : phys ≠ 0) (hempty : s.buddy.freeLists order = 0) :
    Chain (load (freedInPlace s phys order).mem) 0
      ((freedInPlace s phys order).buddy.freeLists order) [phys] := by
  obtain ⟨n, rfl, hn⟩ := inPool_iff.mp hin
  have hsucc : (n + 1) * 2 ^ order = n * 2 ^ order + 2 ^ order := Nat.succ_mul _ _
  have hpos := Nat.two_pow_pos order
  have hlt : n * 2 ^ order < s.buddy.poolPages.toNat := by omega
  rw [freedInPlace_freeLists, Function.update_self]
  refine .cons hne ?_
  rw [load_freedInPlace hlayout hlt hlt, if_pos rfl, hempty]
  exact .nil

theorem disjoint_freed (h : Represents s lists) (halloc : MarkedAllocated s phys order) {k : Nat}
    (hk : k < maxOrderBits) {block : Word} (hblock : block ∈ lists k) :
    Disjoint (pages phys order) (pages block k) :=
  Finset.disjoint_of_subset_right (fun _ hx => mem_listed.mpr ⟨k, hk, block, hblock, hx⟩)
    (disjoint_listed h halloc).symm

theorem disjoint_update (h : Represents s lists) (halloc : MarkedAllocated s phys order) :
    ∀ k < maxOrderBits, ∀ block ∈ Function.update lists order [phys] k, ∀ k' < maxOrderBits,
      ∀ block' ∈ Function.update lists order [phys] k',
        (block, k) ≠ (block', k') → Disjoint (pages block k) (pages block' k') := by
  intro k hk block hblock k' hk' block' hblock' hpair
  by_cases hkk : k = order
  · by_cases hkk' : k' = order
    · subst hkk hkk'
      rw [Function.update_self, List.mem_singleton] at hblock hblock'
      exact absurd (by rw [hblock, hblock']) hpair
    · subst hkk
      rw [Function.update_self, List.mem_singleton] at hblock
      rw [Function.update_of_ne hkk'] at hblock'
      exact hblock ▸ disjoint_freed h halloc hk' hblock'
  · rw [Function.update_of_ne hkk] at hblock
    by_cases hkk' : k' = order
    · subst hkk'
      rw [Function.update_self, List.mem_singleton] at hblock'
      exact hblock' ▸ (disjoint_freed h halloc hk hblock).symm
    · rw [Function.update_of_ne hkk'] at hblock'
      exact h.disjoint k hk block hblock k' hk' block' hblock' hpair

theorem marked_freedInPlace (hlayout : Layout s.buddy) (h : Represents s lists)
    (hin : InPool s.buddy phys order) (hplace : FreesInPlace s phys order) {p : Nat}
    (hp : p < s.buddy.poolPages.toNat) :
    buddyIsAllocated s.buddy (freedInPlace s phys order).mem (BitVec.ofNat 64 p) = false ↔
      pageAt s.buddy p ∈ listed lists ∪ pages phys order := by
  obtain ⟨⟨-, horder', hfree, -⟩, -, hunits⟩ := hplace
  have horder : order < maxOrderBits := by omega
  obtain ⟨n, rfl, hn⟩ := inPool_iff.mp hin
  have hpages := hlayout.pages_le
  rw [pageAt_eq_poolStart (by omega)] at hunits
  -- In units of pages the block begins where it does in blocks.
  have hfirst : n * 2 ^ order = n := by
    rcases hunits with rfl | rfl
    · exact Nat.mul_one n
    · exact Nat.zero_mul _
  have hmem := pageAt_mem_pages (b := s.buddy) (p := p) (hn.trans hpages) (by omega)
  have hbit := buddyIsAllocated_freedInPlace hlayout horder hn hfree hp
  rw [Nat.succ_mul, hfirst] at hmem
  rw [Finset.mem_union]
  split_ifs at hbit with hrange
  · have hpage := hmem.mpr hrange
    rw [← hfirst] at hpage
    exact ⟨fun _ => .inr hpage, fun _ => hbit⟩
  · refine Iff.trans (Eq.to_iff (congrArg (· = false) hbit)) ((h.marked p hp).trans ?_)
    constructor
    · exact .inl
    · rintro (hmem' | hmem')
      · exact hmem'
      · exact absurd (hmem.mp (by rwa [hfirst] at hmem')) hrange

theorem counted_freedInPlace (hlayout : Layout s.buddy) (h : Represents s lists)
    (halloc : MarkedAllocated s phys order) (horder : order < maxOrderBits) :
    (freedInPlace s phys order).buddy.freeCount.toNat = (listed lists ∪ pages phys order).card := by
  have hle := card_listed_le h
  have hpages := hlayout.pages_le
  have hpow := two_pow_le_of_lt horder
  rw [← h.counted] at hle
  rw [card_freed h halloc horder, freedInPlace_freeCount, BitVec.toNat_add, BitVec.toNat_ofNat]
  generalize 2 ^ order = count at *
  omega

theorem represents_freedInPlace (hlayout : Layout s.buddy) (h : Represents s lists)
    (halloc : MarkedAllocated s phys order) (hin : InPool s.buddy phys order)
    (hplace : FreesInPlace s phys order) :
    Represents (freedInPlace s phys order) (Function.update lists order [phys]) := by
  have hempty : s.buddy.freeLists order = 0 := hplace.1.2.2.2
  have hne : phys ≠ 0 := hplace.2.1
  have horder : order < maxOrderBits := by
    have horder' := hplace.1.2.1
    omega
  have hnil : lists order = [] := by
    have hchain := h.chain order horder
    rw [hempty] at hchain
    exact hchain.unique .nil
  have hlisted : listed (Function.update lists order [phys]) = listed lists ∪ pages phys order :=
    listed_update horder hnil
  refine ⟨h.initialized, ?_, ?_, disjoint_update h halloc, fun p hp => ?_, ?_⟩
  · intro k hk
    by_cases hkk : k = order
    · subst hkk
      rw [Function.update_self]
      exact chain_freed hlayout hin hne hempty
    · rw [Function.update_of_ne hkk]
      exact chain_freedInPlace hlayout h halloc hin hk hkk
  · intro k hk block hblock
    by_cases hkk : k = order
    · subst hkk
      rw [Function.update_self, List.mem_singleton] at hblock
      rw [hblock]
      exact hin
    · rw [Function.update_of_ne hkk] at hblock
      exact h.inPool k hk block hblock
  · rw [hlisted]
    exact marked_freedInPlace hlayout h hin hplace hp
  · rw [hlisted]
    exact counted_freedInPlace hlayout h halloc horder

theorem mergedBuddies_of_countsOnce (h : FreeCountsOnce s phys order) :
    mergedBuddies (maxOrderBits - 1 - order) s phys order = [] := by
  obtain ⟨-, horder, hfree, hempty⟩ := h
  rw [show maxOrderBits - 1 - order = maxOrderBits - 1 - order - 1 + 1 by omega]
  simp only [mergedBuddies, hfree, Bool.true_eq_false, if_false]
  exact if_pos hempty

/-- Above order zero, the bit of the last page of a block that does not start the
pool stays set. -/
theorem units_of_represents {lists' : Nat → List Word} (hlayout : Layout s.buddy)
    (halloc : MarkedAllocated s phys order) (hin : InPool s.buddy phys order)
    (hfree : buddyFree s.buddy s.mem (buddyOf s.buddy phys order).2 order = true)
    (horder : order < maxOrderBits) (h' : Represents (freedInPlace s phys order) lists')
    (hsub : pages phys order ⊆ listed lists') : order = 0 ∨ phys = s.buddy.poolStart := by
  obtain ⟨n, rfl, hn⟩ := inPool_iff.mp hin
  have hpages := hlayout.pages_le
  rw [pageAt_eq_poolStart (by omega)]
  by_contra hnot
  obtain ⟨horder', hn'⟩ := not_or.mp hnot
  have hsucc : (n + 1) * 2 ^ order = n * 2 ^ order + 2 ^ order := Nat.succ_mul _ _
  have hpos := Nat.two_pow_pos order
  have hgap : n + 1 ≤ n * 2 ^ order := by
    calc
      n + 1 ≤ n * 2 := by omega
      _ ≤ n * 2 ^ order := Nat.mul_le_mul_left n (Nat.le_self_pow horder' 2)
  have hlast : (n + 1) * 2 ^ order - 1 < s.buddy.poolPages.toNat := by omega
  have hpage : pageAt s.buddy ((n + 1) * 2 ^ order - 1) ∈
      pages (pageAt s.buddy (n * 2 ^ order)) order :=
    (pageAt_mem_pages (by omega) (by omega)).mpr ⟨by omega, by omega⟩
  have hclear := (h'.marked _ hlast).mpr (hsub hpage)
  have hbit := buddyIsAllocated_freedInPlace hlayout horder hn hfree hlast
  rw [if_neg (by omega), halloc _ hlast hpage] at hbit
  exact Bool.noConfusion (hbit.symm.trans hclear)

theorem ne_zero_of_represents {lists' : Nat → List Word} (hlayout : Layout s.buddy)
    (h : Represents s lists) (halloc : MarkedAllocated s phys order)
    (hin : InPool s.buddy phys order) (horder : order < maxOrderBits)
    (h' : Represents (freedInPlace s phys order) lists')
    (hsub : pages phys order ⊆ listed lists') : phys ≠ 0 := by
  intro hzero
  obtain ⟨k, hk, block, hblock, hmem⟩ := mem_listed.mp (hsub (self_mem_pages phys order))
  by_cases hkk : k = order
  · subst hkk
    have hchain := h'.chain k hk
    rw [freedInPlace_freeLists, Function.update_self, hzero] at hchain
    rw [hchain.unique .nil] at hblock
    cases hblock
  · rw [(h'.chain k hk).unique (chain_freedInPlace hlayout h halloc hin hk hkk)] at hblock
    have hlisted : phys ∈ listed lists := mem_listed.mpr ⟨k, hk, block, hblock, hmem⟩
    exact Finset.disjoint_left.mp (disjoint_listed h halloc) hlisted (self_mem_pages _ _)

end Freed

/-- Freeing an allocated block keeps the free lists, the bitmap and the count in step, and
adds the pages of the block, exactly when the block is put onto its own list as it is. -/
theorem preserves_iff (s : MM) (lists : Nat → List Word) (phys : Word) (order : Nat)
    (hlayout : Layout s.buddy) (h : Represents s lists) (horder : order < maxOrderBits)
    (hin : InPool s.buddy phys order) (halloc : MarkedAllocated s phys order) :
    Preserves s lists phys order ↔ FreesInPlace s phys order := by
  constructor
  · rintro ⟨s', lists', hfree, h', hlisted, -⟩
    have hsub : pages phys order ⊆ listed lists' := by
      rw [hlisted]
      exact Finset.subset_union_right
    have honce := countsOnce_of_represents hlayout h halloc horder hfree h' hlisted
    rw [freePages_of_countsOnce_eq h.initialized honce, Option.some_inj] at hfree
    subst hfree
    exact ⟨honce, ne_zero_of_represents hlayout h halloc hin horder h' hsub,
      units_of_represents hlayout halloc hin honce.2.2.1 horder h' hsub⟩
  · intro hplace
    have hnil : lists order = [] := by
      have hchain := h.chain order horder
      rw [hplace.1.2.2.2] at hchain
      exact hchain.unique .nil
    refine ⟨freedInPlace s phys order, Function.update lists order [phys],
      freePages_of_countsOnce_eq h.initialized hplace.1,
      represents_freedInPlace hlayout h halloc hin hplace, listed_update horder hnil, ?_⟩
    rw [mergedBuddies_of_countsOnce hplace.1]
    intro merge hmerge
    cases hmerge

/-- A pool without free pages. -/
def allocatedPool (pages bits : Word) : MM where
  mem := store (fun _ => 0) 0x100000 bits
  buddy :=
    { poolStart := 0x200000
      poolPages := pages
      bitmap := 0x100000
      bitmapWords := 1
      initialized := true }

theorem listed_nil : listed (fun _ => []) = ∅ := by decide

theorem represents_allocatedPool {pages bits : Word}
    (h : ∀ p < pages.toNat, buddyIsAllocated (allocatedPool pages bits).buddy
      (allocatedPool pages bits).mem (BitVec.ofNat 64 p) = true) :
    Represents (allocatedPool pages bits) fun _ => [] where
  initialized := rfl
  chain := fun _ _ => .nil
  inPool := fun _ _ _ hblock => nomatch hblock
  disjoint := fun _ _ _ hblock => nomatch hblock
  marked := by
    intro p hp
    rw [h p hp, listed_nil]
    simp
  counted := by
    rw [listed_nil]
    rfl

theorem layout_allocatedPool {pages bits : Word} (hpos : 0 < pages.toNat)
    (hle : pages.toNat ≤ 64) : Layout (allocatedPool pages bits).buddy where
  pages_pos := hpos
  pages_le := hle.trans (by decide)
  bits := hle
  fits := show 1 * 8 ≤ 2 ^ 64 by decide
  apart := by
    intro p (hp : p < pages.toNat)
    have hstart : (allocatedPool pages bits).buddy.poolStart.toNat = 0x200000 := rfl
    have hbitmap : (0x100000 : Word).toNat = 0x100000 := rfl
    have hvalue : (pageAt (allocatedPool pages bits).buddy p).toNat = 0x200000 + p * 4096 := by
      rw [pageAt, BitVec.toNat_add, BitVec.toNat_ofNat, hstart]
      omega
    have hapart : Apart (pageAt (allocatedPool pages bits).buddy p) 4096 0x100000 8 := by
      apply apart_of_le_sub
      · rw [BitVec.toNat_sub, hvalue, hbitmap]
        omega
      · rw [BitVec.toNat_sub, hvalue, hbitmap]
        omega
    exact hapart

theorem preserves_onePage : Preserves (allocatedPool 1 1) (fun _ => []) 0x200000 0 := by
  have hmarked : ∀ p < (1 : Word).toNat, buddyIsAllocated (allocatedPool 1 1).buddy
      (allocatedPool 1 1).mem (BitVec.ofNat 64 p) = true := by decide
  refine (preserves_iff (allocatedPool 1 1) (fun _ => []) 0x200000 0
    (layout_allocatedPool (by decide) (by decide)) (represents_allocatedPool hmarked)
    (by decide) ⟨0, by decide, by decide⟩ (fun p hp _ => hmarked p hp)).mpr ?_
  exact ⟨⟨by decide, by decide, by decide, rfl⟩, by decide, .inl rfl⟩

/-- With two allocated pages, freeing the first one lists it and leaves the count
at zero. -/
theorem not_preserves_twoPages :
    Layout (allocatedPool 2 3).buddy ∧ Represents (allocatedPool 2 3) (fun _ => []) ∧
      InPool (allocatedPool 2 3).buddy 0x200000 0 ∧
      MarkedAllocated (allocatedPool 2 3) 0x200000 0 ∧
      (0x200000 : Word) % (pageSize * blockPages 0) = 0 ∧
      ¬ Preserves (allocatedPool 2 3) (fun _ => []) 0x200000 0 := by
  have hmarked : ∀ p < (2 : Word).toNat, buddyIsAllocated (allocatedPool 2 3).buddy
      (allocatedPool 2 3).mem (BitVec.ofNat 64 p) = true := by decide
  refine ⟨layout_allocatedPool (by decide) (by decide), represents_allocatedPool hmarked,
    ⟨0, by decide, by decide⟩, fun p hp _ => hmarked p hp, by decide, ?_⟩
  rintro ⟨s', lists', hfree, h', hlisted, -⟩
  have hcount : (freePages (allocatedPool 2 3) 0x200000 0).map (·.buddy.freeCount) = some 0 := by
    decide
  rw [hfree, Option.map_some, Option.some_inj] at hcount
  have hcard := h'.counted
  have hpage : 0x200000 ∈ listed lists' := by
    rw [hlisted]
    exact Finset.mem_union_right _ (self_mem_pages _ _)
  rw [hcount] at hcard
  have hempty : listed lists' = ∅ := Finset.card_eq_zero.mp hcard.symm
  rw [hempty] at hpage
  exact Finset.notMem_empty _ hpage

end ShlteOs.FreeRepresentation
