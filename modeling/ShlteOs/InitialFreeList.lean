import ShlteOs.PageAllocatorSteps
import ShlteOs.SlabAllocator

/-!
The order-0 free list that `buddy_init` and `mm_init` leave behind.  Both loops
index `free_lists[0]` as an array of 8-byte nodes, so the link of page `i` is
stored `8 * i` bytes behind the start of the pool and not at the start of page
`i`, where the list is later followed.
-/

namespace ShlteOs.InitialFreeList

open ShlteOs.ByteMemory
open ShlteOs.PointerWalk
open ShlteOs.PageAllocator
open ShlteOs.PageAllocatorSteps
open ShlteOs.SlabAllocator

def pageAddr (start : Word) (i : Nat) : Word := start + BitVec.ofNat 64 i * pageSize

/-- Following the links from `free_lists[0]` meets each page of the pool once,
nothing else, and then the terminator. -/
def VisitsPool (s : MM) (start : Word) (pages : Nat) : Prop :=
  ∃ nodes, Chain (load s.mem) 0 (s.buddy.freeLists 0) nodes ∧ nodes.Nodup ∧
    ∀ a, a ∈ nodes ↔ ∃ i, i < pages ∧ a = pageAddr start i

theorem load_writeLinks {m : Memory} {start : Word} {link : Nat → Word} {pages i : Nat}
    (hi : i < pages - 1) (hpages : pages * 8 ≤ 2 ^ 64) :
    load (writeLinks m start link pages) (start + BitVec.ofNat 64 i * 8) = link i := by
  rw [writeLinks, load_store_apart, load_storeArray hi (by omega)]
  exact apart_slots (by omega) (by omega) (by omega : pages - 1 < pages) hpages

theorem writeLinks_of_not_covers {m : Memory} {start x : Word} {link : Nat → Word}
    {pages : Nat} (hpos : 0 < pages) (hpages : pages * 8 ≤ 2 ^ 64)
    (h : ¬ Covers start (pages * 8) x) : writeLinks m start link pages x = m x := by
  have height : (8 : Word).toNat = 8 := rfl
  have hslot : ¬ Covers (start + BitVec.ofNat 64 (pages - 1) * 8) 8 x := by
    simp only [Covers, BitVec.toNat_sub, BitVec.toNat_add, BitVec.toNat_mul,
      BitVec.toNat_ofNat, height] at *
    omega
  rw [writeLinks, store_of_not_covers hslot, storeArray_of_not_covers (by omega)]
  simp only [Covers] at *
  omega

/-- A memory word in which every byte is one. It is odd, so it is no page of a
pool whose start is a multiple of eight. -/
def strayLink : Word := 0x0101010101010101

theorem load_strayLink {m : Memory} {a : Word} (h : ∀ x, Covers a 8 x → m x = 1) :
    load m a = strayLink := by
  have hconst : load m a = load (fun _ => 1) a := load_congr h
  rw [hconst]
  simp only [load, strayLink]
  decide

theorem pageAddr_ne_strayLink {start : Word} (hstart : start.toNat % 8 = 0) (i : Nat) :
    strayLink ≠ pageAddr start i := by
  intro h
  have hval := congrArg BitVec.toNat h
  have hpage : (4096 : Word).toNat = 4096 := rfl
  have hstray : strayLink.toNat = 72340172838076673 := rfl
  simp only [pageAddr, pageSize, BitVec.toNat_add, BitVec.toNat_mul, BitVec.toNat_ofNat,
    hpage, hstray] at hval
  omega

theorem not_visitsPool {s : MM} {start : Word} {pages i : Nat}
    (hstart : start.toNat % 8 = 0) (hi : i < pages)
    (hstray : load s.mem (pageAddr start i) = strayLink) : ¬ VisitsPool s start pages := by
  rintro ⟨nodes, hchain, -, hnodes⟩
  have hpage : pageAddr start i ∈ nodes := (hnodes _).mpr ⟨i, hi, rfl⟩
  have hnext : load s.mem (pageAddr start i) ∈ nodes := by
    apply hchain.next_mem hpage
    rw [hstray]
    decide
  rw [hstray] at hnext
  obtain ⟨j, -, hj⟩ := (hnodes _).mp hnext
  exact pageAddr_ne_strayLink hstart j hj

theorem not_covers_of_page {start x : Word} {i n : Nat} (hi : i ≤ 0x100000)
    (hn : n ≤ i * 4096) (hx : Covers (pageAddr start i) 8 x) : ¬ Covers start n x := by
  have hpage : (4096 : Word).toNat = 4096 := rfl
  simp only [Covers, pageAddr, pageSize, BitVec.toNat_sub, BitVec.toNat_add,
    BitVec.toNat_mul, BitVec.toNat_ofNat, hpage] at *
  omega

theorem buddyInit_eq_some {s s' : MM} {start totalPages : Word}
    (h : buddyInit s start totalPages = some (0, s')) :
    ∃ m link, s'.mem = writeLinks m start link totalPages.toNat ∧
      s'.buddy.freeLists 0 = start := by
  rw [buddyInit] at h
  split at h
  · simp at h
  · obtain ⟨r, -, hr⟩ := Option.map_eq_some_iff.mp h
    dsimp only at hr
    split at hr
    · simp at hr
    · obtain ⟨-, rfl⟩ := Prod.mk.inj hr
      exact ⟨_, _, rfl, by simp⟩

theorem visitsPool_of_single {s s' : MM} {start : Word} (hstart : start ≠ 0)
    (h : buddyInit s start 1 = some (0, s')) : VisitsPool s' start 1 := by
  obtain ⟨m, link, hmem, hhead⟩ := buddyInit_eq_some h
  have hend : load s'.mem start = 0 := by
    have hslot : start + BitVec.ofNat 64 ((1 : Word).toNat - 1) * 8 = start := by
      simp
    rw [hmem, writeLinks, hslot, load_store_same]
  refine ⟨[start], ?_, by simp, ?_⟩
  · rw [hhead]
    apply Chain.cons hstart
    rw [hend]
    exact Chain.nil
  · intro a
    simp [pageAddr]

/-- An allocator state that serves the bitmap from the pool's own first page: a
slab header at `start` whose free list offers `start`, in a memory of ones. -/
def strayState (start : Word) : MM :=
  { mem := store (store (fun _ => 1) start start) (start + 8) start
    slab := { slabs := start } }

theorem apart_word_next (a : Word) : Apart a 8 (a + 8) 8 := by
  have height : (8 : Word).toNat = 8 := rfl
  apply apart_of_le_sub
  · simp only [BitVec.toNat_sub, BitVec.toNat_add, height]
    omega
  · simp only [BitVec.toNat_sub, BitVec.toNat_add, height]
    omega

theorem load_strayState (start : Word) : load (strayState start).mem start = start := by
  rw [strayState, load_store_apart (apart_word_next start), load_store_same]

theorem roundedSize_le (size : Word) (hsize : size.toNat < 2 ^ 63) :
    (roundedSize size).toNat ≤ max 64 size.toNat + 7 := by
  have hseven : (7 : Word).toNat = 7 := rfl
  have hobj : slabObjSize.toNat = 64 := rfl
  have hle : (roundedSize size).toNat ≤
      ((if size < slabObjSize then slabObjSize else size) + 7).toNat := by
    rw [roundedSize, BitVec.toNat_and]
    exact Nat.and_le_left
  refine hle.trans ?_
  rw [BitVec.toNat_add, hseven]
  split
  · omega
  · omega

theorem kmalloc_strayState {t : MM} {start size : Word} (hstart : start ≠ 0)
    (hmem : t.mem = (strayState start).mem) (hslab : t.slab.slabs = start)
    (hsize : size ≠ 0) :
    ∃ t', kmalloc t size = some (start, t') ∧
      ∀ x, ¬ Covers start (max 64 (roundedSize size).toNat) x → t'.mem x = 1 := by
  have hhead : load t.mem (freeListField start) = start := by
    rw [hmem]
    exact load_store_same _ _ _
  have hfind : findFreeSlab t.mem t.slab.slabs = some start := by
    rw [hslab]
    apply walk_of_stop
    · rw [hhead, bne_iff_ne.mpr hstart, Bool.or_true]
    · decide
  have hpage : load (store t.mem (freeListField start) (load t.mem start)) start = start := by
    rw [freeListField, load_store_apart (apart_word_next start), hmem, load_strayState]
  have hobj : (takeObject t start).1 = start := hhead
  refine ⟨(takeObject t start).2.setMem
    (memset (takeObject t start).2.mem start 0 (roundedSize size).toNat), ?_, ?_⟩
  · simp only [kmalloc, if_neg hsize, slabAlloc, hfind, Option.map_some, if_neg hstart, hobj]
  · intro x hx
    have hbyte : x ≠ usedField start 0 := by
      rintro rfl
      apply hx
      simp [Covers, usedField]
    have hfirst : ¬ Covers start 8 x := fun h => hx (by
      simp only [Covers] at *
      omega)
    have hsecond : ¬ Covers (start + 8) 8 x := by
      have height : (8 : Word).toNat = 8 := rfl
      simp only [Covers, BitVec.toNat_sub, BitVec.toNat_add, height] at *
      omega
    have hclear : ¬ Covers start (roundedSize size).toNat x := fun h => hx (by
      simp only [Covers] at *
      omega)
    simp only [MM.setMem]
    rw [memset_of_not_covers (by omega) hclear]
    have hidx : (start - start) / slabObjSize = 0 := by
      rw [BitVec.sub_self]
      rfl
    simp only [takeObject, hhead, pagePhysField, hpage, hidx, storeByte]
    rw [if_neg hbyte, freeListField, store_of_not_covers hsecond, hmem]
    simp only [strayState]
    rw [store_of_not_covers hsecond, store_of_not_covers hfirst]

theorem buddyInit_strayState {start totalPages : Word} (hstart : start ≠ 0)
    (htwo : 2 ≤ totalPages.toNat) (hmax : totalPages.toNat ≤ 0x100000) :
    ∃ s', buddyInit (strayState start) start totalPages = some (0, s') ∧
      load s'.mem (pageAddr start (totalPages.toNat - 1)) = strayLink := by
  have hvalid : ¬ (totalPages = 0 ∨ 0x100000 < totalPages) := by
    rintro (rfl | hlarge)
    · simp at htwo
    · have : (0x100000 : Word).toNat = 0x100000 := rfl
      rw [BitVec.lt_def] at hlarge
      omega
  have hbits : (((totalPages + 63) / 64) * 8).toNat = (totalPages.toNat + 63) / 64 * 8 := by
    have h63 : (63 : Word).toNat = 63 := rfl
    have h64 : (64 : Word).toNat = 64 := rfl
    have h8 : (8 : Word).toNat = 8 := rfl
    rw [BitVec.toNat_mul, BitVec.toNat_udiv, BitVec.toNat_add, h63, h64, h8]
    omega
  have hsize : (totalPages + 63) / 64 * 8 ≠ 0 := by
    intro h
    have hzero := congrArg BitVec.toNat h
    rw [hbits] at hzero
    simp at hzero
    omega
  let s₁ : MM := { strayState start with
    buddy := { (strayState start).buddy with
      poolStart := start
      poolPages := totalPages
      freeCount := totalPages
      bitmapWords := (totalPages + 63) / 64 } }
  obtain ⟨t, ht, hones⟩ := kmalloc_strayState (t := s₁) hstart rfl rfl hsize
  refine ⟨_, by
    simp only [buddyInit, if_neg hvalid]
    rw [show kmalloc _ _ = some (start, t) from ht]
    simp only [Option.map_some, if_neg hstart]
    rfl, ?_⟩
  apply load_strayLink
  intro x hx
  have hfar : ∀ n, n ≤ (totalPages.toNat - 1) * 4096 → ¬ Covers start n x :=
    fun n hn => not_covers_of_page (by omega) hn hx
  have hround := roundedSize_le _ (by rw [hbits]; omega :
    ((totalPages + 63) / 64 * 8).toNat < 2 ^ 63)
  rw [hbits] at hround
  dsimp only
  rw [writeLinks_of_not_covers (by omega) (by omega) (hfar _ (by omega)),
    memset_of_not_covers (by omega) (hfar _ (by rw [hbits]; omega))]
  exact hones x (hfar _ (by omega))

theorem alignedPoolStart_mod (kernelEnd : Word) :
    (alignedPoolStart kernelEnd).toNat % 2 ^ 21 = 0 := by
  have hmask : alignedPoolStart kernelEnd &&& (2 * 1024 * 1024 - 1) = 0 := by
    rw [alignedPoolStart, BitVec.and_assoc, BitVec.and_comm (~~~_), BitVec.and_not_self]
    exact BitVec.and_zero
  have hval := congrArg BitVec.toNat hmask
  rw [BitVec.toNat_and] at hval
  have hlow : (2 * 1024 * 1024 - 1 : Word).toNat = 2 ^ 21 - 1 := rfl
  rw [hlow, Nat.and_two_pow_sub_one_eq_mod] at hval
  exact hval

theorem initialPoolPages_eq : initialPoolPages = 16384 := by
  norm_num [initialPoolPages]

theorem mmInit_mem (s : MM) (kernelEnd staticBitmap : Word) :
    (mmInit s kernelEnd staticBitmap).mem =
      writeLinks (memset s.mem staticBitmap 0 (1024 * 8)) (alignedPoolStart kernelEnd)
        (fun i => alignedPoolStart kernelEnd + (BitVec.ofNat 64 i + 1) * pageSize)
        initialPoolPages :=
  rfl

theorem load_mmInit_link (s : MM) (kernelEnd staticBitmap : Word) {i : Nat}
    (hi : i < initialPoolPages - 1) :
    load (mmInit s kernelEnd staticBitmap).mem
        (alignedPoolStart kernelEnd + BitVec.ofNat 64 i * 8) =
      alignedPoolStart kernelEnd + (BitVec.ofNat 64 i + 1) * pageSize := by
  have hpages : initialPoolPages = 16384 := initialPoolPages_eq
  rw [mmInit_mem, load_writeLinks hi (by omega)]

theorem secondNode_mmInit (s : MM) (kernelEnd staticBitmap : Word) :
    secondNode (mmInit s kernelEnd staticBitmap) 0 =
      alignedPoolStart kernelEnd + pageSize := by
  have hpages : initialPoolPages = 16384 := initialPoolPages_eq
  have hlink := load_mmInit_link s kernelEnd staticBitmap
    (show 0 < initialPoolPages - 1 by omega)
  have hslot : alignedPoolStart kernelEnd + BitVec.ofNat 64 0 * 8 =
      alignedPoolStart kernelEnd := by simp
  rw [hslot] at hlink
  have hhead : (mmInit s kernelEnd staticBitmap).buddy.freeLists 0 =
      alignedPoolStart kernelEnd := rfl
  rw [secondNode, hhead, hlink]
  simp

theorem allocPages_mmInit (s : MM) (kernelEnd staticBitmap : Word)
    (hstart : alignedPoolStart kernelEnd ≠ 0) :
    allocPages (mmInit s kernelEnd staticBitmap) 0 =
      (some (alignedPoolStart kernelEnd + pageSize),
        popBlock (mmInit s kernelEnd staticBitmap) 0) := by
  have hpages : (mmInit s kernelEnd staticBitmap).buddy.poolPages ≠ 0 := by
    change BitVec.ofNat 64 initialPoolPages ≠ 0
    rw [initialPoolPages_eq]
    decide
  have hhead : (mmInit s kernelEnd staticBitmap).buddy.freeLists 0 ≠ 0 := hstart
  rw [allocPages_zero rfl hpages hhead, secondNode_mmInit]

theorem load_mmInit_idle {m : Memory} {kernelEnd staticBitmap : Word} {i : Nat}
    (hlow : 32 ≤ i) (hi : i ≤ 0x100000)
    (hapart : Apart (pageAddr (alignedPoolStart kernelEnd) i) 8 staticBitmap (1024 * 8)) :
    load (mmInit (boot m) kernelEnd staticBitmap).mem
      (pageAddr (alignedPoolStart kernelEnd) i) =
        load m (pageAddr (alignedPoolStart kernelEnd) i) := by
  have hpages : initialPoolPages = 16384 := initialPoolPages_eq
  apply load_congr
  intro x hx
  have hfar : ¬ Covers (alignedPoolStart kernelEnd) (initialPoolPages * 8) x :=
    not_covers_of_page hi (by omega) hx
  rw [mmInit_mem, writeLinks_of_not_covers (by omega) (by omega) hfar,
    memset_of_not_covers (by omega) (hapart x hx)]
  rfl

theorem mmInit_stray_page (kernelEnd staticBitmap : Word) :
    ∃ i, i < initialPoolPages ∧
      load (mmInit (boot fun _ => 1) kernelEnd staticBitmap).mem
        (pageAddr (alignedPoolStart kernelEnd) i) = strayLink := by
  have hpages : initialPoolPages = 16384 := initialPoolPages_eq
  have hstray : ∀ i, i ≤ 0x100000 → 100 ≤ i →
      Apart (pageAddr (alignedPoolStart kernelEnd) i) 8 staticBitmap (1024 * 8) →
      load (mmInit (boot fun _ => 1) kernelEnd staticBitmap).mem
        (pageAddr (alignedPoolStart kernelEnd) i) = strayLink := by
    intro i hi hlow hapart
    rw [load_mmInit_idle (by omega) hi hapart]
    exact load_strayLink fun _ _ => rfl
  by_cases hcase : Apart (pageAddr (alignedPoolStart kernelEnd) 100) 8 staticBitmap (1024 * 8)
  · exact ⟨100, by omega, hstray 100 (by omega) (by omega) hcase⟩
  · refine ⟨10000, by omega, hstray 10000 (by omega) (by omega) ?_⟩
    intro x hx hb
    apply hcase
    intro y hy hb'
    have hclose := close_of_covers (by omega) hx hb hy hb'
    have hdist : (pageAddr (alignedPoolStart kernelEnd) 10000 -
        pageAddr (alignedPoolStart kernelEnd) 100).toNat = 9900 * 4096 := by
      rw [pageAddr, pageAddr, add_sub_add_left_eq_sub]
      rfl
    omega

/-- The list threaded by `buddy_init` is the pool, whatever the memory held
before, exactly for a pool of one page; the one threaded by `mm_init` never is. -/
theorem visitsPool_iff_single_page (start totalPages kernelEnd staticBitmap : Word)
    (hstart : start ≠ 0) (halign : start.toNat % 8 = 0)
    (hone : 1 ≤ totalPages) (hmax : totalPages ≤ 0x100000) :
    ((∀ s s', buddyInit s start totalPages = some (0, s') →
        VisitsPool s' start totalPages.toNat) ↔ totalPages = 1) ∧
      ¬ ∀ m : Memory, VisitsPool (mmInit (boot m) kernelEnd staticBitmap)
        (alignedPoolStart kernelEnd) initialPoolPages := by
  have hmax' : totalPages.toNat ≤ 0x100000 := hmax
  have hone' : 1 ≤ totalPages.toNat := hone
  refine ⟨⟨?_, ?_⟩, ?_⟩
  · intro hall
    by_contra hne
    have htwo : 2 ≤ totalPages.toNat := by
      by_contra hlt
      exact hne (BitVec.eq_of_toNat_eq (show totalPages.toNat = 1 by omega))
    obtain ⟨s', hs', hstray⟩ := buddyInit_strayState hstart htwo hmax'
    exact not_visitsPool halign (by omega) hstray (hall _ _ hs')
  · rintro rfl s s' hs'
    exact visitsPool_of_single hstart hs'
  · intro hall
    obtain ⟨i, hi, hstray⟩ := mmInit_stray_page kernelEnd staticBitmap
    have hpool := alignedPoolStart_mod kernelEnd
    exact not_visitsPool (by omega) hi hstray (hall _)

theorem visitsPool_iff_single_page_at_2MB :
    ((∀ s s', buddyInit s 0x200000 1 = some (0, s') → VisitsPool s' 0x200000 1) ↔
      (1 : Word) = 1) :=
  (visitsPool_iff_single_page 0x200000 1 0x200000 0x100000 (by decide) (by decide)
    (by decide) (by decide)).1

/-- Two pages from 2 MB on, in a memory of ones: the list leaves the pool behind
its second page. -/
theorem two_page_pool_not_visited :
    ¬ ∀ s s', buddyInit s 0x200000 2 = some (0, s') → VisitsPool s' 0x200000 2 := by
  intro hall
  obtain ⟨s', hs', hstray⟩ :=
    @buddyInit_strayState 0x200000 2 (by decide) (by decide) (by decide)
  exact not_visitsPool (by decide) (by decide : 1 < 2) hstray (hall _ _ hs')

end ShlteOs.InitialFreeList
