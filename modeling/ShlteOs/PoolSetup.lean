import ShlteOs.SlabAccounting
import ShlteOs.BlockSplitting

/-!
A call of `buddy_init` that fails.  The page count is tested before anything is
assigned; the request for the bitmap comes after four fields of the record have
been replaced, and is served by the slabs and by the free lists of the old pool.
-/

namespace ShlteOs.PoolSetup

open ShlteOs.ByteMemory
open ShlteOs.PointerWalk
open ShlteOs.PageAllocator
open ShlteOs.PageAllocatorSteps
open ShlteOs.SlabAllocator
open ShlteOs.SlabAccounting
open ShlteOs.BlockSplitting

def ValidCount (totalPages : Word) : Prop := ¬ (totalPages = 0 ∨ 0x100000 < totalPages)

instance (totalPages : Word) : Decidable (ValidCount totalPages) :=
  inferInstanceAs (Decidable (¬ _))

def wordsFor (totalPages : Word) : Word := (totalPages + 63) / 64

/-- The state in which `buddy_init` asks for the bitmap. -/
def recordPool (s : MM) (start totalPages : Word) : MM :=
  { s with buddy := { s.buddy with
    poolStart := start
    poolPages := totalPages
    freeCount := totalPages
    bitmapWords := wordsFor totalPages } }

def setBitmap (s : MM) (bitmap : Word) : MM :=
  { s with buddy := { s.buddy with bitmap := bitmap } }

/-- A failing call leaves the record as it was. -/
def FailsCleanly (s : MM) (start totalPages : Word) : Prop :=
  ∀ s', buddyInit s start totalPages = some (-1, s') → s'.buddy = s.buddy

/-- The page the free lists hand out for a new slab. -/
def freePage (s : MM) : Option Word :=
  if s.buddy.initialized then
    (searchOrder s.buddy.freeLists 0).map fun found =>
      secondNode s found + BitVec.ofNat 64 ((2 ^ found - 1) * 4096)
  else none

/-- The record already is what a failing call leaves behind. -/
def SamePool (s : MM) (start totalPages : Word) : Prop :=
  s.buddy.poolStart = start ∧ s.buddy.poolPages = totalPages ∧
    s.buddy.freeCount = totalPages ∧ s.buddy.bitmapWords = wordsFor totalPages ∧
    s.buddy.bitmap = 0

section Bitmap

variable {s t : MM} {start totalPages : Word}

theorem bitmapSize_ne_zero (h : ValidCount totalPages) : wordsFor totalPages * 8 ≠ 0 := by
  rw [ValidCount, not_or, BitVec.not_lt, BitVec.le_def] at h
  have hpos : 0 < totalPages.toNat :=
    Nat.pos_of_ne_zero fun hzero => h.1 (BitVec.eq_of_toNat_eq hzero)
  have hmax : totalPages.toNat ≤ 0x100000 := h.2
  have hwords : (wordsFor totalPages).toNat = (totalPages.toNat + 63) / 64 := by
    rw [wordsFor, BitVec.toNat_udiv, BitVec.toNat_add]
    show (totalPages.toNat + 63) % 2 ^ 64 / 64 = (totalPages.toNat + 63) / 64
    rw [Nat.mod_eq_of_lt (by omega)]
  intro hzero
  have hval := congrArg BitVec.toNat hzero
  rw [BitVec.toNat_mul, hwords] at hval
  have hproduct : (totalPages.toNat + 63) / 64 * 8 % 2 ^ 64 = 0 := hval
  rw [Nat.mod_eq_of_lt (by omega)] at hproduct
  omega

theorem buddyInit_failed_iff (h : ValidCount totalPages) {s' : MM} :
    buddyInit s start totalPages = some (-1, s') ↔
      ∃ t, kmalloc (recordPool s start totalPages) (wordsFor totalPages * 8) = some (0, t) ∧
        s' = setBitmap t 0 := by
  rw [buddyInit, if_neg h]
  constructor
  · intro hfail
    obtain ⟨⟨p, t⟩, hp, hr⟩ := Option.map_eq_some_iff.mp hfail
    dsimp only at hr
    split at hr
    · rename_i hzero
      subst hzero
      exact ⟨t, hp, (Prod.mk.inj hr).2.symm⟩
    · exact absurd (Prod.mk.inj hr).1 (by decide)
  · rintro ⟨t, ht, rfl⟩
    exact Option.map_eq_some_iff.mpr ⟨(0, t), ht, if_pos rfl⟩

theorem slabAlloc_null_iff :
    slabAlloc s = some (0, t) ↔
      findFreeSlab s.mem s.slab.slabs = some 0 ∧ newSlab s = (0, t) := by
  rw [slabAlloc]
  constructor
  · intro h
    obtain ⟨p, hfind, hr⟩ := Option.map_eq_some_iff.mp h
    by_cases hp : p = 0
    · subst hp
      exact ⟨hfind, hr⟩
    · rw [if_neg hp] at hr
      exact absurd (Prod.mk.inj hr).1 (freeList_ne_zero hfind hp)
  · rintro ⟨hfind, hnew⟩
    exact Option.map_eq_some_iff.mpr ⟨0, hfind, hnew⟩

/-- `kmalloc` returns null exactly when no slab has a free object and the page
for a new one is refused or lies at address zero. -/
theorem kmalloc_null_iff {size : Word} (hsize : size ≠ 0) :
    kmalloc s size = some (0, t) ↔
      findFreeSlab s.mem s.slab.slabs = some 0 ∧ newSlab s = (0, t) := by
  rw [← slabAlloc_null_iff, kmalloc_eq hsize]
  constructor
  · intro h
    obtain ⟨r, hr, hresult⟩ := Option.map_eq_some_iff.mp h
    split at hresult
    · rw [hr, hresult]
    · rename_i hne
      exact absurd (Prod.mk.inj hresult).1 hne
  · intro h
    exact Option.map_eq_some_iff.mpr ⟨(0, t), h, if_pos rfl⟩

end Bitmap

section FreePage

variable {s t : MM} {start totalPages : Word} {found : Nat}

theorem finds_recordPool_iff (h : ValidCount totalPages) :
    Finds (recordPool s start totalPages) 0 found ↔
      s.buddy.initialized = true ∧ searchOrder s.buddy.freeLists 0 = some found := by
  have hpages : totalPages ≠ 0 := fun hzero => h (.inl hzero)
  constructor
  · exact fun hfinds => ⟨hfinds.1, hfinds.2.2.2⟩
  · exact fun hfinds => ⟨hfinds.1, by decide, fun hzero => hpages hzero.2, hfinds.2⟩

theorem freePage_of_finds (hinit : s.buddy.initialized = true)
    (hsearch : searchOrder s.buddy.freeLists 0 = some found) :
    freePage s = some (secondNode s found + BitVec.ofNat 64 ((2 ^ found - 1) * 4096)) := by
  rw [freePage, if_pos hinit, hsearch, Option.map_some]

theorem finds_of_freePage {page : Word} (h : freePage s = some page) :
    ∃ found, s.buddy.initialized = true ∧ searchOrder s.buddy.freeLists 0 = some found := by
  rw [freePage] at h
  split at h
  · rename_i hinit
    obtain ⟨found, hsearch, -⟩ := Option.map_eq_some_iff.mp h
    exact ⟨found, hinit, hsearch⟩
  · cases h

theorem allocPages_zero_page_freeLists (hfinds : Finds s 0 found)
    (hpage : secondNode s found + BitVec.ofNat 64 ((2 ^ found - 1) * 4096) = 0) :
    (allocPages s 0).2.buddy.freeLists ≠ s.buddy.freeLists := by
  obtain ⟨hhead, -, hlt, hbefore⟩ := searchOrder_eq_some_iff.mp hfinds.2.2.2
  rw [allocPages_of_finds hfinds]
  intro hsame
  cases found with
  | zero =>
      have hnode : secondNode s 0 = 0 := by simpa using hpage
      have hlist : secondNode s 0 = s.buddy.freeLists 0 := by
        rw [← hsame]
        exact (popBlock_freeLists_self s 0).symm
      exact hhead (hlist.symm.trans hnode)
  | succ n =>
      have hlist : secondNode s (n + 1) = s.buddy.freeLists n := by
        rw [← hsame, Nat.sub_zero, splitLoop_succ_eq n _ _ (by omega),
          splitLoop_freeLists_of_not_between (by omega) (.inr (by omega)), Nat.zero_add,
          splitStep_freeLists_self]
      rw [hlist, hbefore n (Nat.zero_le n) (Nat.lt_succ_self n)] at hpage
      have hpow := two_pow_le_of_lt hlt
      have htwo : 2 ≤ 2 ^ (n + 1) := by
        rw [pow_succ]
        have hpos := Nat.two_pow_pos n
        omega
      have hval := congrArg BitVec.toNat hpage
      have hsum : (2 ^ (n + 1) - 1) * 4096 % 2 ^ 64 = 0 := by simpa using hval
      rw [Nat.mod_eq_of_lt (by omega)] at hsum
      omega

theorem newSlab_null_cases (h : newSlab s = (0, t)) :
    ((∀ found, ¬ Finds s 0 found) ∧ t = s) ∨
      ∃ found, Finds s 0 found ∧
        secondNode s found + BitVec.ofNat 64 ((2 ^ found - 1) * 4096) = 0 ∧
        t.buddy = (allocPages s 0).2.buddy := by
  rcases allocPages_cases s 0 with ⟨hfail, hnone⟩ | ⟨found, s', hfinds, hok, -, -⟩
  · rw [newSlab, hfail] at h
    exact .inl ⟨hnone, (Prod.mk.inj h).2.symm⟩
  · rw [newSlab, hok] at h
    obtain ⟨hpage, rfl⟩ := Prod.mk.inj h
    refine .inr ⟨found, hfinds, by simpa using hpage, ?_⟩
    rw [hok]

theorem newSlab_of_not_finds (h : ∀ found, ¬ Finds s 0 found) : newSlab s = (0, s) := by
  rw [newSlab, allocPages_of_not_finds h]

theorem newSlab_of_zero_page (hfinds : Finds s 0 found)
    (hpage : secondNode s found + BitVec.ofNat 64 ((2 ^ found - 1) * 4096) = 0) :
    ∃ t, newSlab s = (0, t) := by
  rcases allocPages_cases s 0 with ⟨-, hnone⟩ | ⟨found', s', hfinds', hok, -, -⟩
  · exact absurd hfinds (hnone found)
  · have hfound : found' = found := Option.some.inj (hfinds'.2.2.2.symm.trans hfinds.2.2.2)
    subst hfound
    rw [newSlab, hok]
    exact ⟨_, congrArg₂ Prod.mk (by simpa using hpage) rfl⟩

end FreePage

section Failure

variable {s : MM} {start totalPages : Word}

theorem failsCleanly_of_invalid (h : ¬ ValidCount totalPages) :
    FailsCleanly s start totalPages := by
  intro s' hfail
  rw [buddyInit, if_pos (not_not.mp h)] at hfail
  obtain ⟨-, rfl⟩ := Prod.mk.inj (Option.some.inj hfail)
  rfl

theorem failsCleanly_iff_newSlab (h : ValidCount totalPages)
    (hfind : findFreeSlab s.mem s.slab.slabs = some 0) :
    FailsCleanly s start totalPages ↔
      ∀ t, newSlab (recordPool s start totalPages) = (0, t) →
        (setBitmap t 0).buddy = s.buddy := by
  have hsize := bitmapSize_ne_zero h
  constructor
  · intro hclean t hnew
    exact hclean _ ((buddyInit_failed_iff h).mpr
      ⟨t, (kmalloc_null_iff hsize).mpr ⟨hfind, hnew⟩, rfl⟩)
  · intro hall s' hfail
    obtain ⟨t, ht, rfl⟩ := (buddyInit_failed_iff h).mp hfail
    exact hall t ((kmalloc_null_iff hsize).mp ht).2

theorem setBitmap_recordPool_iff :
    (setBitmap (recordPool s start totalPages) 0).buddy = s.buddy ↔
      SamePool s start totalPages := by
  constructor
  · intro h
    exact ⟨congrArg Buddy.poolStart h.symm, congrArg Buddy.poolPages h.symm,
      congrArg Buddy.freeCount h.symm, congrArg Buddy.bitmapWords h.symm,
      congrArg Buddy.bitmap h.symm⟩
  · rintro ⟨rfl, hpages, hcount, hwords, hbitmap⟩
    rw [recordPool, setBitmap, ← hwords, ← hbitmap]
    rcases s with ⟨m, ⟨poolStart, poolPages, bitmap, bitmapWords, lists, count, init⟩, slab⟩
    obtain rfl : poolPages = totalPages := hpages
    obtain rfl : count = poolPages := hcount
    rfl

theorem failsCleanly_iff_of_no_page (h : ValidCount totalPages)
    (hfind : findFreeSlab s.mem s.slab.slabs = some 0) (hpage : freePage s = none) :
    FailsCleanly s start totalPages ↔ SamePool s start totalPages := by
  have hnone : ∀ found, ¬ Finds (recordPool s start totalPages) 0 found := by
    intro found hfinds
    obtain ⟨hinit, hsearch⟩ := (finds_recordPool_iff h).mp hfinds
    rw [freePage_of_finds hinit hsearch] at hpage
    cases hpage
  rw [failsCleanly_iff_newSlab h hfind, newSlab_of_not_finds hnone, ← setBitmap_recordPool_iff]
  constructor
  · exact fun hall => hall _ rfl
  · intro hsame t ht
    obtain ⟨-, rfl⟩ := Prod.mk.inj ht
    exact hsame

theorem failsCleanly_iff_of_page (h : ValidCount totalPages)
    (hfind : findFreeSlab s.mem s.slab.slabs = some 0) {page : Word}
    (hpage : freePage s = some page) : FailsCleanly s start totalPages ↔ page ≠ 0 := by
  obtain ⟨found, hinit, hsearch⟩ := finds_of_freePage hpage
  have hfinds : Finds (recordPool s start totalPages) 0 found :=
    (finds_recordPool_iff h).mpr ⟨hinit, hsearch⟩
  rw [freePage_of_finds hinit hsearch] at hpage
  have haddr : secondNode (recordPool s start totalPages) found +
      BitVec.ofNat 64 ((2 ^ found - 1) * 4096) = page := Option.some.inj hpage
  rw [failsCleanly_iff_newSlab h hfind]
  constructor
  · rintro hall rfl
    obtain ⟨t, ht⟩ := newSlab_of_zero_page hfinds haddr
    rcases newSlab_null_cases ht with ⟨hnone, -⟩ | ⟨-, -, -, hbuddy⟩
    · exact hnone found hfinds
    · have hlists := congrArg Buddy.freeLists (hall t ht)
      apply allocPages_zero_page_freeLists hfinds haddr
      rw [← hbuddy]
      exact hlists
  · intro hne t ht
    rcases newSlab_null_cases ht with ⟨hnone, -⟩ | ⟨found', hfinds', hzero, -⟩
    · exact absurd hfinds (hnone found)
    · have hfound : found' = found :=
        Option.some.inj (hfinds'.2.2.2.symm.trans hfinds.2.2.2)
      rw [hfound, haddr] at hzero
      exact absurd hzero hne

theorem failsCleanly_iff_freePage (h : ValidCount totalPages)
    (hfind : findFreeSlab s.mem s.slab.slabs = some 0) :
    FailsCleanly s start totalPages ↔
      (∃ page, freePage s = some page ∧ page ≠ 0) ∨
        (freePage s = none ∧ SamePool s start totalPages) := by
  cases hpage : freePage s with
  | none =>
      rw [failsCleanly_iff_of_no_page h hfind hpage]
      constructor
      · exact fun hsame => .inr ⟨rfl, hsame⟩
      · rintro (⟨page, hsome, -⟩ | ⟨-, hsame⟩)
        · cases hsome
        · exact hsame
  | some page =>
      rw [failsCleanly_iff_of_page h hfind hpage]
      constructor
      · exact fun hne => .inl ⟨page, rfl, hne⟩
      · rintro (⟨page', hsome, hne⟩ | ⟨hnone, -⟩)
        · rw [Option.some.inj hsome]
          exact hne
        · cases hnone

/-- A failing `buddy_init` leaves the record as it was exactly when the page
count is refused, or the bitmap cannot be refused because some slab has a free
object or the old free lists hand out a page other than page zero, or there is
no page and the record already holds the new values. -/
theorem buddyInit_fails_cleanly_iff (s : MM) (start totalPages : Word) :
    FailsCleanly s start totalPages ↔
      (totalPages = 0 ∨ 0x100000 < totalPages) ∨
        findFreeSlab s.mem s.slab.slabs ≠ some 0 ∨
        (∃ page, freePage s = some page ∧ page ≠ 0) ∨
        (freePage s = none ∧ SamePool s start totalPages) := by
  by_cases hvalid : ValidCount totalPages
  · by_cases hfind : findFreeSlab s.mem s.slab.slabs = some 0
    · rw [failsCleanly_iff_freePage hvalid hfind]
      constructor
      · exact fun h => .inr (.inr h)
      · rintro (hcount | hroom | h)
        · exact absurd hcount hvalid
        · exact absurd hfind hroom
        · exact h
    · refine ⟨fun _ => .inr (.inl hfind), fun _ s' hfail => ?_⟩
      obtain ⟨t, ht, -⟩ := (buddyInit_failed_iff hvalid).mp hfail
      exact absurd ((kmalloc_null_iff (bitmapSize_ne_zero hvalid)).mp ht).1 hfind
  · exact ⟨fun _ => .inl (not_not.mp hvalid), fun _ => failsCleanly_of_invalid hvalid⟩

/-- Before `mm_init` nothing can serve the bitmap, and the start of the refused
pool stays in the record. -/
theorem buddyInit_boot_not_clean :
    ¬ ∀ (s : MM) (start totalPages : Word), FailsCleanly s start totalPages := by
  intro hall
  have hvalid : ValidCount 2 := by decide
  have hfind : findFreeSlab (boot fun _ => 0).mem (boot fun _ => 0).slab.slabs = some 0 :=
    walk_of_stop rfl (by decide)
  rcases (failsCleanly_iff_freePage hvalid hfind).mp (hall (boot fun _ => 0) 0x200000 2) with
    ⟨page, hpage, -⟩ | ⟨-, hstart, -⟩
  · cases hpage
  · exact absurd hstart (by decide)

end Failure

end ShlteOs.PoolSetup
