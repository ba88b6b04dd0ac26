import ShlteOs.PageBitmap
import ShlteOs.PageClients

/-!
The first page of a fresh pool and its return.  The pool's first block is its
second page.  As long as a client holds it, it is the head of the only list
that is not empty; `free_pages` coalesces it with the first page and pushes
the pair, but leaves the page itself in its list.
-/

namespace ShlteOs.PageReturn

open ShlteOs.ByteMemory
open ShlteOs.CallSequence
open ShlteOs.PointerWalk
open ShlteOs.PageAllocator
open ShlteOs.PageAllocatorSteps
open ShlteOs.PageBitmap
open ShlteOs.InitialFreeList
open ShlteOs.PageClients

section Freeing

/-- Nothing but the bitmap and the count of free pages has changed. -/
structure Marked (s t : MM) : Prop where
  freeLists : t.buddy.freeLists = s.buddy.freeLists
  bitmap : t.buddy.bitmap = s.buddy.bitmap
  words : t.buddy.bitmapWords = s.buddy.bitmapWords
  outside : s.buddy.bitmapWords.toNat * 8 ≤ 2 ^ 64 → ∀ x, ¬ InBitmap s.buddy x → t.mem x = s.mem x

variable {s : MM}

theorem Marked.refl (s : MM) : Marked s s := ⟨rfl, rfl, rfl, fun _ _ _ => rfl⟩

theorem Marked.trans {t u : MM} (h : Marked s t) (h' : Marked t u) : Marked s u where
  freeLists := h'.freeLists.trans h.freeLists
  bitmap := h'.bitmap.trans h.bitmap
  words := h'.words.trans h.words
  outside := by
    intro hfits x hx
    have hfits' : t.buddy.bitmapWords.toNat * 8 ≤ 2 ^ 64 := h.words ▸ hfits
    have hx' : ¬ InBitmap t.buddy x := by
      rw [InBitmap, h.bitmap, h.words]
      exact hx
    rw [h'.outside hfits' x hx', h.outside hfits x hx]

theorem Marked.setRange (first : Word) (count : Nat) (allocated : Bool) (pages : Word) :
    Marked s ((s.setMem (setAllocatedRange s.buddy s.mem first count allocated)).addFreeCount
      pages) :=
  ⟨rfl, rfl, rfl, fun hwords _ hx => setAllocatedRange_of_not_inBitmap hwords hx⟩

theorem Marked.load_eq {t : MM} (h : Marked s t) (hwords : s.buddy.bitmapWords.toNat * 8 ≤ 2 ^ 64)
    {a : Word} (ha : ∀ x, Covers a 8 x → ¬ InBitmap s.buddy x) : load t.mem a = load s.mem a :=
  load_congr fun x hx => h.outside hwords x (ha x hx)

theorem freeLists_push (s : MM) (k : Nat) (node : Word) :
    (s.push k node).buddy.freeLists = Function.update s.buddy.freeLists k node := rfl

theorem mem_push (s : MM) (k : Nat) (node : Word) :
    (s.push k node).mem = store s.mem node (s.buddy.freeLists k) := rfl

theorem inBitmap_push (s : MM) (k : Nat) (node x : Word) :
    InBitmap (s.push k node).buddy x ↔ InBitmap s.buddy x := Iff.rfl

theorem bitmapWords_push (s : MM) (k : Nat) (node : Word) :
    (s.push k node).buddy.bitmapWords = s.buddy.bitmapWords := rfl

theorem unlink_freeLists_of_ne {s' : MM} {order k : Nat} {target : Word}
    (h : unlink s order target = some s') (hk : k ≠ order) :
    s'.buddy.freeLists k = s.buddy.freeLists k := by
  obtain ⟨p, -, rfl⟩ := Option.map_eq_some_iff.mp h
  split
  · rfl
  · split
    · exact Function.update_of_ne hk _ _
    · rfl

theorem coalesceLoop_of_empty (n : Nat) (phys : Word) {c : Nat}
    (hempty : s.buddy.freeLists c = 0) :
    ∃ t, coalesceLoop (n + 1) s phys c = some (t, phys, c) ∧ Marked s t := by
  by_cases hfree : buddyFree s.buddy s.mem (buddyOf s.buddy phys c).2 c = false
  · exact ⟨s, by rw [coalesceLoop, if_pos hfree], .refl s⟩
  · refine ⟨_, ?_, Marked.setRange (buddyOf s.buddy phys c).2 (2 ^ c) false (blockPages c)⟩
    rw [coalesceLoop, if_neg hfree]
    exact if_pos hempty

theorem coalesceLoop_freeLists {n : Nat} {s' : MM} {phys phys' : Word} {c' : Nat}
    (hempty : s.buddy.freeLists 1 = 0)
    (h : coalesceLoop (n + 2) s phys 0 = some (s', phys', c')) :
    c' ≤ 1 ∧ ∀ k, 0 < k → s'.buddy.freeLists k = s.buddy.freeLists k := by
  rw [coalesceLoop] at h
  dsimp only at h
  split at h
  · cases h
    exact ⟨by omega, fun _ _ => rfl⟩
  split at h
  · cases h
    exact ⟨by omega, fun _ _ => rfl⟩
  · obtain ⟨t, hunlink, htail⟩ := Option.bind_eq_some_iff.mp h
    have hlists : ∀ k, 0 < k → t.buddy.freeLists k = s.buddy.freeLists k := by
      intro k hk
      have hkept := unlink_freeLists_of_ne hunlink hk.ne'
      exact hkept
    obtain ⟨u, hu, hmarked⟩ := coalesceLoop_of_empty n
      (if (buddyOf s.buddy phys 0).1 < phys then (buddyOf s.buddy phys 0).1 else phys)
      ((hlists 1 Nat.one_pos).trans hempty)
    rw [hu] at htail
    cases htail
    exact ⟨le_rfl, fun k hk => by rw [hmarked.freeLists, hlists k hk]⟩

theorem freePages_of_coalesceLoop {t : MM} {phys phys' : Word} {order k : Nat}
    (hinit : s.buddy.initialized = true) (horder : order < maxOrderBits)
    (halign : phys % (pageSize * blockPages order) = 0)
    (hloop : coalesceLoop (maxOrderBits - 1 - order) s phys order = some (t, phys', k)) :
    ∃ s', freePages s phys order = some s' ∧ Marked (t.push k phys') s' := by
  rw [freePages, if_neg (by simp [hinit]), if_neg (by omega), if_neg (not_not.mpr halign), hloop,
    Option.map_some]
  exact ⟨_, rfl, Marked.setRange _ _ _ _⟩

theorem freePages_freeLists {s' : MM} {phys : Word} (hempty : s.buddy.freeLists 1 = 0)
    (h : freePages s phys 0 = some s') {k : Nat} (hk : 2 ≤ k) :
    s'.buddy.freeLists k = s.buddy.freeLists k := by
  rw [freePages] at h
  split at h
  · cases h
    rfl
  split at h
  · cases h
    rfl
  split at h
  · cases h
    rfl
  · obtain ⟨⟨t, phys', c'⟩, ht, rfl⟩ := Option.map_eq_some_iff.mp h
    obtain ⟨hc, hlists⟩ :=
      coalesceLoop_freeLists hempty (show coalesceLoop (7 + 2) s phys 0 = _ from ht)
    refine (Function.update_of_ne ?_ _ _).trans (hlists k (by omega))
    dsimp only at hc ⊢
    omega

end Freeing

section SecondPage

variable {m : Memory} {kernelEnd staticBitmap : Word} {c : Clients}

/-- The pool does not wrap around the address space, and the static bitmap, a part of
the kernel's image, lies outside of it. -/
structure Placed (kernelEnd staticBitmap : Word) : Prop where
  fits : (alignedPoolStart kernelEnd).toNat + 2 ^ 26 ≤ 2 ^ 64
  outside : Apart (alignedPoolStart kernelEnd) (2 ^ 26) staticBitmap (1024 * 8)

def secondPage (kernelEnd : Word) : Word := alignedPoolStart kernelEnd + pageSize

/-- A client holds the second page, which is still the head of the first list. -/
structure Holding (kernelEnd : Word) (c : Clients) : Prop where
  pool : pool c.mm = initialPool kernelEnd
  head : c.mm.buddy.freeLists 0 = secondPage kernelEnd
  above : ∀ k, 0 < k → c.mm.buddy.freeLists k = 0
  live : c.live = [⟨secondPage kernelEnd, 0⟩]

/-- The client has returned it. -/
structure Returned (kernelEnd : Word) (c : Clients) : Prop where
  pool : pool c.mm = initialPool kernelEnd
  above : ∀ k, 2 ≤ k → c.mm.buddy.freeLists k = 0
  live : c.live = []

/-- The client has cleared the link in the page it holds. -/
structure Wiped (kernelEnd staticBitmap : Word) (c : Clients) : Prop extends
    Holding kernelEnd c where
  bitmap : c.mm.buddy.bitmap = staticBitmap
  words : c.mm.buddy.bitmapWords = 1024
  unlinked : load c.mm.mem (secondPage kernelEnd) = 0
  unmarked : buddyIsAllocated c.mm.buddy c.mm.mem 0 = false

/-- It has returned the page with its link cleared: both lists have a head that no node
follows. -/
structure Spent (kernelEnd : Word) (c : Clients) : Prop extends Returned kernelEnd c where
  page : c.mm.buddy.freeLists 0 = secondPage kernelEnd
  pageLink : load c.mm.mem (secondPage kernelEnd) = 0
  pair : c.mm.buddy.freeLists 1 = alignedPoolStart kernelEnd
  pairLink : load c.mm.mem (alignedPoolStart kernelEnd) = 0

theorem secondPage_ne_zero (kernelEnd : Word) : secondPage kernelEnd ≠ 0 := by
  intro h
  have hval := congrArg BitVec.toNat h
  have halign := alignedPoolStart_mod kernelEnd
  have hpage : pageSize.toNat = 4096 := rfl
  have hzero : (0 : Word).toNat = 0 := rfl
  rw [secondPage, BitVec.toNat_add, hpage, hzero] at hval
  omega

theorem Placed.not_inPool (hplaced : Placed kernelEnd staticBitmap)
    (hstart : alignedPoolStart kernelEnd ≠ 0) (hpool : pool c.mm = initialPool kernelEnd)
    (order : Nat) : ¬ (⟨0, order⟩ : Block).InPool c.mm := by
  rintro ⟨-, hend⟩
  have hpoolStart : c.mm.buddy.poolStart = alignedPoolStart kernelEnd := congrArg Prod.fst hpool
  have hfits := hplaced.fits
  have hpos : 0 < (alignedPoolStart kernelEnd).toNat :=
    Nat.pos_of_ne_zero fun h => hstart (BitVec.eq_of_toNat_eq h)
  have hbytes : 0 < (⟨0, order⟩ : Block).bytes := by
    rw [Block.bytes]
    positivity
  have hzero : (0 : Word).toNat = 0 := rfl
  rw [Block.offset, hpoolStart, poolPages_of_pool hpool, BitVec.toNat_sub, hzero] at hend
  omega

theorem toNat_secondPage (hplaced : Placed kernelEnd staticBitmap) :
    (secondPage kernelEnd).toNat = (alignedPoolStart kernelEnd).toNat + 4096 := by
  have hfits := hplaced.fits
  have hpage : pageSize.toNat = 4096 := rfl
  rw [secondPage, BitVec.toNat_add, hpage]
  omega

theorem Placed.not_inBitmap (hplaced : Placed kernelEnd staticBitmap) {b : Buddy}
    (hbitmap : b.bitmap = staticBitmap) (hwords : b.bitmapWords = 1024) {x : Word}
    (hx : Covers (alignedPoolStart kernelEnd) (2 ^ 26) x) : ¬ InBitmap b x := by
  rw [InBitmap, hbitmap, hwords]
  exact hplaced.outside x hx

theorem covers_pool_of_first {x : Word} (hx : Covers (alignedPoolStart kernelEnd) 8 x) :
    Covers (alignedPoolStart kernelEnd) (2 ^ 26) x :=
  lt_of_lt_of_le hx (by decide)

theorem covers_pool_of_second {n : Nat} (hn : n ≤ 4096) {x : Word}
    (hx : Covers (secondPage kernelEnd) n x) : Covers (alignedPoolStart kernelEnd) (2 ^ 26) x := by
  refine hx.mono (d := 4096) ?_ (by omega)
  rw [secondPage, BitVec.add_comm, BitVec.add_sub_cancel]
  rfl

theorem buddyOf_secondPage {b : Buddy} (hstart : b.poolStart = alignedPoolStart kernelEnd) :
    buddyOf b (secondPage kernelEnd) 0 = (alignedPoolStart kernelEnd, 0) := by
  have hindex : buddyPhysToIdx b (secondPage kernelEnd) 0 = 1 := by
    rw [buddyPhysToIdx, hstart, secondPage, BitVec.add_comm, BitVec.add_sub_cancel]
    decide
  have hback : secondPage kernelEnd - blockPages 0 * pageSize = alignedPoolStart kernelEnd := by
    have hsize : blockPages 0 * pageSize = pageSize := by decide
    rw [hsize, secondPage, BitVec.add_sub_cancel]
  rw [buddyOf, hindex, if_neg (by decide), hback]
  rfl

theorem findNode_of_last {mem : Memory} {head target : Word} (hhead : head ≠ 0)
    (hlast : load mem head = 0) (htarget : head ≠ target) :
    findNode mem head target = some (head, 0) := by
  rw [findNode]
  refine walk_eq_some_iff.mpr ⟨1, by decide, ?_, rfl, fun i hi => ?_⟩
  · rw [Function.iterate_one, hlast]
  · obtain rfl : i = 0 := by omega
    rw [Function.iterate_zero_apply, Bool.or_eq_false_iff]
    exact ⟨beq_false_of_ne hhead, beq_false_of_ne htarget⟩

theorem Wiped.first_free (h : Wiped kernelEnd staticBitmap c) :
    buddyFree c.mm.buddy c.mm.mem 0 0 = true := by
  rw [buddyFree, List.all_eq_true]
  intro i hi
  obtain rfl : i = 0 := by simpa using hi
  rw [BitVec.add_zero, h.unmarked, Bool.not_false]

/-- Coalescing with the first page, which the bitmap shows as free, ends at the empty
list above. -/
theorem Wiped.coalesces (hplaced : Placed kernelEnd staticBitmap)
    (h : Wiped kernelEnd staticBitmap c) :
    ∃ t, coalesceLoop 9 c.mm (secondPage kernelEnd) 0 =
        some (t, alignedPoolStart kernelEnd, 1) ∧ Marked c.mm t := by
  have hpoolStart : c.mm.buddy.poolStart = alignedPoolStart kernelEnd := congrArg Prod.fst h.pool
  have hwords : c.mm.buddy.bitmapWords.toNat * 8 ≤ 2 ^ 64 := by
    rw [h.words]
    decide
  have hfree : buddyFree c.mm.buddy c.mm.mem (buddyOf c.mm.buddy (secondPage kernelEnd) 0).2 0 =
      true := by
    rw [buddyOf_secondPage hpoolStart]
    exact h.first_free
  have hvalue := toNat_secondPage hplaced
  have hlt : alignedPoolStart kernelEnd < secondPage kernelEnd := by
    rw [BitVec.lt_def]
    omega
  have hother : secondPage kernelEnd ≠ alignedPoolStart kernelEnd := by
    intro heq
    rw [heq] at hvalue
    omega
  obtain ⟨s₁, hs₁⟩ : ∃ s₁, (c.mm.setMem (setAllocatedRange c.mm.buddy c.mm.mem
      (buddyOf c.mm.buddy (secondPage kernelEnd) 0).2 (2 ^ 0) false)).addFreeCount
        (blockPages 0) = s₁ := ⟨_, rfl⟩
  have hmarked : Marked c.mm s₁ := hs₁ ▸ Marked.setRange _ _ _ _
  have hhead : s₁.buddy.freeLists 0 = secondPage kernelEnd := by
    rw [hmarked.freeLists, h.head]
  have hlast : load s₁.mem (secondPage kernelEnd) = 0 := by
    rw [hmarked.load_eq hwords fun x hx => hplaced.not_inBitmap h.bitmap h.words
      (covers_pool_of_second (by decide) hx), h.unlinked]
  have hunlink : unlink s₁ 0 (alignedPoolStart kernelEnd) = some s₁ := by
    rw [unlink, hhead, findNode_of_last (secondPage_ne_zero kernelEnd) hlast hother,
      Option.map_some, if_pos rfl]
  obtain ⟨t, ht, hlater⟩ := coalesceLoop_of_empty 7 (alignedPoolStart kernelEnd)
    (show s₁.buddy.freeLists 1 = 0 by rw [hmarked.freeLists, h.above 1 Nat.one_pos])
  refine ⟨t, ?_, hmarked.trans hlater⟩
  have hnonempty : s₁.buddy.freeLists 0 ≠ 0 := hhead ▸ secondPage_ne_zero kernelEnd
  rw [coalesceLoop, if_neg (by rw [hfree]; decide)]
  simp only [hs₁]
  rw [if_neg hnonempty, buddyOf_secondPage hpoolStart, hunlink, Option.bind_some, if_pos hlt]
  exact ht

theorem secondPage_aligned (kernelEnd : Word) :
    secondPage kernelEnd % (pageSize * blockPages 0) = 0 := by
  have halign := alignedPoolStart_mod kernelEnd
  have hsize : (pageSize * blockPages 0).toNat = 4096 := rfl
  have hpage : pageSize.toNat = 4096 := rfl
  have hzero : (0 : Word).toNat = 0 := rfl
  apply BitVec.eq_of_toNat_eq
  rw [BitVec.toNat_umod, hsize, secondPage, BitVec.toNat_add, hpage, hzero]
  omega

theorem apart_second_first (kernelEnd : Word) :
    Apart (secondPage kernelEnd) 8 (alignedPoolStart kernelEnd) 8 := by
  have hpage : pageSize.toNat = 4096 := rfl
  apply apart_of_le_sub
  · rw [secondPage, BitVec.add_comm, BitVec.add_sub_cancel]
    decide
  · rw [secondPage, BitVec.toNat_sub, BitVec.toNat_add, hpage]
    omega

theorem Wiped.spent (hplaced : Placed kernelEnd staticBitmap)
    (h : Wiped kernelEnd staticBitmap c) :
    ∃ c', step c (.free ⟨secondPage kernelEnd, 0⟩) = some c' ∧ Spent kernelEnd c' := by
  obtain ⟨t, ht, hmarked⟩ := h.coalesces hplaced
  have hinit : c.mm.buddy.initialized = true := congrArg (fun p => p.2.2) h.pool
  have hloop : coalesceLoop (maxOrderBits - 1 - 0) c.mm (secondPage kernelEnd) 0 =
      some (t, alignedPoolStart kernelEnd, 1) := ht
  obtain ⟨s', hfree, hpushed⟩ :=
    freePages_of_coalesceLoop hinit (show 0 < maxOrderBits by decide)
      (secondPage_aligned kernelEnd) hloop
  have hlists : s'.buddy.freeLists =
      Function.update t.buddy.freeLists 1 (alignedPoolStart kernelEnd) := by
    rw [hpushed.freeLists, freeLists_push]
  have hmem : ∀ x, ¬ InBitmap t.buddy x →
      s'.mem x = store t.mem (alignedPoolStart kernelEnd) (t.buddy.freeLists 1) x := by
    intro x hx
    have hfits : (t.push 1 (alignedPoolStart kernelEnd)).buddy.bitmapWords.toNat * 8 ≤ 2 ^ 64 := by
      rw [bitmapWords_push, hmarked.words, h.words]
      decide
    rw [hpushed.outside hfits x (mt (inBitmap_push _ _ _ _).mp hx), mem_push]
  have hbitmap : t.buddy.bitmap = staticBitmap := hmarked.bitmap.trans h.bitmap
  have hwords : t.buddy.bitmapWords = 1024 := hmarked.words.trans h.words
  have hempty : t.buddy.freeLists 1 = 0 := by rw [hmarked.freeLists, h.above 1 Nat.one_pos]
  have hstep : step c (.free ⟨secondPage kernelEnd, 0⟩) = some { mm := s', live := [] } := by
    rw [step, hfree, Option.map_some, h.live, List.erase_cons_head]
  refine ⟨_, hstep, ⟨(step_pool hstep).trans h.pool, fun k hk => ?_, rfl⟩, ?_, ?_, ?_, ?_⟩
  · rw [hlists, Function.update_of_ne (by omega), hmarked.freeLists, h.above k (by omega)]
  · rw [hlists, Function.update_of_ne (by decide), hmarked.freeLists, h.head]
  · rw [load_congr fun x hx => hmem x (hplaced.not_inBitmap hbitmap hwords
      (covers_pool_of_second (by decide) hx)), load_store_apart (apart_second_first kernelEnd),
      hmarked.load_eq (by rw [h.words]; decide) fun x hx => hplaced.not_inBitmap h.bitmap h.words
        (covers_pool_of_second (by decide) hx), h.unlinked]
  · rw [hlists, Function.update_self]
  · rw [load_congr fun x hx => hmem x (hplaced.not_inBitmap hbitmap hwords
      (covers_pool_of_first hx)), load_store_same, hempty]

theorem Holding.setMem (h : Holding kernelEnd c) (mem : Memory) :
    Holding kernelEnd { c with mm := c.mm.setMem mem } :=
  ⟨h.pool, h.head, h.above, h.live⟩

theorem Holding.returned (h : Holding kernelEnd c)
    (hstep : step c (.free ⟨secondPage kernelEnd, 0⟩) = some c') : Returned kernelEnd c' := by
  refine ⟨(step_pool hstep).trans h.pool, fun k hk => ?_, ?_⟩
  · obtain ⟨mm, hfree, rfl⟩ := Option.map_eq_some_iff.mp hstep
    have hkept := freePages_freeLists (h.above 1 Nat.one_pos) hfree hk
    exact hkept.trans (h.above k (by omega))
  · obtain ⟨mm, -, rfl⟩ := Option.map_eq_some_iff.mp hstep
    rw [h.live, List.erase_cons_head]

end SecondPage

section FirstBlock

variable {m : Memory} {kernelEnd staticBitmap : Word}

theorem freeLists_start (k : Nat) :
    (start m kernelEnd staticBitmap).mm.buddy.freeLists k =
      if k = 0 then alignedPoolStart kernelEnd else 0 := by
  by_cases hk : k = 0
  · rw [if_pos hk, hk]
    rfl
  · rw [if_neg hk]
    exact Function.update_of_ne hk _ _

/-- The state in which a client has the second page. -/
def afterFirst (m : Memory) (kernelEnd staticBitmap : Word) : Clients where
  mm := popBlock (start m kernelEnd staticBitmap).mm 0
  live := [⟨secondPage kernelEnd, 0⟩]

theorem step_first (m : Memory) (staticBitmap : Word)
    (hstart : alignedPoolStart kernelEnd ≠ 0) :
    step (start m kernelEnd staticBitmap) (.alloc 0) =
      some (afterFirst m kernelEnd staticBitmap) := by
  rw [step_alloc_zero (pool_start m kernelEnd staticBitmap) hstart, secondNode_start]
  rfl

theorem holding_afterFirst : Holding kernelEnd (afterFirst m kernelEnd staticBitmap) where
  pool := rfl
  head := (popBlock_freeLists_self _ _).trans (secondNode_start m kernelEnd staticBitmap)
  above k hk := by
    have hother : (afterFirst m kernelEnd staticBitmap).mm.buddy.freeLists k =
        (start m kernelEnd staticBitmap).mm.buddy.freeLists k := Function.update_of_ne hk.ne' _ _
    rw [hother, freeLists_start, if_neg hk.ne']
  live := rfl

/-- The client clears the first word of the page it holds. -/
def cleared (kernelEnd : Word) (c : Clients) : Clients :=
  { c with mm := c.mm.setMem (memset c.mm.mem (secondPage kernelEnd) 0 8) }

theorem buddyIsAllocated_of_zero {b : Buddy} {mem : Memory} {i : Word} (hbit : HasBit b i)
    (hwords : b.bitmapWords.toNat * 8 ≤ 2 ^ 64) (h : ∀ x, InBitmap b x → mem x = 0) :
    buddyIsAllocated b mem i = false := by
  rw [buddyIsAllocated_eq hbit, bit, load_of_zero fun x hx => h x (covers_word hbit hwords hx),
    BitVec.ofNat_eq_ofNat, BitVec.getLsbD_zero]

theorem bitmap_start (hplaced : Placed kernelEnd staticBitmap) {x : Word}
    (hx : Covers staticBitmap (1024 * 8) x) : (start m kernelEnd staticBitmap).mm.mem x = 0 := by
  have hpages : initialPoolPages = 16384 := initialPoolPages_eq
  have hfar : ¬ Covers (alignedPoolStart kernelEnd) (initialPoolPages * 8) x := by
    intro hlink
    exact hplaced.outside x (lt_of_lt_of_le hlink (by omega)) hx
  have hmem := mmInit_mem (boot m) kernelEnd staticBitmap
  rw [start, hmem, writeLinks_of_not_covers (by omega) (by omega) hfar,
    memset_of_covers (by decide) hx]

theorem buddyIsAllocated_popBlock {s : MM} (hwords : s.buddy.bitmapWords.toNat * 8 ≤ 2 ^ 64)
    {i : Word} (hi : buddyPhysToIdx s.buddy (secondNode s 0) 0 ≠ i) :
    buddyIsAllocated (popBlock s 0).buddy (popBlock s 0).mem i =
      buddyIsAllocated s.buddy s.mem i := by
  change buddyIsAllocated s.buddy (setAllocatedRange s.buddy s.mem
    (buddyPhysToIdx s.buddy (secondNode s 0) 0) 1 true) i = _
  refine buddyIsAllocated_range_of_not_mem hwords fun k hk => ?_
  obtain rfl : k = 0 := by omega
  rw [BitVec.add_zero]
  exact hi

theorem unmarked_afterFirst (hplaced : Placed kernelEnd staticBitmap) :
    buddyIsAllocated (afterFirst m kernelEnd staticBitmap).mm.buddy
      (afterFirst m kernelEnd staticBitmap).mm.mem 0 = false := by
  obtain ⟨s, hs⟩ : ∃ s, (start m kernelEnd staticBitmap).mm = s := ⟨_, rfl⟩
  have hstart : s.buddy.poolStart = alignedPoolStart kernelEnd := hs ▸ rfl
  have hbitmap : s.buddy.bitmap = staticBitmap := hs ▸ rfl
  have hwords : s.buddy.bitmapWords = 1024 := hs ▸ rfl
  have hfits : s.buddy.bitmapWords.toNat * 8 ≤ 2 ^ 64 := by
    rw [hwords]
    decide
  have hnode : secondNode s 0 = secondPage kernelEnd := hs ▸ secondNode_start m kernelEnd _
  rw [afterFirst, hs, buddyIsAllocated_popBlock hfits]
  · refine buddyIsAllocated_of_zero (by rw [HasBit, hwords]; decide) hfits fun x hx => ?_
    rw [InBitmap, hbitmap, hwords] at hx
    rw [← hs]
    exact bitmap_start hplaced hx
  · rw [hnode, buddyPhysToIdx, hstart, secondPage, BitVec.add_comm, BitVec.add_sub_cancel]
    decide

theorem Holding.wiped {c : Clients} (hplaced : Placed kernelEnd staticBitmap)
    (h : Holding kernelEnd c) (hbitmap : c.mm.buddy.bitmap = staticBitmap)
    (hwords : c.mm.buddy.bitmapWords = 1024)
    (hmarked : buddyIsAllocated c.mm.buddy c.mm.mem 0 = false) :
    Wiped kernelEnd staticBitmap (cleared kernelEnd c) where
  toHolding := h.setMem _
  bitmap := hbitmap
  words := hwords
  unlinked := load_of_zero fun x hx => memset_of_covers (by decide) hx
  unmarked := by
    have hfits : c.mm.buddy.bitmapWords.toNat * 8 ≤ 2 ^ 64 := by
      rw [hwords]
      decide
    rw [← hmarked]
    refine buddyIsAllocated_congr (b := c.mm.buddy) hfits (fun x hx => ?_) 0
    exact memset_of_not_covers (by decide) fun hpage =>
      hplaced.not_inBitmap hbitmap hwords (covers_pool_of_second (by decide) hpage) hx

end FirstBlock

end ShlteOs.PageReturn
