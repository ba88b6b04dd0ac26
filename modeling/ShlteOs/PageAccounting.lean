import Mathlib.Algebra.BigOperators.Group.List.Basic
import ShlteOs.PageClients

/-!
The free-page count.  `alloc_pages` takes the whole block it found out of the
count and every half it puts back once more; `free_pages` adds the pages of the
buddies it merges with, and of the freed block only what the merge left over.
The count agrees with the blocks in use exactly in the runs in which no block
is split and every freed block meets a buddy that its bitmap shows as free and
no list holds.
-/

namespace ShlteOs.PageAccounting

open ShlteOs.ByteMemory
open ShlteOs.CallSequence
open ShlteOs.PageAllocator
open ShlteOs.PageAllocatorSteps
open ShlteOs.InitialFreeList
open ShlteOs.PageClients

/-- The number of free pages the allocator reports. -/
def count (c : Clients) : Nat := (buddyFreePages c.mm).toNat

/-- The pages of the blocks that are held. -/
def livePages (live : List Block) : Nat := (live.map fun b => 2 ^ b.order).sum

/-- The count moves by the size of the block. -/
def Settles (c c' : Clients) : PageCall → Prop
  | .alloc order =>
      match (allocPages c.mm order).1 with
      | none => count c' = count c
      | some _ => count c' + 2 ^ order = count c
  | .free b => count c' = count c + 2 ^ b.order
  | .write _ _ => count c' = count c

/-- The call returns, changes the count by the pages it moves, and the count and
the pages in use make up the pool. -/
def Accounted (c : Clients) (call : PageCall) : Prop :=
  ∃ c', step c call = some c' ∧ Settles c c' call ∧
    count c' + livePages c'.live = c'.mm.buddy.poolPages.toNat

/-- A request is served from the list of its own order, with enough pages left
in the count; a block is freed onto an empty list, aligned, below the top
order, next to a buddy whose pages the bitmap shows as free. -/
def Balanced (c : Clients) : PageCall → Prop
  | .alloc order => ∀ found, Finds c.mm order found → found = order ∧ 2 ^ order ≤ count c
  | .free b => FreeCountsOnce c.mm b.addr b.order
  | .write _ _ => True

/-- The pool is that of `mm_init`, and every page is free or held. -/
structure Consistent (kernelEnd : Word) (c : Clients) : Prop where
  pool : pool c.mm = initialPool kernelEnd
  total : count c + livePages c.live = 16384
  orders : ∀ b ∈ c.live, b.order < maxOrderBits

theorem Consistent.initialized {kernelEnd : Word} {c : Clients} (h : Consistent kernelEnd c) :
    c.mm.buddy.initialized = true :=
  congrArg (fun p => p.2.2) h.pool

theorem consistent_start (m : Memory) (kernelEnd staticBitmap : Word) :
    Consistent kernelEnd (start m kernelEnd staticBitmap) where
  pool := rfl
  total := by
    change (BitVec.ofNat 64 initialPoolPages).toNat + livePages [] = 16384
    rw [initialPoolPages_eq]
    rfl
  orders := by simp [start]

theorem livePages_erase {live : List Block} {b : Block} (h : b ∈ live) :
    livePages (live.erase b) + 2 ^ b.order = livePages live := by
  have hperm := (List.perm_cons_erase h).map fun b : Block => 2 ^ b.order
  have hsum := hperm.sum_eq
  rw [List.map_cons, List.sum_cons] at hsum
  rw [livePages, livePages]
  omega

theorem alloc_settles_iff {s s' : MM} {order found : Nat}
    (hle : order ≤ found) (hlt : found < maxOrderBits)
    (hcount : s'.buddy.freeCount =
      s.buddy.freeCount - BitVec.ofNat 64 (2 ^ found + (2 ^ found - 2 ^ order)))
    (hsmall : s.buddy.freeCount.toNat ≤ 16384) :
    s'.buddy.freeCount.toNat + 2 ^ order = s.buddy.freeCount.toNat ↔
      found = order ∧ 2 ^ order ≤ s.buddy.freeCount.toNat := by
  have hfound := two_pow_le_of_lt hlt
  have hmono : 2 ^ order ≤ 2 ^ found := Nat.pow_le_pow_right (by decide) hle
  have hval := congrArg BitVec.toNat hcount
  rw [BitVec.toNat_sub, BitVec.toNat_ofNat] at hval
  have hpos : 0 < 2 ^ order := by positivity
  constructor
  · intro h
    have heq : 2 ^ found = 2 ^ order := by omega
    exact ⟨Nat.pow_right_injective le_rfl heq, by omega⟩
  · rintro ⟨rfl, hge⟩
    omega

theorem free_settles_iff {s s' : MM} {b : Block}
    (hinit : s.buddy.initialized = true) (horder : b.order < maxOrderBits)
    (hsmall : s.buddy.freeCount.toNat ≤ 16384)
    (hfree : freePages s b.addr b.order = some s') :
    s'.buddy.freeCount.toNat = s.buddy.freeCount.toNat + 2 ^ b.order ↔
      FreeCountsOnce s b.addr b.order := by
  have hpow := two_pow_le_of_lt horder
  have hpos : 0 < 2 ^ b.order := by positivity
  constructor
  · intro h
    by_contra honce
    obtain ⟨-, d, hd, hne, hcount⟩ := freePages_of_not_countsOnce hinit horder honce hfree
    have hval := congrArg BitVec.toNat hcount
    rw [BitVec.toNat_add, BitVec.toNat_ofNat] at hval
    omega
  · intro honce
    obtain ⟨t, ht, hcount, -⟩ := freePages_of_countsOnce hinit honce
    rw [hfree] at ht
    cases ht
    have hval := congrArg BitVec.toNat hcount
    rw [BitVec.toNat_add, BitVec.toNat_ofNat] at hval
    omega

theorem total_of_settles {kernelEnd : Word} {c c' : Clients} {call : PageCall}
    (hinv : Consistent kernelEnd c) (hlegal : Legal c call) (hstep : step c call = some c')
    (hsettles : Settles c c' call) : count c' + livePages c'.live = 16384 := by
  have htotal := hinv.total
  cases call with
  | alloc order =>
      simp only [Settles] at hsettles
      simp only [step] at hstep
      cases halloc : allocPages c.mm order with
      | mk addr mm =>
          rw [halloc] at hsettles hstep
          cases addr with
          | none =>
              cases hstep
              exact hsettles ▸ htotal
          | some addr =>
              cases hstep
              simp only [livePages, List.map_cons, List.sum_cons] at *
              omega
  | free b =>
      obtain ⟨mm, hmm, rfl⟩ := Option.map_eq_some_iff.mp hstep
      have herase := livePages_erase (show b ∈ c.live from hlegal)
      simp only [Settles] at hsettles
      dsimp only
      omega
  | write x v =>
      cases hstep
      exact htotal

theorem orders_of_step {c c' : Clients} {call : PageCall}
    (h : ∀ b ∈ c.live, b.order < maxOrderBits) (hstep : step c call = some c') :
    ∀ b ∈ c'.live, b.order < maxOrderBits := by
  cases call with
  | alloc order =>
      simp only [step] at hstep
      rcases allocPages_cases c.mm order with ⟨hfail, -⟩ | ⟨found, mm, hfinds, hok, -, -⟩
      · rw [hfail] at hstep
        cases hstep
        exact h
      · rw [hok] at hstep
        cases hstep
        intro b hb
        rcases List.mem_cons.mp hb with rfl | hb
        · exact hfinds.2.1
        · exact h b hb
  | free b =>
      obtain ⟨mm, -, rfl⟩ := Option.map_eq_some_iff.mp hstep
      exact fun a ha => h a (List.mem_of_mem_erase ha)
  | write x v =>
      cases hstep
      exact h

theorem Consistent.step {kernelEnd : Word} {c c' : Clients} {call : PageCall}
    (hinv : Consistent kernelEnd c) (hlegal : Legal c call) (haccounted : Accounted c call)
    (hstep : PageClients.step c call = some c') : Consistent kernelEnd c' := by
  obtain ⟨d, hd, hsettles, -⟩ := haccounted
  rw [hstep] at hd
  cases hd
  exact ⟨(step_pool hstep).trans hinv.pool, total_of_settles hinv hlegal hstep hsettles,
    orders_of_step hinv.orders hstep⟩

theorem Consistent.freeCount_le {kernelEnd : Word} {c : Clients} (hinv : Consistent kernelEnd c) :
    c.mm.buddy.freeCount.toNat ≤ 16384 := by
  have htotal := hinv.total
  simp only [count, buddyFreePages] at htotal
  omega

theorem accounted_of_settles {kernelEnd : Word} {c c' : Clients} {call : PageCall}
    (hinv : Consistent kernelEnd c) (hlegal : Legal c call) (hstep : step c call = some c')
    (hsettles : Settles c c' call) : Accounted c call := by
  refine ⟨c', hstep, hsettles, ?_⟩
  rw [poolPages_of_pool ((step_pool hstep).trans hinv.pool)]
  exact total_of_settles hinv hlegal hstep hsettles

theorem accounted_alloc_iff {kernelEnd : Word} {c : Clients} {order : Nat}
    (hinv : Consistent kernelEnd c) (hlegal : Legal c (.alloc order)) :
    Accounted c (.alloc order) ↔ Balanced c (.alloc order) := by
  rcases allocPages_cases c.mm order with
    ⟨hfail, hnone⟩ | ⟨found, mm, hfinds, hok, hcount, -⟩
  · have hstep : step c (.alloc order) = some { c with mm := c.mm } := by
      simp only [step, hfail]
    refine iff_of_true (accounted_of_settles hinv hlegal hstep ?_)
      fun found h => absurd h (hnone found)
    simp only [Settles, hfail]
  · have hiff := alloc_settles_iff hfinds.order_le hfinds.found_lt hcount hinv.freeCount_le
    have hunique : ∀ k, Finds c.mm order k → k = found := by
      intro k hk
      exact Option.some_inj.mp (hk.2.2.2.symm.trans hfinds.2.2.2)
    constructor
    · rintro ⟨c', hstep, hsettles, -⟩ k hk
      rw [hunique k hk]
      simp only [step, hok] at hstep
      simp only [Settles, hok] at hsettles
      cases hstep
      exact hiff.mp hsettles
    · intro hbalanced
      have hstep : step c (.alloc order) = some
          { mm := mm, live := ⟨secondNode c.mm found +
            BitVec.ofNat 64 ((2 ^ found - 2 ^ order) * 4096), order⟩ :: c.live } := by
        simp only [step, hok]
      apply accounted_of_settles hinv hlegal hstep
      simp only [Settles, hok]
      exact hiff.mpr (hbalanced found hfinds)

theorem accounted_free_iff {kernelEnd : Word} {c : Clients} {b : Block}
    (hinv : Consistent kernelEnd c) (hlegal : Legal c (.free b)) :
    Accounted c (.free b) ↔ Balanced c (.free b) := by
  have horder : b.order < maxOrderBits := hinv.orders b hlegal
  constructor
  · rintro ⟨c', hstep, hsettles, -⟩
    obtain ⟨mm, hmm, rfl⟩ := Option.map_eq_some_iff.mp hstep
    exact (free_settles_iff hinv.initialized horder hinv.freeCount_le hmm).mp hsettles
  · intro hbalanced
    obtain ⟨mm, hmm, -, -⟩ := freePages_of_countsOnce hinv.initialized hbalanced
    have hstep : step c (.free b) = some { mm := mm, live := c.live.erase b } := by
      simp only [step, hmm, Option.map_some]
    exact accounted_of_settles hinv hlegal hstep
      ((free_settles_iff hinv.initialized horder hinv.freeCount_le hmm).mpr hbalanced)

theorem accounted_iff_balanced {kernelEnd : Word} {c : Clients} {call : PageCall}
    (hinv : Consistent kernelEnd c) (hlegal : Legal c call) :
    Accounted c call ↔ Balanced c call := by
  cases call with
  | alloc order => exact accounted_alloc_iff hinv hlegal
  | free b => exact accounted_free_iff hinv hlegal
  | write x v => exact iff_of_true (accounted_of_settles hinv hlegal rfl rfl) trivial

/-- Along every legal run the count is right at every call exactly when every
call is balanced. -/
theorem accounted_along_iff_balanced (m : Memory) (kernelEnd staticBitmap : Word)
    (calls : List PageCall)
    (hlegal : Along step Legal (start m kernelEnd staticBitmap) calls) :
    Along step Accounted (start m kernelEnd staticBitmap) calls ↔
      Along step Balanced (start m kernelEnd staticBitmap) calls := by
  apply Along.iff_of_invariant (Consistent kernelEnd) _ _
    (consistent_start m kernelEnd staticBitmap) hlegal
  · intro c call hinv hl
    exact accounted_iff_balanced hinv hl
  · intro c call c' hinv hl haccounted hstep
    exact hinv.step hl haccounted hstep

theorem step_first_page (m : Memory) (staticBitmap : Word) :
    step (start m 0x200000 staticBitmap) (.alloc 0) =
      some { mm := popBlock (start m 0x200000 staticBitmap).mm 0,
             live := [⟨0x201000, 0⟩] } := by
  have hfirst : secondNode (start m 0x200000 staticBitmap).mm 0 = 0x201000 :=
    (secondNode_start m 0x200000 staticBitmap).trans (by decide)
  rw [step_alloc_zero (pool_start m 0x200000 staticBitmap)
    (by change alignedPoolStart 0x200000 ≠ 0; decide), hfirst]
  rfl

theorem balanced_first_page (m : Memory) (staticBitmap : Word) :
    Balanced (start m 0x200000 staticBitmap) (.alloc 0) := by
  intro found hfinds
  have hhead : alignedPoolStart 0x200000 ≠ 0 := by decide
  have hfound : found = 0 := hfinds.eq_zero_of_head hhead
  have htotal := (consistent_start m 0x200000 staticBitmap).total
  refine ⟨hfound, ?_⟩
  change count (start m 0x200000 staticBitmap) + 0 = 16384 at htotal
  omega

theorem accounted_along_first_page :
    Along step Accounted (start (fun _ => 0) 0x200000 0x100000) [.alloc 0] :=
  (accounted_along_iff_balanced (fun _ => 0) 0x200000 0x100000 [.alloc 0]
    ⟨trivial, fun _ _ => trivial⟩).mpr ⟨balanced_first_page _ _, fun _ _ => trivial⟩

/-- Taking a page and giving it back leaves the count wrong: the page is still
the head of its list when it is freed. -/
theorem alloc_free_not_accounted :
    Along step Legal (start (fun _ => 0) 0x200000 0x100000)
        [.alloc 0, .free ⟨0x201000, 0⟩] ∧
      ¬ Along step Accounted (start (fun _ => 0) 0x200000 0x100000)
        [.alloc 0, .free ⟨0x201000, 0⟩] := by
  have hstep := step_first_page (fun _ => 0) 0x100000
  have hheld : (⟨0x201000, 0⟩ : Block) ∈ [(⟨0x201000, 0⟩ : Block)] := by simp
  constructor
  · refine ⟨trivial, ?_⟩
    intro c' hc'
    obtain rfl := Option.some_inj.mp (hstep.symm.trans hc')
    exact ⟨hheld, fun _ _ => trivial⟩
  · rintro ⟨hfirst, hrest⟩
    have hlegal : Legal (start (fun _ => 0) 0x200000 0x100000) (.alloc 0) := trivial
    have hinv := (consistent_start (fun _ => 0) 0x200000 0x100000).step hlegal hfirst hstep
    have hfree := (hrest _ hstep).1
    have hempty := ((accounted_iff_balanced hinv (show Legal _ (.free _) from hheld)).mp
      hfree).2.2.2
    rw [popBlock_freeLists_self, secondNode_start] at hempty
    exact absurd hempty (by decide)

end ShlteOs.PageAccounting
