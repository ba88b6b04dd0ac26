import ShlteOs.PageReturn

/-!
Safety of the blocks `alloc_pages` hands out.  The call does not take the head
of the list it finds but the node behind it, and that node stays linked as the
new head; from then on the allocator follows a link that lies in a block a
client has held.  A sequence of requests is therefore safe against what clients
store into their blocks exactly if it takes a single block.
-/

namespace ShlteOs.PageSafety

open ShlteOs.ByteMemory
open ShlteOs.CallSequence
open ShlteOs.PageAllocator
open ShlteOs.PageAllocatorSteps
open ShlteOs.InitialFreeList
open ShlteOs.PageClients
open ShlteOs.PageReturn

section Statement

/-- A successful `alloc_pages` hands out a free block of the pool. -/
def Safe (c : Clients) : PageCall → Prop
  | .alloc order => ∀ addr mm, allocPages c.mm order = (some addr, mm) →
      FreeBlock c.mm c.live ⟨addr, order⟩
  | _ => True

/-- The calls of the allocator, as opposed to the stores of its clients. -/
def isRequest : PageCall → Bool
  | .write _ _ => false
  | _ => true

def requests (run : List PageCall) : List PageCall := run.filter isRequest

/-- The call is an `alloc_pages` for which some list of its order or above is not
empty. -/
def takes (c : Clients) : PageCall → Bool
  | .alloc order => (searchOrder c.mm.buddy.freeLists order).isSome
  | _ => false

/-- The number of such calls in a run. -/
def taken (c : Clients) : List PageCall → Nat
  | [] => 0
  | call :: calls => (takes c call).toNat + ((step c call).map fun c => taken c calls).getD 0

end Statement

section Taking

variable {c : Clients} {kernelEnd : Word} {order : Nat}

theorem takes_iff_finds (hpool : pool c.mm = initialPool kernelEnd) :
    takes c (.alloc order) = true ↔ ∃ found, Finds c.mm order found := by
  have hinit : c.mm.buddy.initialized = true := congrArg (fun p => p.2.2) hpool
  have hpages := poolPages_ne_zero_of_pool hpool
  rw [takes, Option.isSome_iff_exists]
  refine exists_congr fun found => ⟨fun hsearch => ?_, fun hfinds => hfinds.2.2.2⟩
  obtain ⟨-, hle, hlt, -⟩ := searchOrder_eq_some_iff.mp hsearch
  exact ⟨hinit, by omega, fun h => hpages h.2, hsearch⟩

theorem takes_eq_false_iff :
    takes c (.alloc order) = false ↔
      ∀ k, order ≤ k → k < maxOrderBits → c.mm.buddy.freeLists k = 0 := by
  rw [takes, Option.isSome_eq_false_iff, Option.isNone_iff_eq_none, searchOrder,
    List.find?_eq_none]
  simp only [List.mem_range'_1, bne_iff_ne, ne_eq, not_not]
  refine ⟨fun h k hle hlt => h k ⟨hle, by omega⟩, fun h k hk => h k hk.1 (by omega)⟩

theorem allocPages_of_not_takes (hpool : pool c.mm = initialPool kernelEnd)
    (h : takes c (.alloc order) = false) : allocPages c.mm order = (none, c.mm) := by
  apply allocPages_of_not_finds
  intro found hfinds
  rw [(takes_iff_finds hpool).mpr ⟨found, hfinds⟩] at h
  cases h

theorem step_of_not_takes (hpool : pool c.mm = initialPool kernelEnd)
    (h : takes c (.alloc order) = false) : step c (.alloc order) = some c := by
  rw [step, allocPages_of_not_takes hpool h]

theorem safe_of_not_takes (hpool : pool c.mm = initialPool kernelEnd) {call : PageCall}
    (h : takes c call = false) : Safe c call := by
  cases call with
  | free b => trivial
  | write x v => trivial
  | alloc order =>
      intro addr mm halloc
      rw [allocPages_of_not_takes hpool h] at halloc
      cases halloc

theorem takes_write (x : Word) (v : Byte) : takes c (.write x v) = false := rfl

theorem takes_free (b : Block) : takes c (.free b) = false := rfl

theorem taken_cons {call : PageCall} {c' : Clients} (hstep : step c call = some c')
    (calls : List PageCall) : taken c (call :: calls) = (takes c call).toNat + taken c' calls := by
  rw [taken, hstep, Option.map_some, Option.getD_some]

theorem taken_cons_of_not_takes (hpool : pool c.mm = initialPool kernelEnd)
    (h : takes c (.alloc order) = false) (calls : List PageCall) :
    taken c (.alloc order :: calls) = taken c calls := by
  rw [taken_cons (step_of_not_takes hpool h), h, Bool.toNat_false, Nat.zero_add]

theorem taken_le_requests (c : Clients) (run : List PageCall) :
    taken c run ≤ (requests run).length := by
  induction run generalizing c with
  | nil => exact le_rfl
  | cons call calls ih =>
      have hcall : (takes c call).toNat ≤ (isRequest call).toNat := by
        cases call with
        | alloc order => exact Bool.toNat_le _
        | free b => exact Nat.zero_le _
        | write x v => exact le_rfl
      have hrest : ((step c call).map fun c => taken c calls).getD 0 ≤ (requests calls).length := by
        cases step c call with
        | none => exact Nat.zero_le _
        | some c' => exact ih c'
      rw [taken, requests, List.filter_cons]
      cases hrequest : isRequest call with
      | false =>
          rw [hrequest, Bool.toNat_false] at hcall
          rw [if_neg (by decide)]
          exact (Nat.add_le_add hcall hrest).trans (Nat.zero_add _).le
      | true =>
          rw [hrequest, Bool.toNat_true] at hcall
          rw [if_pos rfl, List.length_cons, Nat.add_comm]
          exact Nat.add_le_add hrest hcall

theorem safe_along_of_taken_zero {run : List PageCall} (hpool : pool c.mm = initialPool kernelEnd)
    (h : taken c run = 0) : Along step Safe c run := by
  induction run generalizing c with
  | nil => trivial
  | cons call calls ih =>
      rw [taken] at h
      have hnone : takes c call = false := by
        cases htakes : takes c call with
        | false => rfl
        | true =>
            rw [htakes, Bool.toNat_true] at h
            omega
      refine ⟨safe_of_not_takes hpool hnone, fun c' hstep => ?_⟩
      apply ih ((step_pool hstep).trans hpool)
      rw [hstep, Option.map_some, Option.getD_some] at h
      omega

end Taking

section FirstBlock

variable {m : Memory} {kernelEnd staticBitmap : Word}

theorem takes_start {order : Nat}
    (h : takes (start m kernelEnd staticBitmap) (.alloc order) = true) :
    order = 0 ∧ alignedPoolStart kernelEnd ≠ 0 := by
  obtain ⟨found, hfinds⟩ := (takes_iff_finds (pool_start m kernelEnd staticBitmap)).mp h
  obtain ⟨hne, hle, -, -⟩ := searchOrder_eq_some_iff.mp hfinds.2.2.2
  rw [freeLists_start] at hne
  by_cases hfound : found = 0
  · rw [if_pos hfound] at hne
    exact ⟨by omega, hne⟩
  · rw [if_neg hfound] at hne
    exact absurd rfl hne

theorem legal_start {call : PageCall} (h : Legal (start m kernelEnd staticBitmap) call) :
    ∃ order, call = .alloc order := by
  cases call with
  | alloc order => exact ⟨order, rfl⟩
  | free b => exact absurd h List.not_mem_nil
  | write x v =>
      obtain ⟨b, hb, -⟩ := h
      exact absurd hb List.not_mem_nil

theorem safe_first_page (hstart : alignedPoolStart kernelEnd ≠ 0) :
    Safe (start m kernelEnd staticBitmap) (.alloc 0) := by
  intro addr mm halloc
  have hfirst : allocPages (start m kernelEnd staticBitmap).mm 0 = _ :=
    allocPages_mmInit (boot m) kernelEnd staticBitmap hstart
  rw [hfirst] at halloc
  obtain rfl := Option.some.inj (congrArg Prod.fst halloc)
  refine ⟨?_, fun b hb => absurd hb List.not_mem_nil⟩
  have hoffset : (⟨alignedPoolStart kernelEnd + pageSize, 0⟩ : Block).offset
      (start m kernelEnd staticBitmap).mm = 4096 := by
    change (alignedPoolStart kernelEnd + BitVec.ofNat 64 4096 -
      alignedPoolStart kernelEnd).toNat = 4096
    rw [add_ofNat_sub_self]
    rfl
  rw [Block.InPool, hoffset, poolPages_of_pool (pool_start m kernelEnd staticBitmap)]
  simp [Block.bytes]

theorem safe_along_of_taken_le_one {run : List PageCall}
    (hlegal : Along step Legal (start m kernelEnd staticBitmap) run)
    (h : taken (start m kernelEnd staticBitmap) run ≤ 1) :
    Along step Safe (start m kernelEnd staticBitmap) run := by
  have hpool := pool_start m kernelEnd staticBitmap
  induction run with
  | nil => trivial
  | cons call calls ih =>
      obtain ⟨hcall, hrest⟩ := hlegal
      obtain ⟨order, rfl⟩ := legal_start hcall
      cases htakes : takes (start m kernelEnd staticBitmap) (.alloc order) with
      | false =>
          have hsame := step_of_not_takes hpool htakes
          refine ⟨safe_of_not_takes hpool htakes, fun c' hstep => ?_⟩
          rw [hsame] at hstep
          cases hstep
          rw [taken_cons_of_not_takes hpool htakes] at h
          exact ih (hrest _ hsame) h
      | true =>
          obtain ⟨rfl, hstart⟩ := takes_start htakes
          refine ⟨safe_first_page hstart, fun c' hstep => ?_⟩
          apply safe_along_of_taken_zero ((step_pool hstep).trans hpool)
          rw [taken_cons hstep, htakes, Bool.toNat_true] at h
          omega

end FirstBlock

section Adversary

variable {m : Memory} {kernelEnd staticBitmap : Word} {c c' : Clients}

theorem not_safe_of_unlinked (hplaced : Placed kernelEnd staticBitmap)
    (hstart : alignedPoolStart kernelEnd ≠ 0) (hpool : pool c.mm = initialPool kernelEnd)
    {order : Nat} (horder : order < maxOrderBits) (hhead : c.mm.buddy.freeLists order ≠ 0)
    (hlink : load c.mm.mem (c.mm.buddy.freeLists order) = 0) : ¬ Safe c (.alloc order) := by
  have hsearch : searchOrder c.mm.buddy.freeLists order = some order :=
    searchOrder_eq_some_iff.mpr ⟨hhead, le_rfl, horder, by omega⟩
  obtain ⟨found, hfinds⟩ := (takes_iff_finds hpool).mp (by rw [takes, hsearch]; rfl)
  obtain rfl : order = found := Option.some.inj (hsearch.symm.trans hfinds.2.2.2)
  intro hsafe
  have halloc := allocPages_of_finds hfinds
  rw [Nat.sub_self, splitLoop, secondNode, hlink] at halloc
  exact hplaced.not_inPool hstart hpool order (hsafe _ _ halloc).1

/-- A run that makes the same requests as far as it goes, and is not safe. -/
def Breaks (c : Clients) (rs : List PageCall) : Prop :=
  ∃ run, requests run <+: rs ∧ Along step Legal c run ∧ ¬ Along step Safe c run

theorem breaks_of_not_safe {call : PageCall} (hlegal : Legal c call)
    (h : ¬ Safe c call) {rs : List PageCall} (hrequest : isRequest call = true) :
    Breaks c (call :: rs) := by
  refine ⟨[call], ?_, ⟨hlegal, fun _ _ => trivial⟩, fun hsafe => h hsafe.1⟩
  rw [requests, List.filter_cons_of_pos hrequest, List.filter_nil]
  exact List.cons_prefix_cons.mpr ⟨rfl, List.nil_prefix⟩

theorem Breaks.cons {call : PageCall} (hlegal : Legal c call) (hstep : step c call = some c')
    {rs : List PageCall} (hrequest : isRequest call = true) (h : Breaks c' rs) :
    Breaks c (call :: rs) := by
  obtain ⟨run, hprefix, hrun, hunsafe⟩ := h
  refine ⟨call :: run, ?_, ⟨hlegal, fun c'' hc'' => ?_⟩, fun hsafe => hunsafe (hsafe.2 c' hstep)⟩
  · rw [requests, List.filter_cons_of_pos hrequest]
    exact List.cons_prefix_cons.mpr ⟨rfl, hprefix⟩
  · obtain rfl := Option.some.inj (hstep.symm.trans hc'')
    exact hrun

theorem breaks_of_refused (hpool : pool c.mm = initialPool kernelEnd) {order : Nat}
    (hnone : takes c (.alloc order) = false) {rs : List PageCall} (h : Breaks c rs) :
    Breaks c (.alloc order :: rs) :=
  .cons (show Legal c (.alloc order) from trivial) (step_of_not_takes hpool hnone) rfl h

theorem Breaks.write {x : Word} {v : Byte} (hlegal : Legal c (.write x v)) {rs : List PageCall}
    (h : Breaks { c with mm := c.mm.setMem (storeByte c.mm.mem x v) } rs) : Breaks c rs := by
  obtain ⟨run, hprefix, hrun, hunsafe⟩ := h
  refine ⟨.write x v :: run, hprefix, ⟨hlegal, fun c'' hc'' => ?_⟩,
    fun hsafe => hunsafe (hsafe.2 _ rfl)⟩
  obtain rfl := Option.some.inj hc''
  exact hrun

theorem Breaks.clear (n : Nat) {a : Word} (hlegal : ∀ i < n, ∃ b ∈ c.live,
      Covers b.addr b.bytes (a + BitVec.ofNat 64 i)) {rs : List PageCall}
    (h : Breaks { c with mm := c.mm.setMem (memset c.mm.mem a 0 n) } rs) : Breaks c rs := by
  induction n generalizing a c with
  | zero => exact h
  | succ n ih =>
      have hfirst := hlegal 0 (Nat.succ_pos n)
      rw [BitVec.add_zero] at hfirst
      refine Breaks.write (v := 0) hfirst (ih (fun i hi => ?_) h)
      have hbehind := hlegal (i + 1) (Nat.succ_lt_succ hi)
      rw [add_ofNat_succ] at hbehind
      exact hbehind

theorem breaks_of_returned (hplaced : Placed kernelEnd staticBitmap)
    (hstart : alignedPoolStart kernelEnd ≠ 0) {run : List PageCall} (h : Returned kernelEnd c)
    (h' : Spent kernelEnd c') (hlegal : Along step Legal c run) (htaken : 0 < taken c run) :
    Breaks c' (requests run) := by
  induction run with
  | nil => exact absurd htaken (lt_irrefl 0)
  | cons call run ih =>
      obtain ⟨hcall, hrest⟩ := hlegal
      cases call with
      | free b =>
          rw [Legal, h.live] at hcall
          exact absurd hcall List.not_mem_nil
      | write x v =>
          obtain ⟨b, hb, -⟩ := hcall
          rw [h.live] at hb
          exact absurd hb List.not_mem_nil
      | alloc order =>
          rcases Nat.lt_or_ge order 2 with hlow | hhigh
          · refine breaks_of_not_safe (show Legal c' (.alloc order) from trivial) ?_ rfl
            interval_cases order
            · exact not_safe_of_unlinked hplaced hstart h'.pool (by decide)
                (h'.page ▸ secondPage_ne_zero kernelEnd) (by rw [h'.page, h'.pageLink])
            · exact not_safe_of_unlinked hplaced hstart h'.pool (by decide) (h'.pair ▸ hstart)
                (by rw [h'.pair, h'.pairLink])
          · have hnone : takes c (.alloc order) = false :=
              takes_eq_false_iff.mpr fun k hk _ => h.above k (hhigh.trans hk)
            have hnone' : takes c' (.alloc order) = false :=
              takes_eq_false_iff.mpr fun k hk _ => h'.above k (hhigh.trans hk)
            rw [taken_cons_of_not_takes h.pool hnone] at htaken
            refine breaks_of_refused h'.pool hnone' (ih ?_ htaken)
            exact hrest c (step_of_not_takes h.pool hnone)

theorem breaks_of_holding (hplaced : Placed kernelEnd staticBitmap)
    (hstart : alignedPoolStart kernelEnd ≠ 0) {run : List PageCall} (h : Holding kernelEnd c)
    (h' : Wiped kernelEnd staticBitmap c') (hlegal : Along step Legal c run)
    (htaken : 0 < taken c run) : Breaks c' (requests run) := by
  induction run generalizing c with
  | nil => exact absurd htaken (lt_irrefl 0)
  | cons call run ih =>
      obtain ⟨hcall, hrest⟩ := hlegal
      cases call with
      | write x v =>
          have hstep : step c (.write x v) = some _ := rfl
          rw [taken_cons hstep, takes_write, Bool.toNat_false, Nat.zero_add] at htaken
          exact ih (h.setMem _) (hrest _ hstep) htaken
      | free b =>
          rw [Legal, h.live, List.mem_singleton] at hcall
          subst hcall
          cases hstep : step c (.free ⟨secondPage kernelEnd, 0⟩) with
          | none =>
              rw [taken, hstep, takes_free] at htaken
              exact absurd htaken (lt_irrefl 0)
          | some d =>
              rw [taken_cons hstep, takes_free, Bool.toNat_false, Nat.zero_add] at htaken
              obtain ⟨d', hstep', hspent⟩ := h'.spent hplaced
              have hheld : Legal c' (.free ⟨secondPage kernelEnd, 0⟩) := by
                rw [Legal, h'.live]
                exact List.mem_singleton_self _
              exact .cons hheld hstep' rfl
                (breaks_of_returned hplaced hstart (h.returned hstep) hspent (hrest d hstep) htaken)
      | alloc order =>
          rcases Nat.eq_zero_or_pos order with rfl | hpos
          · refine breaks_of_not_safe (show Legal c' (.alloc 0) from trivial) ?_ rfl
            exact not_safe_of_unlinked hplaced hstart h'.pool (by decide)
              (h'.head ▸ secondPage_ne_zero kernelEnd) (by rw [h'.head, h'.unlinked])
          · have hnone : takes c (.alloc order) = false :=
              takes_eq_false_iff.mpr fun k hk _ => h.above k (by omega)
            have hnone' : takes c' (.alloc order) = false :=
              takes_eq_false_iff.mpr fun k hk _ => h'.above k (by omega)
            rw [taken_cons_of_not_takes h.pool hnone] at htaken
            refine breaks_of_refused h'.pool hnone' (ih h ?_ htaken)
            exact hrest c (step_of_not_takes h.pool hnone)

theorem breaks_of_cleared (h : Holding kernelEnd c) {rs : List PageCall}
    (hbreaks : Breaks (cleared kernelEnd c) rs) : Breaks c rs := by
  refine Breaks.clear 8 (fun i hi => ?_) hbreaks
  refine ⟨⟨secondPage kernelEnd, 0⟩, ?_, covers_add (hi.trans ?_)⟩
  · rw [h.live]
    exact List.mem_singleton_self _
  · exact (by decide : 8 < 2 ^ 0 * 4096)

/-- Where two blocks can be taken, the stores of the client of the first one can make the
next block unsafe. -/
theorem breaks_of_two_taken (hplaced : Placed kernelEnd staticBitmap) {run : List PageCall}
    (hlegal : Along step Legal (start m kernelEnd staticBitmap) run)
    (h : 2 ≤ taken (start m kernelEnd staticBitmap) run) :
    Breaks (start m kernelEnd staticBitmap) (requests run) := by
  have hpool := pool_start m kernelEnd staticBitmap
  induction run with
  | nil =>
      rw [taken] at h
      exact absurd h (by decide)
  | cons call calls ih =>
      obtain ⟨hcall, hrest⟩ := hlegal
      obtain ⟨order, rfl⟩ := legal_start hcall
      cases htakes : takes (start m kernelEnd staticBitmap) (.alloc order) with
      | false =>
          have hsame := step_of_not_takes hpool htakes
          rw [taken_cons_of_not_takes hpool htakes] at h
          exact breaks_of_refused hpool htakes (ih (hrest _ hsame) h)
      | true =>
          obtain ⟨rfl, hstart⟩ := takes_start htakes
          have hfirst := step_first m staticBitmap hstart
          rw [taken_cons hfirst, htakes, Bool.toNat_true] at h
          have hholds : Holding kernelEnd (afterFirst m kernelEnd staticBitmap) :=
            holding_afterFirst
          have hwiped := hholds.wiped hplaced rfl rfl (unmarked_afterFirst hplaced)
          refine .cons hcall hfirst rfl (breaks_of_cleared hholds ?_)
          exact breaks_of_holding hplaced hstart hholds hwiped (hrest _ hfirst) (by omega)

end Adversary

/-- Whatever clients store, every run that takes at most one block is safe; and a sequence
of requests is safe in all its runs exactly if none of them takes two blocks. -/
theorem safe_runs_iff_single_block (m : Memory) (kernelEnd staticBitmap : Word)
    (hplaced : Placed kernelEnd staticBitmap) :
    (∀ run, Along step Legal (start m kernelEnd staticBitmap) run →
      taken (start m kernelEnd staticBitmap) run ≤ 1 →
        Along step Safe (start m kernelEnd staticBitmap) run) ∧
    ∀ rs, (∀ run, requests run <+: rs →
        Along step Legal (start m kernelEnd staticBitmap) run →
          Along step Safe (start m kernelEnd staticBitmap) run) ↔
      ∀ run, requests run <+: rs →
        Along step Legal (start m kernelEnd staticBitmap) run →
          taken (start m kernelEnd staticBitmap) run ≤ 1 := by
  refine ⟨fun run hlegal h => safe_along_of_taken_le_one hlegal h, fun rs => ⟨?_, ?_⟩⟩
  · intro hsafe run hprefix hlegal
    by_contra htaken
    obtain ⟨run', hprefix', hlegal', hunsafe⟩ :=
      breaks_of_two_taken hplaced hlegal (Nat.lt_of_not_le htaken)
    exact hunsafe (hsafe run' (hprefix'.trans hprefix) hlegal')
  · intro htaken run hprefix hlegal
    exact safe_along_of_taken_le_one hlegal (htaken run hprefix hlegal)

theorem placed_2MB : Placed 0x200000 0x100000 where
  fits := by decide
  outside := by
    have hstart : alignedPoolStart 0x200000 = 0x200000 := by decide
    rw [hstart]
    exact apart_of_le_sub (by decide) (by decide)

theorem safe_runs_iff_single_block_2MB :
    Placed 0x200000 0x100000 ∧
      ∀ run, requests run <+: [.alloc 0] →
        Along step Legal (start (fun _ => 0) 0x200000 0x100000) run →
          Along step Safe (start (fun _ => 0) 0x200000 0x100000) run := by
  refine ⟨placed_2MB, ?_⟩
  refine ((safe_runs_iff_single_block (fun _ => 0) 0x200000 0x100000 placed_2MB).2 _).mpr ?_
  intro run hprefix _
  refine (taken_le_requests _ run).trans ?_
  exact hprefix.length_le

theorem not_inPool_of_offset {s : MM} {b : Block} {pages : Nat}
    (hpages : s.buddy.poolPages.toNat = pages) (hoffset : pages * 4096 < b.offset s) :
    ¬ b.InPool s := by
  rintro ⟨-, hend⟩
  omega

def idleState : MM := (start (fun _ => 0) 0x200000 0x100000).mm

theorem apart_idle_bitmap {a : Word} (hlow : 0x200000 ≤ a.toNat) (hhigh : a.toNat ≤ 0x500000) :
    Apart a 8 0x100000 (1024 * 8) := by
  have hb : (0x100000 : Word).toNat = 0x100000 := rfl
  apply apart_of_le_sub
  · rw [BitVec.toNat_sub, hb]
    omega
  · rw [BitVec.toNat_sub, hb]
    omega

theorem idle_page_1 : load idleState.mem 0x201000 = 0x401000 := by
  have hpages : initialPoolPages = 16384 := initialPoolPages_eq
  have hlink := load_mmInit_link (boot fun _ => 0) 0x200000 0x100000
    (show 512 < initialPoolPages - 1 by omega)
  rw [show alignedPoolStart 0x200000 + BitVec.ofNat 64 512 * 8 = 0x201000 by decide] at hlink
  exact hlink.trans (by decide)

theorem idle_page_513 : load idleState.mem 0x401000 = 0 := by
  have hpage : pageAddr (alignedPoolStart 0x200000) 513 = 0x401000 := by decide
  have hidle := @load_mmInit_idle (fun _ => 0) 0x200000 0x100000 513 (by omega) (by omega)
    (by rw [hpage]; exact apart_idle_bitmap (by decide) (by decide))
  rw [hpage] at hidle
  exact hidle.trans (by decide)

/-- Three requests for a page from an idle memory of zeros: page 1, page 513,
and then the address zero, which is not in the pool. -/
theorem three_pages_not_safe :
    Along step Legal (start (fun _ => 0) 0x200000 0x100000) [.alloc 0, .alloc 0, .alloc 0] ∧
      ¬ Along step Safe (start (fun _ => 0) 0x200000 0x100000)
        [.alloc 0, .alloc 0, .alloc 0] := by
  refine ⟨⟨trivial, fun _ _ => ⟨trivial, fun _ _ => ⟨trivial, fun _ _ => trivial⟩⟩⟩, ?_⟩
  have hfirst : secondNode idleState 0 = 0x201000 :=
    (secondNode_start _ _ _).trans (by decide)
  have hsecond : secondNode (popBlock idleState 0) 0 = 0x401000 := by
    rw [secondNode, popBlock_freeLists_self, hfirst, load_popBlock_zero, idle_page_1]
    · decide
    · exact apart_idle_bitmap (by decide) (by decide)
  have hthird : secondNode (popBlock (popBlock idleState 0) 0) 0 = 0 := by
    rw [secondNode, popBlock_freeLists_self, hsecond, load_popBlock_zero, load_popBlock_zero,
      idle_page_513]
    · decide
    · exact apart_idle_bitmap (by decide) (by decide)
    · decide
    · exact apart_idle_bitmap (by decide) (by decide)
  intro h
  have h₁ := h.2 _ (step_alloc_zero (pool_start _ 0x200000 0x100000)
    (by change alignedPoolStart 0x200000 ≠ 0; decide))
  have h₂ := h₁.2 _ (step_alloc_zero (show pool _ = initialPool 0x200000 from rfl)
    (by rw [popBlock_freeLists_self]; exact hfirst ▸ (by decide)))
  have hpool : pool (popBlock (popBlock idleState 0) 0) = initialPool 0x200000 := rfl
  have hblock := h₂.1 _ _ (allocPages_zero rfl (poolPages_ne_zero_of_pool hpool)
    (by rw [popBlock_freeLists_self]; exact hsecond ▸ (by decide)))
  have hoffset : 16384 * 4096 < (⟨secondNode (popBlock (popBlock idleState 0) 0) 0, 0⟩ :
      Block).offset (popBlock (popBlock idleState 0) 0) := by
    rw [Block.offset, hthird]
    decide
  exact not_inPool_of_offset (poolPages_of_pool hpool) hoffset hblock.1

end ShlteOs.PageSafety
