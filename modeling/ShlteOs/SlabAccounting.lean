import ShlteOs.HeapSafety

/-!
The slab allocator's counters along runs of `kmalloc`, `kfree` and client
stores.  A run keeps, beside the allocator's own state, the objects that are
live, those that were freed and not handed out again, and the number of pages
taken for slabs.  The first object of a slab is its own header, which `kmalloc`
clears: the counters are right for one call, and no longer for a second one.
-/

namespace ShlteOs.SlabAccounting

open ShlteOs.ByteMemory
open ShlteOs.CallSequence
open ShlteOs.PointerWalk
open ShlteOs.PageAllocator
open ShlteOs.PageAllocatorSteps
open ShlteOs.SlabAllocator
open ShlteOs.InitialFreeList
open ShlteOs.HeapSafety (Object kmalloc_of_no_slabs second_page_ne_zero allocPages_of_empty_pool)

/-- The heap, the objects held, the objects given back and not reused, and the slabs made
so far. -/
structure SlabClients where
  mm : MM
  live : List Object
  freed : List Word
  slabs : Nat

/-- The calls of clients, and their stores. -/
inductive SlabCall where
  | kmalloc (size : Word)
  | kfree (ptr : Word)
  | write (x : Word) (v : Byte)

/-- Requests fit one object, clients free what they hold, and they store only
into the bytes they requested. -/
def Legal (c : SlabClients) : SlabCall → Prop
  | .kmalloc size => 1 ≤ size.toNat ∧ size.toNat ≤ 64
  | .kfree ptr => ∃ o ∈ c.live, o.ptr = ptr
  | .write x _ => ∃ o ∈ c.live, Covers o.ptr o.size.toNat x

/-- The page the next request takes from `alloc_pages`, if it takes one. -/
def takenPage (s : MM) : Option Word :=
  if findFreeSlab s.mem s.slab.slabs = some 0 then (allocPages s 0).1 else none

def receive (live : List Object) (ptr size : Word) : List Object :=
  if ptr = 0 then live else { ptr := ptr, size := size } :: live

/-- A call, with its object entered or struck off the lists. -/
def step (c : SlabClients) : SlabCall → Option SlabClients
  | .kmalloc size =>
      (kmalloc c.mm size).map fun r =>
        { mm := r.2
          live := receive c.live r.1 size
          freed := c.freed.filter (fun ptr => ptr != r.1)
          slabs := if (takenPage c.mm).isSome then c.slabs + 1 else c.slabs }
  | .kfree ptr =>
      (kfree c.mm ptr).map fun mm =>
        { mm := mm
          live := c.live.eraseP fun o => o.ptr == ptr
          freed := ptr :: c.freed
          slabs := c.slabs }
  | .write x v => some { c with mm := c.mm.setMem (storeByte c.mm.mem x v) }

/-- The counters of the slab allocator agree with what its clients hold. -/
structure Accounted (c : SlabClients) : Prop where
  used : c.mm.slab.usedObjs.toNat = c.live.length
  total : c.mm.slab.totalObjs.toNat = 64 * c.slabs
  bounded : c.mm.slab.usedObjs.toNat ≤ c.mm.slab.totalObjs.toNat

/-- No page is taken while a freed object waits to be handed out again. -/
def Reuses (c : SlabClients) : SlabCall → Prop
  | .kmalloc _ => (takenPage c.mm).isSome → c.freed = []
  | _ => True

/-- The call returns, freed objects are used first, and the counters are right
afterwards. -/
def Accounts (c : SlabClients) (call : SlabCall) : Prop :=
  ∃ c', step c call = some c' ∧ Accounted c' ∧ Reuses c call

/-- The calls of the allocator, as opposed to the stores of its clients. -/
def isRequest : SlabCall → Bool
  | .write _ _ => false
  | _ => true

def requests (run : List SlabCall) : List SlabCall := run.filter isRequest

def start (m : Memory) (kernelEnd staticBitmap : Word) : SlabClients where
  mm := mmInit (boot m) kernelEnd staticBitmap
  live := []
  freed := []
  slabs := 0

/-- The counters are right and no client holds a null pointer. -/
structure Tracked (c : SlabClients) : Prop where
  accounted : Accounted c
  nonnull : ∀ o ∈ c.live, o.ptr ≠ 0

section Calls

variable {s : MM}

theorem splitLoop_slab (order n : Nat) (s : MM) (block : Word) :
    (splitLoop order n s block).1.slab = s.slab := by
  induction n generalizing s block with
  | zero => rfl
  | succ n ih =>
      rw [splitLoop, ih]
      rfl

theorem allocPages_slab {order : Nat} {s' : MM} {r : Option Word}
    (h : allocPages s order = (r, s')) : s'.slab = s.slab := by
  have hslab : (allocPages s order).2.slab = s.slab := by
    by_cases hfinds : ∃ found, Finds s order found
    · obtain ⟨found, hfound⟩ := hfinds
      rw [allocPages_of_finds hfound, splitLoop_slab]
      rfl
    · rw [allocPages_of_not_finds fun found hfound => hfinds ⟨found, hfound⟩]
  rw [h] at hslab
  exact hslab

theorem freeList_ne_zero {p : Word} (hfind : findFreeSlab s.mem s.slab.slabs = some p)
    (hp : p ≠ 0) : load s.mem (freeListField p) ≠ 0 := by
  obtain ⟨-, -, -, hstop, -⟩ := walk_eq_some_iff.mp hfind
  intro hzero
  rw [hzero] at hstop
  simp at hstop
  exact hp hstop

theorem kmalloc_eq {size : Word} (hsize : size ≠ 0) :
    kmalloc s size = (slabAlloc s).map fun r =>
      if r.1 = 0 then r
      else (r.1, r.2.setMem (memset r.2.mem r.1 0 (roundedSize size).toNat)) := by
  rw [kmalloc, if_neg hsize]

theorem kmalloc_of_no_page {size : Word} (hsize : size ≠ 0)
    (hfind : findFreeSlab s.mem s.slab.slabs = some 0)
    (halloc : (allocPages s 0).1 = none) : kmalloc s size = some (0, s) := by
  have hsame : allocPages s 0 = (none, s) := by
    rcases allocPages_cases s 0 with ⟨heq, -⟩ | ⟨found, s', -, heq, -⟩
    · exact heq
    · rw [heq] at halloc
      cases halloc
  have hnew : newSlab s = (0, s) := by
    rw [newSlab, hsame]
  rw [kmalloc_eq hsize, slabAlloc, hfind, Option.map_some, Option.map_some, if_pos rfl, hnew,
    if_pos rfl]

theorem kmalloc_of_page {size page : Word} (hsize : size ≠ 0)
    (hfind : findFreeSlab s.mem s.slab.slabs = some 0)
    (halloc : (allocPages s 0).1 = some page) :
    ∃ s', kmalloc s size = some (page, s') ∧
      s'.slab.usedObjs = s.slab.usedObjs + 1 ∧ s'.slab.totalObjs = s.slab.totalObjs + 64 := by
  rcases hresult : allocPages s 0 with ⟨r, t⟩
  have hslab := allocPages_slab hresult
  rw [hresult] at halloc
  obtain rfl : r = some page := halloc
  have hnew : (newSlab s).1 = page ∧ (newSlab s).2.slab.usedObjs = t.slab.usedObjs + 1 ∧
      (newSlab s).2.slab.totalObjs = t.slab.totalObjs + 64 := by
    rw [newSlab, hresult]
    exact ⟨rfl, rfl, rfl⟩
  obtain ⟨hpage, hused, htotal⟩ := hnew
  rw [hslab] at hused htotal
  rw [kmalloc_eq hsize, slabAlloc, hfind, Option.map_some, Option.map_some, if_pos rfl]
  by_cases hzero : page = 0
  · refine ⟨(newSlab s).2, ?_, hused, htotal⟩
    rw [if_pos (hpage.trans hzero), ← hpage]
  · refine ⟨(newSlab s).2.setMem
      (memset (newSlab s).2.mem (newSlab s).1 0 (roundedSize size).toNat), ?_, hused, htotal⟩
    rw [if_neg (hpage ▸ hzero), ← hpage]

theorem kfree_of_no_slab {ptr : Word} (hptr : ptr ≠ 0)
    (hfind : findSlabOf s.mem s.slab.slabs ptr = some 0) : kfree s ptr = some s := by
  rw [kfree, if_neg hptr, slabFree, if_neg hptr, hfind, Option.map_some, if_pos rfl]

end Calls

section Steps

variable {c : SlabClients}

theorem toNat_succ {w : Word} (h : w.toNat + 1 < 2 ^ 64) : (w + 1).toNat = w.toNat + 1 := by
  have hone : (1 : Word).toNat = 1 := rfl
  rw [BitVec.toNat_add, hone, Nat.mod_eq_of_lt h]

theorem Tracked.receive (h : Tracked c) {ptr size : Word} :
    ∀ o ∈ receive c.live ptr size, o.ptr ≠ 0 := by
  intro o ho
  rw [SlabAccounting.receive] at ho
  split at ho
  · exact h.nonnull o ho
  · rename_i hptr
    rcases List.mem_cons.mp ho with rfl | hmem
    · exact hptr
    · exact h.nonnull o hmem

theorem step_kmalloc {c' : SlabClients} {size ptr : Word} {s' : MM}
    (hk : kmalloc c.mm size = some (ptr, s')) (hstep : step c (.kmalloc size) = some c') :
    c'.mm = s' ∧ c'.live = receive c.live ptr size := by
  rw [step, hk] at hstep
  obtain rfl := Option.some_inj.mp hstep
  exact ⟨rfl, rfl⟩

theorem takenPage_of_none {s : MM} (hfind : findFreeSlab s.mem s.slab.slabs = some 0) :
    takenPage s = (allocPages s 0).1 :=
  if_pos hfind

theorem accounts_of_no_page (h : Tracked c) {size : Word} (hsize : size ≠ 0)
    (hfind : findFreeSlab c.mm.mem c.mm.slab.slabs = some 0)
    (halloc : (allocPages c.mm 0).1 = none) : Accounts c (.kmalloc size) := by
  have hk := kmalloc_of_no_page hsize hfind halloc
  have htaken : takenPage c.mm = none := (takenPage_of_none hfind).trans halloc
  have hstep : step c (.kmalloc size) = some
      { mm := c.mm
        live := c.live
        freed := c.freed.filter (fun ptr => ptr != 0)
        slabs := c.slabs } := by
    simp only [step, hk, Option.map_some, receive, if_true, htaken]
    rfl
  refine ⟨_, hstep, ⟨h.accounted.used, h.accounted.total, h.accounted.bounded⟩, ?_⟩
  intro htake
  rw [htaken] at htake
  cases htake

theorem accounts_of_page (h : Tracked c) {size page : Word} (hsize : size ≠ 0)
    (hfind : findFreeSlab c.mm.mem c.mm.slab.slabs = some 0)
    (halloc : (allocPages c.mm 0).1 = some page) :
    Accounts c (.kmalloc size) ↔
      page ≠ 0 ∧ c.freed = [] ∧ 64 * (c.slabs + 1) < 2 ^ 64 := by
  obtain ⟨s', hk, hused, htotal⟩ := kmalloc_of_page hsize hfind halloc
  have htaken : takenPage c.mm = some page := (takenPage_of_none hfind).trans halloc
  have hobjs : (64 : Word).toNat = 64 := rfl
  have hone : (1 : Word).toNat = 1 := rfl
  obtain ⟨hu, ht, hb⟩ := h.accounted
  have hlt := c.mm.slab.totalObjs.isLt
  have hstep : step c (.kmalloc size) = some
      { mm := s'
        live := receive c.live page size
        freed := c.freed.filter (fun ptr => ptr != page)
        slabs := c.slabs + 1 } := by
    simp only [step, hk, Option.map_some, htaken]
    rfl
  constructor
  · rintro ⟨c', hc', hacc, hreuse⟩
    obtain rfl := Option.some_inj.mp (hstep.symm.trans hc')
    obtain ⟨hused', htotal', -⟩ := hacc
    simp only [hused, htotal, BitVec.toNat_add, hone, hobjs] at hused' htotal'
    refine ⟨?_, hreuse (by rw [htaken]; rfl), by omega⟩
    -- A page at address zero is counted and handed out as a failure.
    rintro rfl
    rw [receive, if_pos rfl] at hused'
    omega
  · rintro ⟨hpage, hfreed, hroom⟩
    refine ⟨_, hstep, ⟨?_, ?_, ?_⟩, fun _ => hfreed⟩
    · simp only [hused, receive, if_neg hpage, List.length_cons]
      rw [toNat_succ (by omega), hu]
    · simp only [htotal, BitVec.toNat_add, hobjs]
      omega
    · simp only [hused, htotal, BitVec.toNat_add, hobjs, hone]
      omega

theorem not_accounts_of_no_slab (h : Tracked c) {ptr : Word} (hheld : Legal c (.kfree ptr))
    (hfind : findSlabOf c.mm.mem c.mm.slab.slabs ptr = some 0) : ¬ Accounts c (.kfree ptr) := by
  obtain ⟨o, ho, hptr⟩ := hheld
  have hne : ptr ≠ 0 := hptr ▸ h.nonnull o ho
  have hpos : 0 < c.live.length := List.length_pos_of_mem ho
  have herase : (c.live.eraseP fun o => o.ptr == ptr).length = c.live.length - 1 :=
    List.length_eraseP_of_mem ho (by simpa using hptr)
  rintro ⟨c', hc', hacc, -⟩
  rw [step, kfree_of_no_slab hne hfind] at hc'
  obtain rfl := Option.some_inj.mp hc'
  have hbefore := h.accounted.used
  have hused := hacc.used
  simp only [herase] at hused
  omega

theorem accounts_write (h : Tracked c) (x : Word) (v : Byte) : Accounts c (.write x v) :=
  ⟨_, rfl, ⟨h.accounted.used, h.accounted.total, h.accounted.bounded⟩, trivial⟩

theorem Tracked.step (h : Tracked c) {call : SlabCall} {c' : SlabClients}
    (haccounts : Accounts c call) (hstep : step c call = some c') : Tracked c' := by
  obtain ⟨c'', hc'', hacc, -⟩ := haccounts
  obtain rfl := Option.some_inj.mp (hc''.symm.trans hstep)
  refine ⟨hacc, ?_⟩
  cases call with
  | kmalloc size =>
      obtain ⟨r, -, rfl⟩ := Option.map_eq_some_iff.mp hstep
      exact h.receive
  | kfree ptr =>
      obtain ⟨mm, -, rfl⟩ := Option.map_eq_some_iff.mp hstep
      exact fun o ho => h.nonnull o (List.mem_of_mem_eraseP ho)
  | write x v =>
      obtain rfl := Option.some_inj.mp hstep
      exact h.nonnull

end Steps

theorem tracked_start (m : Memory) (kernelEnd staticBitmap : Word) :
    Tracked (start m kernelEnd staticBitmap) :=
  ⟨⟨rfl, rfl, le_rfl⟩, fun _ ho => absurd ho (List.not_mem_nil)⟩

theorem kmalloc_first {s t : MM} {size page : Word} (hslabs : s.slab.slabs = 0)
    (halloc : allocPages s 0 = (some page, t)) (hpage : page ≠ 0) (hsize : size ≠ 0) :
    kmalloc s size = some (page,
      { t with
        mem := memset (initSlabPage t.mem page 0) page 0 (roundedSize size).toNat
        slab := { t.slab with
          slabs := page
          totalPages := t.slab.totalPages + 1
          usedObjs := t.slab.usedObjs + 1
          totalObjs := t.slab.totalObjs + BitVec.ofNat 64 slabObjsPerPage } }) := by
  have htslabs : t.slab.slabs = 0 := (congrArg Slab.slabs (allocPages_slab halloc)).trans hslabs
  have hnew : newSlab s = (page,
      { t with
        mem := initSlabPage t.mem page 0
        slab := { t.slab with
          slabs := page
          totalPages := t.slab.totalPages + 1
          usedObjs := t.slab.usedObjs + 1
          totalObjs := t.slab.totalObjs + BitVec.ofNat 64 slabObjsPerPage } }) := by
    rw [newSlab, halloc]
    simp only [htslabs]
  rw [kmalloc_of_no_slabs hslabs hsize, hnew]
  simp only [if_neg hpage]
  rfl

section FirstObject

variable (m : Memory) (kernelEnd staticBitmap : Word)

theorem findFreeSlab_start :
    findFreeSlab (start m kernelEnd staticBitmap).mm.mem
      (start m kernelEnd staticBitmap).mm.slab.slabs = some 0 :=
  walk_of_stop rfl (by decide)

theorem allocPages_start (hstart : alignedPoolStart kernelEnd ≠ 0) :
    (allocPages (start m kernelEnd staticBitmap).mm 0).1 =
      some (alignedPoolStart kernelEnd + pageSize) :=
  congrArg Prod.fst (allocPages_mmInit (boot m) kernelEnd staticBitmap hstart)

theorem roundedSize_of_le {size : Word} (h : size.toNat ≤ 64) : roundedSize size = 64 := by
  have hobj : slabObjSize.toNat = 64 := rfl
  by_cases hlt : size < slabObjSize
  · rw [roundedSize, if_pos hlt]
    decide
  · obtain rfl : size = slabObjSize := by
      apply BitVec.eq_of_toNat_eq
      rw [BitVec.lt_def] at hlt
      omega
    decide

theorem toNat_roundedSize_of_le {size : Word} (h : size.toNat ≤ 64) :
    (roundedSize size).toNat = 64 := by
  rw [roundedSize_of_le h]
  rfl

theorem apart_next_cell (p : Word) (i : Nat) :
    Apart (nextField p) 8 (p + (BitVec.ofNat 64 i + 1) * slabObjSize) 8 := by
  have hobj : slabObjSize.toNat = 64 := rfl
  have hone : (1 : Word).toNat = 1 := rfl
  have hnext : (80 : Word).toNat = 80 := rfl
  apply apart_of_le_sub
  · simp only [nextField, BitVec.toNat_sub, BitVec.toNat_add, BitVec.toNat_mul, BitVec.toNat_ofNat,
      hobj, hone, hnext]
    omega
  · simp only [nextField, BitVec.toNat_sub, BitVec.toNat_add, BitVec.toNat_mul, BitVec.toNat_ofNat,
      hobj, hone, hnext]
    omega

theorem apart_next_freeList (p : Word) : Apart (nextField p) 8 (freeListField p) 8 := by
  have hnext : (80 : Word).toNat = 80 := rfl
  have hlist : (8 : Word).toNat = 8 := rfl
  apply apart_of_le_sub
  · simp only [nextField, freeListField, BitVec.toNat_sub, BitVec.toNat_add, hnext, hlist]
    omega
  · simp only [nextField, freeListField, BitVec.toNat_sub, BitVec.toNat_add, hnext, hlist]
    omega

theorem not_covers_next {p x : Word} (hx : Covers (nextField p) 8 x) : ¬ Covers p 64 x := by
  have hnext : (80 : Word).toNat = 80 := rfl
  simp only [Covers, nextField, BitVec.toNat_sub, BitVec.toNat_add, hnext] at *
  omega

theorem load_next_initSlabPage (m : Memory) (p slabs : Word) :
    load (initSlabPage m p slabs) (nextField p) = slabs := by
  have hused : Covers p 64 (usedField p 0) := by
    rw [usedField, BitVec.add_assoc]
    exact covers_add (i := 16) (by decide)
  have hbyte : ∀ m' : Memory, load (storeByte m' (usedField p 0) 1) (nextField p) =
      load m' (nextField p) := by
    intro m'
    refine load_congr fun x hx => if_neg ?_
    rintro rfl
    exact not_covers_next hx hused
  have hlast : BitVec.ofNat 64 (slabObjsPerPage - 1) = BitVec.ofNat 64 62 + 1 := by decide
  have hfields : load (store (store (store m (pagePhysField p) p) (nextField p) slabs)
      (freeListField p) (p + slabObjSize)) (nextField p) = slabs := by
    rw [load_store_apart (apart_next_freeList p), load_store_same]
  rw [initSlabPage, hbyte, hlast, load_store_apart (apart_next_cell p 62)]
  refine List.foldlRecOn (motive := fun m' => load m' (nextField p) = slabs) _ _ hfields ?_
  intro m' hm' i _
  rw [load_store_apart (apart_next_cell p i), hm']

/-- What the first request leaves: the header of the only slab is cleared up to the link
to the next one, and the page is still the head of the allocator's list. -/
structure Opened (page : Word) (s : MM) : Prop where
  slabs : s.slab.slabs = page
  cleared : ∀ x, Covers page 64 x → s.mem x = 0
  last : load s.mem (nextField page) = 0
  head : s.buddy.freeLists 0 = page

variable {m kernelEnd staticBitmap} {s : MM} {page size : Word}

theorem opened_of_first {t : MM} (hslabs : s.slab.slabs = 0)
    (halloc : allocPages s 0 = (some page, t)) (hpage : page ≠ 0)
    (hhead : t.buddy.freeLists 0 = page) (hsize : size ≠ 0) (hle : size.toNat ≤ 64) :
    ∃ s', kmalloc s size = some (page, s') ∧ Opened page s' ∧ pool s' = pool t := by
  have hkmalloc := kmalloc_first hslabs halloc hpage hsize
  rw [toNat_roundedSize_of_le hle] at hkmalloc
  generalize hm : memset (initSlabPage t.mem page 0) page 0 64 = m' at hkmalloc
  have hcleared : ∀ x, Covers page 64 x → m' x = 0 := by
    intro x hx
    rw [← hm, memset_of_covers (by decide) hx]
  have hlast : load m' (nextField page) = 0 := by
    have hkept : load m' (nextField page) = load (initSlabPage t.mem page 0) (nextField page) :=
      load_congr fun x hx => hm ▸ memset_of_not_covers (by decide) (not_covers_next hx)
    rw [hkept, load_next_initSlabPage]
  exact ⟨_, hkmalloc, ⟨rfl, hcleared, hlast, hhead⟩, rfl⟩

theorem kmalloc_start (m : Memory) (staticBitmap : Word) {size : Word}
    (hstart : alignedPoolStart kernelEnd ≠ 0) (hsize : size ≠ 0) (hle : size.toNat ≤ 64) :
    ∃ s', kmalloc (start m kernelEnd staticBitmap).mm size =
        some (alignedPoolStart kernelEnd + pageSize, s') ∧
      Opened (alignedPoolStart kernelEnd + pageSize) s' ∧
        pool s' = pool (popBlock (mmInit (boot m) kernelEnd staticBitmap) 0) := by
  have hhead := popBlock_freeLists_self (mmInit (boot m) kernelEnd staticBitmap) 0
  rw [secondNode_mmInit] at hhead
  exact opened_of_first (s := (start m kernelEnd staticBitmap).mm) rfl
    (allocPages_mmInit (boot m) kernelEnd staticBitmap hstart) (second_page_ne_zero kernelEnd)
    hhead hsize hle

theorem Opened.load_eq_zero (h : Opened page s) {d : Nat} (hd : d + 8 ≤ 64) :
    load s.mem (page + BitVec.ofNat 64 d) = 0 := by
  refine load_of_zero fun x hx => h.cleared x (hx.mono (d := d) ?_ hd)
  rw [add_ofNat_sub_self, BitVec.toNat_ofNat]
  omega

theorem Opened.walk_eq (h : Opened page s) {stop : Word → Bool} (hstop : stop 0 = true)
    (hgo : stop page = false) :
    walk stop (fun p => load s.mem (nextField p)) walkFuel s.slab.slabs = some 0 := by
  rw [h.slabs]
  refine walk_eq_some_iff.mpr ⟨1, by decide, h.last, hstop, fun i hi => ?_⟩
  obtain rfl : i = 0 := by omega
  exact hgo

theorem Opened.findFreeSlab (h : Opened page s) (hpage : page ≠ 0) :
    findFreeSlab s.mem s.slab.slabs = some 0 := by
  refine h.walk_eq rfl ?_
  have hlist : load s.mem (freeListField page) = 0 := h.load_eq_zero (d := 8) (by decide)
  simpa [hlist] using hpage

theorem Opened.findSlabOf (h : Opened page s) (hpage : 4096 ≤ page.toNat) :
    findSlabOf s.mem s.slab.slabs page = some 0 := by
  have hne : page ≠ 0 := by
    rintro rfl
    exact absurd hpage (by decide)
  have hphys : load s.mem (pagePhysField page) = 0 :=
    load_of_zero fun x hx => h.cleared x (lt_of_lt_of_le hx (by decide))
  have hlost : inSlabPage s.mem page page = false := by
    have hsize : pageSize.toNat = 4096 := rfl
    have hlimit : 0 + pageSize = pageSize := by decide
    rw [inSlabPage, hphys, hlimit, Bool.and_eq_false_iff]
    right
    rw [decide_eq_false_iff_not, BitVec.lt_def]
    omega
  refine h.walk_eq rfl ?_
  simpa [hlost] using hne

theorem Opened.allocPages (h : Opened page s) (hpage : page ≠ 0)
    (hinit : s.buddy.initialized = true) (hpages : s.buddy.poolPages ≠ 0) :
    (allocPages s 0).1 = some 0 := by
  have hnode : secondNode s 0 = 0 := by
    rw [secondNode, h.head]
    exact load_of_zero fun x hx => h.cleared x (lt_of_lt_of_le hx (by decide))
  rw [allocPages_zero hinit hpages (h.head ▸ hpage), hnode]

theorem second_page_ge :
    4096 ≤ (alignedPoolStart kernelEnd + pageSize).toNat := by
  have halign := alignedPoolStart_mod kernelEnd
  have hpage : pageSize.toNat = 4096 := rfl
  have hlt := (alignedPoolStart kernelEnd).isLt
  rw [BitVec.toNat_add, hpage]
  omega

theorem accounts_first (m : Memory) (staticBitmap : Word) {size : Word}
    (hstart : alignedPoolStart kernelEnd ≠ 0) (hsize : size ≠ 0) :
    Accounts (start m kernelEnd staticBitmap) (.kmalloc size) := by
  refine (accounts_of_page (tracked_start m kernelEnd staticBitmap) hsize
    (findFreeSlab_start m kernelEnd staticBitmap)
    (allocPages_start m kernelEnd staticBitmap hstart)).mpr ?_
  exact ⟨second_page_ne_zero kernelEnd, rfl, show 64 * (0 + 1) < 2 ^ 64 by decide⟩

theorem legal_start {call : SlabCall} (h : Legal (start m kernelEnd staticBitmap) call) :
    ∃ size : Word, call = .kmalloc size ∧ size ≠ 0 ∧ size.toNat ≤ 64 := by
  cases call with
  | kmalloc size =>
      refine ⟨size, rfl, ?_, h.2⟩
      rintro rfl
      exact absurd h.1 (by decide)
  | kfree ptr =>
      obtain ⟨o, ho, -⟩ := h
      exact absurd ho List.not_mem_nil
  | write x v =>
      obtain ⟨o, ho, -⟩ := h
      exact absurd ho List.not_mem_nil

/-- The second call goes wrong, whichever it is: a request is counted but gets page 0, and
the freed object is not found. -/
theorem not_accounts_second (hstart : alignedPoolStart kernelEnd ≠ 0) (hsize : size ≠ 0)
    (hle : size.toNat ≤ 64) {c : SlabClients} {call : SlabCall}
    (hstep : step (start m kernelEnd staticBitmap) (.kmalloc size) = some c)
    (hlegal : Legal c call) (hrequest : isRequest call = true) : ¬ Accounts c call := by
  have hpage := second_page_ne_zero kernelEnd
  obtain ⟨s', hk, hopened, hpool⟩ :=
    kmalloc_start m staticBitmap hstart hsize hle
  have hinit : s'.buddy.initialized = true := congrArg (fun p => p.2.2) hpool
  have hpages : s'.buddy.poolPages ≠ 0 := by
    have hsame : s'.buddy.poolPages = BitVec.ofNat 64 initialPoolPages :=
      congrArg (fun p => p.2.1) hpool
    rw [hsame, initialPoolPages_eq]
    decide
  have htracked : Tracked c :=
    (tracked_start m kernelEnd staticBitmap).step (accounts_first m staticBitmap hstart hsize) hstep
  obtain ⟨rfl, hlive⟩ := step_kmalloc hk hstep
  cases call with
  | write x v => cases hrequest
  | kmalloc size' =>
      have hne : size' ≠ 0 := by
        rintro rfl
        exact absurd hlegal.1 (by decide)
      rw [accounts_of_page htracked hne (hopened.findFreeSlab hpage)
        (hopened.allocPages hpage hinit hpages)]
      exact fun h => h.1 rfl
  | kfree ptr =>
      have hptr : ptr = alignedPoolStart kernelEnd + pageSize := by
        obtain ⟨o, ho, rfl⟩ := hlegal
        rw [hlive, receive, if_neg hpage, start, List.mem_singleton] at ho
        rw [ho]
      apply not_accounts_of_no_slab htracked hlegal
      rw [hptr]
      exact hopened.findSlabOf second_page_ge

end FirstObject

section Runs

variable {m : Memory} {kernelEnd staticBitmap : Word} {c : SlabClients} {run : List SlabCall}

theorem accounts_along_writes (h : Tracked c) (hrun : requests run = []) :
    Along step Accounts c run := by
  induction run generalizing c with
  | nil => trivial
  | cons call calls ih =>
      cases call with
      | kmalloc size => cases hrun
      | kfree ptr => cases hrun
      | write x v =>
          have haccounts := accounts_write h x v
          exact ⟨haccounts, fun c' hstep => ih (h.step haccounts hstep) hrun⟩

theorem accounts_along_empty_pool (hstart : alignedPoolStart kernelEnd = 0)
    (hlegal : Along step Legal (start m kernelEnd staticBitmap) run) :
    Along step Accounts (start m kernelEnd staticBitmap) run := by
  induction run with
  | nil => trivial
  | cons call calls ih =>
      obtain ⟨hcall, hrest⟩ := hlegal
      obtain ⟨size, rfl, hsize, -⟩ := legal_start hcall
      have hnone : (allocPages (start m kernelEnd staticBitmap).mm 0).1 = none :=
        congrArg Prod.fst (allocPages_of_empty_pool hstart)
      have hfind := findFreeSlab_start m kernelEnd staticBitmap
      have hsame : step (start m kernelEnd staticBitmap) (.kmalloc size) =
          some (start m kernelEnd staticBitmap) := by
        have htaken := (takenPage_of_none hfind).trans hnone
        simp only [step, kmalloc_of_no_page hsize hfind hnone, htaken, Option.map_some, receive,
          if_true]
        rfl
      refine ⟨accounts_of_no_page (tracked_start m kernelEnd staticBitmap) hsize hfind hnone, ?_⟩
      intro c' hstep
      obtain rfl := Option.some.inj (hsame.symm.trans hstep)
      exact ih (hrest _ hsame)

theorem accounts_along_single (hstart : alignedPoolStart kernelEnd ≠ 0)
    (hlegal : Along step Legal (start m kernelEnd staticBitmap) run)
    (hrun : (requests run).length ≤ 1) :
    Along step Accounts (start m kernelEnd staticBitmap) run := by
  cases run with
  | nil => trivial
  | cons call calls =>
      obtain ⟨size, rfl, hsize, -⟩ := legal_start hlegal.1
      have haccounts := accounts_first m staticBitmap hstart hsize
      refine ⟨haccounts, fun c hstep => ?_⟩
      apply accounts_along_writes ((tracked_start m kernelEnd staticBitmap).step haccounts hstep)
      have hcount : (requests calls).length + 1 ≤ 1 := hrun
      exact List.eq_nil_of_length_eq_zero (by omega)

theorem Legal.of_live {c d : SlabClients} {call : SlabCall} (hlive : d.live = c.live)
    (h : Legal c call) : Legal d call := by
  cases call with
  | kmalloc size => exact h
  | kfree ptr =>
      rw [Legal, hlive]
      exact h
  | write x v =>
      rw [Legal, hlive]
      exact h

theorem exists_request (hlegal : Along step Legal c run) (hrun : 0 < (requests run).length) :
    ∃ call rest, requests run = call :: rest ∧ isRequest call = true ∧
      ∀ d : SlabClients, d.live = c.live → Legal d call := by
  induction run generalizing c with
  | nil => exact absurd hrun (lt_irrefl 0)
  | cons call calls ih =>
      obtain ⟨hcall, hrest⟩ := hlegal
      cases call with
      | kmalloc size => exact ⟨_, _, rfl, rfl, fun d hd => hcall.of_live hd⟩
      | kfree ptr => exact ⟨_, _, rfl, rfl, fun d hd => hcall.of_live hd⟩
      | write x v =>
          have hstep : step c (.write x v) = some _ := rfl
          have hfirst := ih (hrest _ hstep) hrun
          exact hfirst

/-- A run of two requests goes wrong if nothing is stored in between. -/
theorem not_accounts_of_two_requests (hstart : alignedPoolStart kernelEnd ≠ 0)
    (hlegal : Along step Legal (start m kernelEnd staticBitmap) run)
    (hrun : 2 ≤ (requests run).length) :
    ∃ run', requests run' <+: requests run ∧
      Along step Legal (start m kernelEnd staticBitmap) run' ∧
        ¬ Along step Accounts (start m kernelEnd staticBitmap) run' := by
  cases run with
  | nil => exact absurd hrun (by decide)
  | cons first calls =>
      obtain ⟨hfirst, hrest⟩ := hlegal
      obtain ⟨size, rfl, hsize, hle⟩ := legal_start hfirst
      have haccounts := accounts_first m staticBitmap hstart hsize
      obtain ⟨c, hstep, -, -⟩ := id haccounts
      have hcount : 2 ≤ (requests calls).length + 1 := hrun
      obtain ⟨call, rest, hcalls, hrequest, hcall⟩ :=
        exists_request (hrest c hstep) (by omega)
      have htwo : requests [.kmalloc size, call] = [.kmalloc size, call] := by
        rw [requests, List.filter_cons_of_pos rfl, List.filter_cons_of_pos hrequest,
          List.filter_nil]
      have hall : requests (.kmalloc size :: calls) = .kmalloc size :: call :: rest := by
        rw [requests, List.filter_cons_of_pos rfl, ← hcalls, requests]
      refine ⟨[.kmalloc size, call], ?_, ⟨hfirst, fun c' hc' => ?_⟩, fun h => ?_⟩
      · rw [htwo, hall]
        exact ⟨rest, rfl⟩
      · obtain rfl := Option.some.inj (hstep.symm.trans hc')
        exact ⟨hcall _ rfl, fun _ _ => trivial⟩
      · exact not_accounts_second hstart hsize hle hstep (hcall c rfl) hrequest (h.2 c hstep).1

end Runs

/-- Whatever clients store, the counters are right along every run of at most one request,
and along all runs from a pool at address zero; a sequence of requests keeps them right in
all its runs exactly in these two cases. -/
theorem accounts_runs_iff_single_request (m : Memory) (kernelEnd staticBitmap : Word) :
    (∀ run, Along step Legal (start m kernelEnd staticBitmap) run →
      alignedPoolStart kernelEnd = 0 ∨ (requests run).length ≤ 1 →
        Along step Accounts (start m kernelEnd staticBitmap) run) ∧
    ∀ rs, (∀ run, requests run <+: rs →
        Along step Legal (start m kernelEnd staticBitmap) run →
          Along step Accounts (start m kernelEnd staticBitmap) run) ↔
      alignedPoolStart kernelEnd = 0 ∨ ∀ run, requests run <+: rs →
        Along step Legal (start m kernelEnd staticBitmap) run → (requests run).length ≤ 1 := by
  have hone : ∀ run, Along step Legal (start m kernelEnd staticBitmap) run →
      alignedPoolStart kernelEnd = 0 ∨ (requests run).length ≤ 1 →
        Along step Accounts (start m kernelEnd staticBitmap) run := by
    intro run hlegal h
    by_cases hstart : alignedPoolStart kernelEnd = 0
    · exact accounts_along_empty_pool hstart hlegal
    · exact accounts_along_single hstart hlegal (h.resolve_left hstart)
  refine ⟨hone, fun rs => ⟨fun haccounts => ?_, fun h run hprefix hlegal => ?_⟩⟩
  · by_contra hmore
    push Not at hmore
    obtain ⟨hstart, run, hprefix, hlegal, hrun⟩ := hmore
    obtain ⟨run', hprefix', hlegal', hwrong⟩ := not_accounts_of_two_requests hstart hlegal hrun
    exact hwrong (haccounts run' (hprefix'.trans hprefix) hlegal')
  · exact hone run hlegal (h.imp_right fun h => h run hprefix hlegal)

theorem accounts_runs_one_request :
    ∀ run, requests run <+: [.kmalloc 8] →
      Along step Legal (start (fun _ => 0) 0x200000 0x100000) run →
        Along step Accounts (start (fun _ => 0) 0x200000 0x100000) run :=
  ((accounts_runs_iff_single_request (fun _ => 0) 0x200000 0x100000).2 _).mpr
    (.inr fun _ hprefix _ => hprefix.length_le)

/-- The object of `kmalloc(8)` is freed and stays counted. -/
theorem kmalloc_kfree_not_accounts :
    Along step Legal (start (fun _ => 0) 0x200000 0x100000) [.kmalloc 8, .kfree 0x201000] ∧
      ¬ Along step Accounts (start (fun _ => 0) 0x200000 0x100000)
        [.kmalloc 8, .kfree 0x201000] := by
  have hpage : alignedPoolStart 0x200000 + pageSize = 0x201000 := by decide
  have hstart : alignedPoolStart 0x200000 ≠ 0 := by decide
  obtain ⟨s', hk, -⟩ := kmalloc_start (fun _ => 0) 0x100000 hstart
    (show (8 : Word) ≠ 0 by decide) (by decide)
  obtain ⟨c, hstep, -⟩ := accounts_first (fun _ => 0) 0x100000 hstart
    (show (8 : Word) ≠ 0 by decide)
  have hheld : Legal c (.kfree 0x201000) := by
    refine ⟨⟨0x201000, 8⟩, ?_, rfl⟩
    rw [(step_kmalloc hk hstep).2, hpage]
    exact List.mem_singleton.mpr rfl
  refine ⟨⟨⟨by decide, by decide⟩, fun c' hc' => ?_⟩, fun h => ?_⟩
  · obtain rfl := Option.some.inj (hstep.symm.trans hc')
    exact ⟨hheld, fun _ _ => trivial⟩
  · exact not_accounts_second hstart (by decide) (by decide) hstep hheld rfl (h.2 c hstep).1

end ShlteOs.SlabAccounting
