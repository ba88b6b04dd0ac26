import ShlteOs.CallSequence
import ShlteOs.InitialFreeList

/-!
Clients of the kernel heap.  A fresh slab page carries its `slab_t` header in
its first bytes, and the same bytes are the first object `slab_alloc` hands
out; the heap therefore keeps its objects apart from its headers only as long
as it hands out nothing.
-/

namespace ShlteOs.HeapSafety

open ShlteOs.ByteMemory
open ShlteOs.CallSequence
open ShlteOs.PointerWalk
open ShlteOs.PageAllocator
open ShlteOs.PageAllocatorSteps
open ShlteOs.SlabAllocator
open ShlteOs.InitialFreeList

/-- A live object, with the size that was asked for. -/
structure Object where
  ptr : Word
  size : Word

/-- The heap and the objects its clients hold. -/
structure HeapClients where
  mm : MM
  live : List Object

/-- The calls of clients, and their stores. -/
inductive HeapCall where
  | kmalloc (size : Word)
  | kfree (ptr : Word)
  | krealloc (ptr size : Word)
  | write (x : Word) (v : Byte)

def Held (c : HeapClients) (ptr : Word) : Prop := ∃ o ∈ c.live, o.ptr = ptr

/-- Clients pass null or a pointer they hold, and store only into the bytes they
requested. -/
def Legal (c : HeapClients) : HeapCall → Prop
  | .kmalloc _ => True
  | .kfree ptr => ptr = 0 ∨ Held c ptr
  | .krealloc ptr _ => ptr = 0 ∨ Held c ptr
  | .write x _ => ∃ o ∈ c.live, Covers o.ptr o.size.toNat x

/-- The objects after `krealloc` has given one back and handed one out. -/
def exchange (live : List Object) (old new size : Word) : List Object :=
  let live := live.eraseP fun o => o.ptr == old
  if new = 0 then live else ⟨new, size⟩ :: live

/-- One call; `none` when it does not return. A reallocation that fails leaves
the old object with its client. -/
def step (c : HeapClients) : HeapCall → Option HeapClients
  | .kmalloc size =>
      (kmalloc c.mm size).map fun r => { mm := r.2, live := exchange c.live 0 r.1 size }
  | .kfree ptr =>
      (kfree c.mm ptr).map fun mm => { mm := mm, live := exchange c.live ptr 0 0 }
  | .krealloc ptr size =>
      (krealloc c.mm ptr size).map fun r =>
        let failed := r.1 = 0 ∧ size ≠ 0
        { mm := r.2
          live := if failed then c.live else exchange c.live ptr r.1 size }
  | .write x v => some { c with mm := c.mm.setMem (storeByte c.mm.mem x v) }

/-- The slab headers reached from `slab.slabs` along `next`. -/
inductive OnSlabs (s : MM) : Word → Prop
  | head (hne : s.slab.slabs ≠ 0) : OnSlabs s s.slab.slabs
  | next {p : Word} (hp : OnSlabs s p) (hne : load s.mem (nextField p) ≠ 0) :
      OnSlabs s (load s.mem (nextField p))

/-- The live objects overlap neither each other nor the header of a slab. -/
def Separated (c : HeapClients) : Prop :=
  c.live.Pairwise (fun a b => Apart a.ptr a.size.toNat b.ptr b.size.toNat) ∧
    ∀ o ∈ c.live, ∀ p, OnSlabs c.mm p → Apart o.ptr o.size.toNat p slabHeaderSize

def target : HeapCall → Word
  | .kfree ptr => ptr
  | .krealloc ptr _ => ptr
  | _ => 0

/-- A call leaves the bytes of all objects but its own as they were. -/
def Preserves (c c' : HeapClients) : HeapCall → Prop
  | .write _ _ => True
  | call => ∀ o ∈ c.live, o.ptr ≠ target call →
      ∀ x, Covers o.ptr o.size.toNat x → c'.mm.mem x = c.mm.mem x

/-- The call returns, leaves the heap separated and touches no other object. -/
def HeapSafe (c : HeapClients) (call : HeapCall) : Prop :=
  ∃ c', step c call = some c' ∧ Separated c' ∧ Preserves c c' call

def start (m : Memory) (kernelEnd staticBitmap : Word) : HeapClients :=
  { mm := mmInit (boot m) kernelEnd staticBitmap, live := [] }

def requested : HeapCall → Word
  | .kmalloc size => size
  | .krealloc _ size => size
  | _ => 0

theorem heapSafe_of_step_self {c : HeapClients} {call : HeapCall} (hlive : c.live = [])
    (hstep : step c call = some c) : HeapSafe c call := by
  refine ⟨c, hstep, ⟨by simp [hlive], by simp [hlive]⟩, ?_⟩
  cases call with
  | write x v => trivial
  | _ => simp [Preserves, hlive]

theorem legal_null {c : HeapClients} {ptr : Word} (hlive : c.live = [])
    (h : ptr = 0 ∨ Held c ptr) : ptr = 0 := by
  rcases h with h | ⟨o, ho, -⟩
  · exact h
  · simp [hlive] at ho

theorem step_of_no_live {c : HeapClients} {call : HeapCall} (hlive : c.live = [])
    (hlegal : Legal c call) :
    step c call = (kmalloc c.mm (requested call)).map fun r =>
      { mm := r.2, live := if r.1 = 0 then [] else [⟨r.1, requested call⟩] } := by
  cases call with
  | kmalloc size => simp [step, exchange, hlive, requested]
  | kfree ptr =>
      have hptr := legal_null hlive hlegal
      simp [step, hptr, kfree, kmalloc, requested, exchange, hlive]
  | krealloc ptr size =>
      have hptr := legal_null hlive hlegal
      simp only [step, hptr, krealloc, if_true, requested, exchange, hlive, List.eraseP_nil]
      congr 1
      funext r
      split_ifs with h₁ h₂ h₂
      · rfl
      · exact absurd h₁.1 h₂
      · rfl
      · rfl
  | write x v =>
      obtain ⟨o, ho, -⟩ := hlegal
      simp [hlive] at ho

theorem kmalloc_of_no_slabs {s : MM} {size : Word} (hslabs : s.slab.slabs = 0)
    (hsize : size ≠ 0) :
    kmalloc s size = some (if (newSlab s).1 = 0 then newSlab s
      else ((newSlab s).1, (newSlab s).2.setMem
        (memset (newSlab s).2.mem (newSlab s).1 0 (roundedSize size).toNat))) := by
  have hfind : findFreeSlab s.mem s.slab.slabs = some 0 := by
    rw [hslabs]
    exact walk_of_stop rfl (by decide)
  simp only [kmalloc, if_neg hsize, slabAlloc, hfind, Option.map_some, if_true]

theorem newSlab_of_alloc {s s' : MM} {page : Word}
    (h : allocPages s 0 = (some page, s')) :
    (newSlab s).1 = page ∧ (newSlab s).2.slab.slabs = page := by
  rw [newSlab, h]
  exact ⟨rfl, rfl⟩

theorem second_page_ne_zero (kernelEnd : Word) : alignedPoolStart kernelEnd + pageSize ≠ 0 := by
  intro h
  have hval := congrArg BitVec.toNat h
  have halign := alignedPoolStart_mod kernelEnd
  have hpage : pageSize.toNat = 4096 := rfl
  have hzero : (0 : Word).toNat = 0 := rfl
  rw [BitVec.toNat_add, hpage, hzero] at hval
  omega

/-- A sized request that opens the first slab is served with the page whose
header it overlaps. -/
theorem not_heapSafe_of_new_page {c : HeapClients} {call : HeapCall} {page : Word} {s' : MM}
    (hlive : c.live = []) (hslabs : c.mm.slab.slabs = 0)
    (halloc : allocPages c.mm 0 = (some page, s')) (hne : page ≠ 0)
    (hlegal : Legal c call) (hsize : requested call ≠ 0) : ¬ HeapSafe c call := by
  rintro ⟨c', hstep, ⟨-, hheaders⟩, -⟩
  obtain ⟨hpage, hnew⟩ := newSlab_of_alloc halloc
  rw [step_of_no_live hlive hlegal, kmalloc_of_no_slabs hslabs hsize, hpage, if_neg hne,
    Option.map_some] at hstep
  dsimp only at hstep
  rw [if_neg hne] at hstep
  have hmem : (⟨page, requested call⟩ : Object) ∈ c'.live := by
    rw [← Option.some_inj.mp hstep]
    simp
  have hhead : c'.mm.slab.slabs = page := by
    rw [← Option.some_inj.mp hstep]
    exact hnew
  have hon : OnSlabs c'.mm page := hhead ▸ OnSlabs.head (hhead ▸ hne)
  have hpos : 0 < (requested call).toNat :=
    Nat.pos_of_ne_zero fun h => hsize (BitVec.eq_of_toNat_eq h)
  -- The object and the header of its slab start at the same address.
  exact hheaders _ hmem page hon page (covers_self hpos) (covers_self (by decide))

theorem not_heapSafe_first {m : Memory} {kernelEnd staticBitmap : Word} {call : HeapCall}
    (hstart : alignedPoolStart kernelEnd ≠ 0)
    (hlegal : Legal (start m kernelEnd staticBitmap) call) (hsize : requested call ≠ 0) :
    ¬ HeapSafe (start m kernelEnd staticBitmap) call :=
  not_heapSafe_of_new_page rfl rfl
    (allocPages_mmInit (boot m) kernelEnd staticBitmap hstart)
    (second_page_ne_zero kernelEnd) hlegal hsize

theorem allocPages_of_empty_pool {m : Memory} {kernelEnd staticBitmap : Word}
    (hstart : alignedPoolStart kernelEnd = 0) :
    allocPages (mmInit (boot m) kernelEnd staticBitmap) 0 =
      (none, mmInit (boot m) kernelEnd staticBitmap) := by
  apply allocPages_of_not_finds
  intro found hfinds
  apply (searchOrder_eq_some_iff.mp hfinds.2.2.2).1
  change Function.update (fun _ => (0 : Word)) 0 (alignedPoolStart kernelEnd) found = 0
  rw [hstart]
  by_cases hfound : found = 0
  · simp [hfound]
  · simp [hfound]

theorem kmalloc_of_empty_pool {m : Memory} {kernelEnd staticBitmap size : Word}
    (hstart : alignedPoolStart kernelEnd = 0) :
    kmalloc (start m kernelEnd staticBitmap).mm size =
      some (0, (start m kernelEnd staticBitmap).mm) := by
  by_cases hsize : size = 0
  · rw [kmalloc, if_pos hsize]
  · have hnone : allocPages (start m kernelEnd staticBitmap).mm 0 =
        (none, (start m kernelEnd staticBitmap).mm) := allocPages_of_empty_pool hstart
    have hslab : newSlab (start m kernelEnd staticBitmap).mm =
        (0, (start m kernelEnd staticBitmap).mm) := by
      rw [newSlab, hnone]
    rw [kmalloc_of_no_slabs rfl hsize, hslab, if_pos rfl]

theorem step_start_idle {m : Memory} {kernelEnd staticBitmap : Word} {call : HeapCall}
    (hlegal : Legal (start m kernelEnd staticBitmap) call)
    (h : alignedPoolStart kernelEnd = 0 ∨ requested call = 0) :
    step (start m kernelEnd staticBitmap) call = some (start m kernelEnd staticBitmap) := by
  have hkmalloc : kmalloc (start m kernelEnd staticBitmap).mm (requested call) =
      some (0, (start m kernelEnd staticBitmap).mm) := by
    rcases h with hempty | hzero
    · exact kmalloc_of_empty_pool hempty
    · rw [kmalloc, if_pos hzero]
  rw [step_of_no_live rfl hlegal, hkmalloc]
  rfl

/-- The heap is safe along a legal run exactly when nothing is ever requested,
or the pool starts at address zero and nothing can be served. -/
theorem heapSafe_along_iff_idle (m : Memory) (kernelEnd staticBitmap : Word)
    (calls : List HeapCall)
    (hlegal : Along step Legal (start m kernelEnd staticBitmap) calls) :
    Along step HeapSafe (start m kernelEnd staticBitmap) calls ↔
      alignedPoolStart kernelEnd = 0 ∨ ∀ call ∈ calls, requested call = 0 := by
  induction calls with
  | nil => exact iff_of_true trivial (.inr (by simp))
  | cons call calls ih =>
      obtain ⟨hl, hrest⟩ := hlegal
      constructor
      · rintro ⟨hsafe, htail⟩
        by_cases hstart : alignedPoolStart kernelEnd = 0
        · exact .inl hstart
        have hzero : requested call = 0 := by
          by_contra hsize
          exact not_heapSafe_first hstart hl hsize hsafe
        have hself := step_start_idle hl (.inr hzero)
        rcases (ih (hrest _ hself)).mp (htail _ hself) with hempty | hzeros
        · exact .inl hempty
        · exact .inr (List.forall_mem_cons.mpr ⟨hzero, hzeros⟩)
      · intro h
        have hself := step_start_idle hl (h.imp_right fun hzeros => hzeros call (by simp))
        refine ⟨heapSafe_of_step_self rfl hself, ?_⟩
        intro c' hc'
        obtain rfl := Option.some_inj.mp (hself.symm.trans hc')
        apply (ih (hrest _ hself)).mpr
        exact h.imp_right fun hzeros call hcall => hzeros call (by simp [hcall])

theorem heapSafe_along_zero_request :
    Along step HeapSafe (start (fun _ => 0) 0x200000 0x100000) [.kmalloc 0] :=
  (heapSafe_along_iff_idle (fun _ => 0) 0x200000 0x100000 [.kmalloc 0]
    ⟨trivial, fun _ _ => trivial⟩).mpr (.inr (by simp [requested]))

theorem kmalloc_32_not_heapSafe :
    Along step Legal (start (fun _ => 0) 0x200000 0x100000) [.kmalloc 32] ∧
      ¬ Along step HeapSafe (start (fun _ => 0) 0x200000 0x100000) [.kmalloc 32] :=
  ⟨⟨trivial, fun _ _ => trivial⟩, fun h =>
    @not_heapSafe_first (fun _ => 0) 0x200000 0x100000 (.kmalloc 32)
      (by decide) trivial (by decide) h.1⟩

end ShlteOs.HeapSafety
