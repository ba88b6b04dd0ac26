import ShlteOs.CallSequence
import ShlteOs.PageRequests
import ShlteOs.SlabAccounting

/-!
The memory manager before `mm_init`.  `buddy_init` takes its bitmap from `kmalloc`,
which takes its pages from the buddy system, so nothing but `mm_init` can get the
allocators started: every other call of `mm.c` is refused, in every order.
-/

namespace ShlteOs.HeapBootstrap

open ShlteOs.ByteMemory
open ShlteOs.CallSequence
open ShlteOs.PointerWalk
open ShlteOs.PageAllocator
open ShlteOs.SlabAllocator
open ShlteOs.PageRequests
open ShlteOs.InitialFreeList (allocPages_mmInit)
open ShlteOs.HeapSafety (second_page_ne_zero)
open ShlteOs.SlabAccounting (kmalloc_first)

/-- The calls of the memory manager other than `mm_init`, and a store of some other
part of the kernel. -/
inductive MmCall
  | kmalloc (size : Word)
  | kfree (ptr : Word)
  | krealloc (ptr newSize : Word)
  | allocPages (order : Nat)
  | freePages (phys : Word) (order : Nat)
  | physAlloc (size : Word)
  | physFree (ptr size : Word)
  | pageAlloc
  | pageFree (page : Word)
  | stackAlloc (size : Word)
  | stackFree (stack : Word)
  | buddyInit (start totalPages : Word)
  | write (x : Word) (v : Byte)

/-- Whether the caller got something, a pointer, a page or the return value 0, and the
state behind the call. -/
def perform (s : MM) : MmCall → Option (Bool × MM)
  | .kmalloc size => (kmalloc s size).map fun r => (r.1 != 0, r.2)
  | .kfree ptr => (kfree s ptr).map fun s => (false, s)
  | .krealloc ptr newSize => (krealloc s ptr newSize).map fun r => (r.1 != 0, r.2)
  | .allocPages order => some ((allocPages s order).1.isSome, (allocPages s order).2)
  | .freePages phys order => (freePages s phys order).map fun s => (false, s)
  | .physAlloc size => some ((physAlloc s size).1 != 0, (physAlloc s size).2)
  | .physFree ptr size => (physFree s ptr size).map fun s => (false, s)
  | .pageAlloc => some ((pageAlloc s).1.isSome, (pageAlloc s).2)
  | .pageFree page => (pageFree s page).map fun s => (false, s)
  | .stackAlloc size => some ((stackAlloc s size).1 != 0, (stackAlloc s size).2)
  | .stackFree stack => (stackFree s stack).map fun s => (false, s)
  | .buddyInit start totalPages =>
      (buddyInit s start totalPages).map fun r => (r.1 == 0, r.2)
  | .write x v => some (false, s.setMem (storeByte s.mem x v))

def step (s : MM) (call : MmCall) : Option MM := (perform s call).map Prod.snd

def run (s : MM) : List MmCall → Option MM
  | [] => some s
  | call :: calls => (step s call).bind fun s => run s calls

/-- The state behind a call that is refused.  `buddy_init` enters its pool into the record
before it asks for the bitmap it does not get; nothing else changes. -/
def leftBy (s : MM) : MmCall → MM
  | .buddyInit start totalPages =>
      if totalPages = 0 ∨ 0x100000 < totalPages then s
      else { s with buddy := { s.buddy with
        poolStart := start
        poolPages := totalPages
        freeCount := totalPages
        bitmapWords := (totalPages + 63) / 64
        bitmap := 0 } }
  | .write x v => s.setMem (storeByte s.mem x v)
  | _ => s

/-- The call returns with nothing, and leaves the state as it was up to the record that
`buddy_init` writes. -/
def Refused (s : MM) (call : MmCall) : Prop :=
  perform s call = some (false, leftBy s call)

/-- Neither allocator has anything to give. -/
structure Dead (s : MM) : Prop where
  initialized : s.buddy.initialized = false
  slabs : s.slab.slabs = 0

theorem dead_boot (m : Memory) : Dead (boot m) := ⟨rfl, rfl⟩

section Calls

variable {s : MM}

theorem Dead.allocPages (h : Dead s) (order : Nat) : allocPages s order = (none, s) :=
  if_pos h.initialized

theorem Dead.freePages (h : Dead s) (phys : Word) (order : Nat) :
    freePages s phys order = some s :=
  if_pos h.initialized

theorem Dead.kmalloc (h : Dead s) (size : Word) : kmalloc s size = some (0, s) := by
  rw [SlabAllocator.kmalloc]
  split
  · rfl
  · have hfind : findFreeSlab s.mem s.slab.slabs = some 0 := by
      rw [h.slabs]
      exact walk_of_stop rfl (by decide)
    have hnew : newSlab s = (0, s) := by rw [newSlab, h.allocPages]
    rw [slabAlloc, hfind, Option.map_some, if_pos rfl, hnew, Option.map_some, if_pos rfl]

theorem Dead.kfree (h : Dead s) (ptr : Word) : kfree s ptr = some s := by
  rw [SlabAllocator.kfree]
  split
  · rfl
  · have hfind : findSlabOf s.mem s.slab.slabs ptr = some 0 := by
      rw [h.slabs]
      exact walk_of_stop rfl (by decide)
    rw [slabFree, hfind, Option.map_some, if_pos rfl]
    exact ite_self _

theorem Dead.krealloc (h : Dead s) (ptr newSize : Word) :
    krealloc s ptr newSize = some (0, s) := by
  rw [SlabAllocator.krealloc]
  split
  · exact h.kmalloc newSize
  · split
    · rw [h.kfree, Option.map_some]
    · rw [h.kmalloc, Option.bind_some, if_pos rfl]

theorem Dead.physAlloc (h : Dead s) (size : Word) : physAlloc s size = (0, s) := by
  rw [PageRequests.physAlloc]
  split
  · rfl
  · rw [h.allocPages]

theorem Dead.physFree (h : Dead s) (ptr size : Word) : physFree s ptr size = some s := by
  rw [PageRequests.physFree, h.freePages, ite_self]

theorem Dead.stackAlloc (h : Dead s) (size : Word) : stackAlloc s size = (0, s) := by
  rw [PageRequests.stackAlloc, h.allocPages]

theorem Dead.stackFree (h : Dead s) (stack : Word) : stackFree s stack = some s := by
  rw [PageRequests.stackFree]
  split
  · rfl
  · exact h.freePages _ _

theorem Dead.buddyInit (h : Dead s) (start totalPages : Word) :
    buddyInit s start totalPages = some (-1, leftBy s (.buddyInit start totalPages)) := by
  rw [SlabAllocator.buddyInit, leftBy]
  split
  · rfl
  · have hdead : Dead { s with buddy := { s.buddy with
        poolStart := start
        poolPages := totalPages
        freeCount := totalPages
        bitmapWords := (totalPages + 63) / 64 } } := ⟨h.initialized, h.slabs⟩
    have hkmalloc := hdead.kmalloc ((totalPages + 63) / 64 * 8)
    exact (congrArg (Option.map _) hkmalloc).trans (congrArg some (if_pos rfl))

theorem Dead.refused (h : Dead s) (call : MmCall) : Refused s call := by
  cases call with
  | kmalloc size => rw [Refused, perform, h.kmalloc]; rfl
  | kfree ptr => rw [Refused, perform, h.kfree]; rfl
  | krealloc ptr newSize => rw [Refused, perform, h.krealloc]; rfl
  | allocPages order => rw [Refused, perform, h.allocPages]; rfl
  | freePages phys order => rw [Refused, perform, h.freePages]; rfl
  | physAlloc size => rw [Refused, perform, h.physAlloc]; rfl
  | physFree ptr size => rw [Refused, perform, h.physFree]; rfl
  | pageAlloc => rw [Refused, perform, pageAlloc, h.allocPages]; rfl
  | pageFree page => rw [Refused, perform, pageFree, h.freePages]; rfl
  | stackAlloc size => rw [Refused, perform, h.stackAlloc]; rfl
  | stackFree stack => rw [Refused, perform, h.stackFree]; rfl
  | buddyInit start totalPages => rw [Refused, perform, h.buddyInit]; rfl
  | write x v => rfl

theorem Dead.leftBy (h : Dead s) (call : MmCall) : Dead (leftBy s call) := by
  cases call with
  | buddyInit start totalPages =>
      rw [HeapBootstrap.leftBy]
      split
      · exact h
      · exact ⟨h.initialized, h.slabs⟩
  | write x v => exact ⟨h.initialized, h.slabs⟩
  | _ => exact h

theorem Dead.step_eq (h : Dead s) (call : MmCall) :
    step s call = some (HeapBootstrap.leftBy s call) := by
  rw [step, h.refused call, Option.map_some]

end Calls

theorem Dead.run {s : MM} (h : Dead s) (calls : List MmCall) :
    ∃ s', run s calls = some s' ∧ Dead s' := by
  induction calls generalizing s with
  | nil => exact ⟨s, rfl, h⟩
  | cons call calls ih =>
      rw [HeapBootstrap.run, h.step_eq call]
      exact ih (h.leftBy call)

theorem kmalloc_of_page {s t : MM} {page size : Word} (hslabs : s.slab.slabs = 0)
    (halloc : allocPages s 0 = (some page, t)) (hpage : page ≠ 0) (hsize : size ≠ 0) :
    ∃ s', kmalloc s size = some (page, s') :=
  ⟨_, kmalloc_first hslabs halloc hpage hsize⟩

theorem mmInit_slab (s : MM) (kernelEnd staticBitmap : Word) :
    (mmInit s kernelEnd staticBitmap).slab = s.slab := by
  rw [mmInit]

theorem kmalloc_mmInit_of_dead {s : MM} (h : Dead s) {kernelEnd : Word}
    (hstart : alignedPoolStart kernelEnd ≠ 0) (staticBitmap : Word) {size : Word}
    (hsize : size ≠ 0) :
    ∃ s', kmalloc (mmInit s kernelEnd staticBitmap) size =
      some (alignedPoolStart kernelEnd + pageSize, s') := by
  apply kmalloc_of_page _ (allocPages_mmInit s kernelEnd staticBitmap hstart)
    (second_page_ne_zero kernelEnd) hsize
  rw [mmInit_slab, h.slabs]

/-- Whatever is called before `mm_init`, in whatever order and with whatever stores in
between, every call returns, is refused and leaves the state as it was, except that
`buddy_init` writes the pool into its record; and `mm_init` then makes the next sized
request a success, for every end of the kernel but one whose pool start wraps to 0. -/
theorem refused_until_mmInit (m : Memory) (calls : List MmCall) :
    Along step Refused (boot m) calls ∧
      ∃ s, run (boot m) calls = some s ∧
        ∀ kernelEnd staticBitmap size : Word, alignedPoolStart kernelEnd ≠ 0 → size ≠ 0 →
          ∃ s', kmalloc (mmInit s kernelEnd staticBitmap) size =
            some (alignedPoolStart kernelEnd + pageSize, s') := by
  have hdead := dead_boot m
  obtain ⟨s, hrun, hlast⟩ := hdead.run calls
  refine ⟨?_, s, hrun, fun kernelEnd staticBitmap size hstart hsize =>
    kmalloc_mmInit_of_dead hlast hstart staticBitmap hsize⟩
  refine Along.of_invariant Dead (fun s call h _ => h.refused call) ?_ hdead
    (Along.of_forall (P := fun _ _ => True) (fun _ _ => trivial) (boot m) calls)
  intro s call s' h _ hstep
  rw [h.step_eq call] at hstep
  obtain rfl := Option.some.inj hstep
  exact h.leftBy call

end ShlteOs.HeapBootstrap
