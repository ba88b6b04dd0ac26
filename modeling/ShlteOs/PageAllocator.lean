import ShlteOs.ByteMemory
import ShlteOs.PointerWalk

/-!
The buddy page allocator of `lib/mm.c`.  The allocator's static record is a
Lean record beside a flat memory; the free-list links and the allocation
bitmap live in that memory, exactly where the code reads and writes them, so a
client that stores into a block it holds changes what the allocator will read
there.  The messages printed on the way are left out: they change neither the
record nor the memory.
-/

namespace ShlteOs.PageAllocator

open ShlteOs.ByteMemory
open ShlteOs.PointerWalk

def maxOrderBits : Nat := 10

def pageSize : Word := 4096

def blockPages (order : Nat) : Word := (1 : Word) <<< order

/-- The static record `buddy`. A free list is the address of its first node, or
zero; the word stored at a node is the address of the following node. -/
structure Buddy where
  poolStart : Word := 0
  poolPages : Word := 0
  bitmap : Word := 0
  bitmapWords : Word := 0
  freeLists : Nat → Word := fun _ => 0
  freeCount : Word := 0
  initialized : Bool := false

/-- The record of the slab allocator. -/
structure Slab where
  slabs : Word := 0
  totalObjs : Word := 0
  usedObjs : Word := 0
  totalPages : Word := 0
  usedPages : Word := 0

/-- The memory, and the records of both allocators. -/
structure MM where
  mem : Memory
  buddy : Buddy := {}
  slab : Slab := {}

def MM.setFreeList (s : MM) (order : Nat) (node : Word) : MM :=
  { s with buddy := { s.buddy with
      freeLists := Function.update s.buddy.freeLists order node } }

def MM.addFreeCount (s : MM) (pages : Word) : MM :=
  { s with buddy := { s.buddy with freeCount := s.buddy.freeCount + pages } }

def MM.setMem (s : MM) (m : Memory) : MM := { s with mem := m }

/-- A block becomes the head of its free list. -/
def MM.push (s : MM) (order : Nat) (node : Word) : MM :=
  (s.setMem (store s.mem node (s.buddy.freeLists order))).setFreeList order node

/-- The address of a block by its number. -/
def buddyIdxToPhys (b : Buddy) (order : Nat) (idx : Word) : Word :=
  b.poolStart + idx * blockPages order * pageSize

/-- The number of a block of this order, counted from the start of the pool. -/
def buddyPhysToIdx (b : Buddy) (phys : Word) (order : Nat) : Word :=
  (phys - b.poolStart) / (blockPages order * pageSize)

/-- A bit of the bitmap; what lies behind it counts as allocated. -/
def buddyIsAllocated (b : Buddy) (m : Memory) (pageIdx : Word) : Bool :=
  let wordIdx := pageIdx / 64
  let bitIdx := pageIdx % 64
  if b.bitmapWords ≤ wordIdx then true
  else (load m (b.bitmap + wordIdx * 8) >>> bitIdx &&& 1) != 0

/-- Sets or clears a bit of the bitmap; numbers behind it are ignored. -/
def buddySetAllocated (b : Buddy) (m : Memory) (pageIdx : Word)
    (allocated : Bool) : Memory :=
  let wordIdx := pageIdx / 64
  let bitIdx := pageIdx % 64
  if b.bitmapWords ≤ wordIdx then m
  else
    let slot := b.bitmap + wordIdx * 8
    if allocated then store m slot (load m slot ||| ((1 : Word) <<< bitIdx))
    else store m slot (load m slot &&& ~~~((1 : Word) <<< bitIdx))

/-- The loops that set or clear the bits of a block. -/
def setAllocatedRange (b : Buddy) (m : Memory) (first : Word) (count : Nat)
    (allocated : Bool) : Memory :=
  (List.range count).foldl
    (fun m i => buddySetAllocated b m (first + BitVec.ofNat 64 i) allocated) m

/-- The first nonempty list of the order or above. -/
def searchOrder (freeLists : Nat → Word) (order : Nat) : Option Nat :=
  (List.range' order (maxOrderBits - order)).find? fun found =>
    freeLists found != 0

/-- The split loop, with `n` orders left above the requested one. Each turn
pushes the left half and goes on with the right half. -/
def splitLoop (order : Nat) : Nat → MM → Word → MM × Word
  | 0, s, block => (s, block)
  | n + 1, s, block =>
      let found := order + n
      let buddyBlock := block + blockPages found * pageSize
      let buddyPage := buddyPhysToIdx s.buddy buddyBlock found
      let s := s.setMem (setAllocatedRange s.buddy s.mem buddyPage (2 ^ found) true)
      let s := s.addFreeCount (-blockPages found)
      splitLoop order n (s.push found block) buddyBlock

/-- `free_lists[found]->next`: the block `alloc_pages` takes is not the head of
the list but the one the head node links to. -/
def secondNode (s : MM) (found : Nat) : Word := load s.mem (s.buddy.freeLists found)

/-- The list loses its head: the block taken is the node behind it, and it becomes the new
head. -/
def popBlock (s : MM) (found : Nat) : MM :=
  let block := secondNode s found
  let s := s.setFreeList found block
  let startPage := buddyPhysToIdx s.buddy block found
  let s := s.setMem (setAllocatedRange s.buddy s.mem startPage (2 ^ found) true)
  s.addFreeCount (-blockPages found)

/-- `alloc_pages`; the address written through `phys_addr`, or `none` for the
return value `-1`. -/
def allocPages (s : MM) (order : Nat) : Option Word × MM :=
  if s.buddy.initialized = false then (none, s)
  else if maxOrderBits ≤ order then (none, s)
  else if order = 0 ∧ s.buddy.poolPages = 0 then (none, s)
  else
    match searchOrder s.buddy.freeLists order with
    | none => (none, s)
    | some found =>
        let r := splitLoop order (found - order) (popBlock s found) (secondNode s found)
        (some r.2, r.1)

/-- The address and the page index `free_pages` takes for the buddy of the block
at `phys`. The index starts from a block index of the given order. -/
def buddyOf (b : Buddy) (phys : Word) (coalesced : Nat) : Word × Word :=
  let pageIdx := buddyPhysToIdx b phys coalesced
  if pageIdx % 2 = 0 then
    (phys + blockPages coalesced * pageSize, pageIdx + blockPages coalesced)
  else (phys - blockPages coalesced * pageSize, pageIdx - blockPages coalesced)

/-- The test of all bits of the buddy. -/
def buddyFree (b : Buddy) (m : Memory) (buddyPageIdx : Word) (coalesced : Nat) : Bool :=
  (List.range (2 ^ coalesced)).all fun i =>
    !buddyIsAllocated b m (buddyPageIdx + BitVec.ofNat 64 i)

def walkFuel : Nat := 2 ^ 64

/-- The walk over `free_lists[order]` in search of `target`, as the pair
`(prev, curr)` it stops with; `none` when the list is cyclic. -/
def findNode (m : Memory) (head target : Word) : Option (Word × Word) :=
  walk (fun p : Word × Word => p.2 == 0 || p.2 == target)
    (fun p => (p.2, load m p.2)) walkFuel (0, head)

theorem findNode_curr (m : Memory) (head : Word) (k : Nat) :
    ((fun p : Word × Word => (p.2, load m p.2))^[k] (0, head)).2 = (load m)^[k] head := by
  have hsemi : Function.Semiconj Prod.snd (fun p : Word × Word => (p.2, load m p.2)) (load m) :=
    fun _ => rfl
  exact hsemi.iterate_right k (0, head)

/-- The walk over a free list gives nothing exactly when the list is cyclic and
does not hold the node that is looked for. -/
theorem findNode_eq_none_iff (m : Memory) (head target : Word) :
    findNode m head target = none ↔
      ∀ k, (load m)^[k] head ≠ 0 ∧ (load m)^[k] head ≠ target := by
  rw [findNode, walkFuel, walk_eq_none_iff (fun p : Word × Word => p.2.toFin)]
  · simp only [findNode_curr, Bool.or_eq_false_iff, beq_eq_false_iff_ne]
  · rintro ⟨a, b⟩ ⟨a', b'⟩ h
    obtain rfl : b = b' := BitVec.eq_of_toFin_eq h
    rfl
  · rintro ⟨a, b⟩ ⟨a', b'⟩ h
    obtain rfl : b = b' := BitVec.eq_of_toFin_eq h
    rfl

/-- Takes a node out of its list. -/
def unlink (s : MM) (order : Nat) (target : Word) : Option MM :=
  (findNode s.mem (s.buddy.freeLists order) target).map fun p =>
    if p.2 = 0 then s
    else if p.1 = 0 then s.setFreeList order (load s.mem p.2)
    else s.setMem (store s.mem p.1 (load s.mem p.2))

/-- The coalescing loop of `free_pages`, with `n` orders left below
`MAX_ORDER_BITS - 1`; the state, address and order it ends with. -/
def coalesceLoop : Nat → MM → Word → Nat → Option (MM × Word × Nat)
  | 0, s, phys, coalesced => some (s, phys, coalesced)
  | n + 1, s, phys, coalesced =>
      let buddyPhys := (buddyOf s.buddy phys coalesced).1
      let buddyPageIdx := (buddyOf s.buddy phys coalesced).2
      if buddyFree s.buddy s.mem buddyPageIdx coalesced = false then
        some (s, phys, coalesced)
      else
        let s := s.setMem
          (setAllocatedRange s.buddy s.mem buddyPageIdx (2 ^ coalesced) false)
        let s := s.addFreeCount (blockPages coalesced)
        if s.buddy.freeLists coalesced = 0 then some (s, phys, coalesced)
        else
          (unlink s coalesced buddyPhys).bind fun s =>
            coalesceLoop n s (if buddyPhys < phys then buddyPhys else phys)
              (coalesced + 1)

/-- `free_pages`; `none` when the walk over a corrupted list does not end. -/
def freePages (s : MM) (phys : Word) (order : Nat) : Option MM :=
  if s.buddy.initialized = false then some s
  else if maxOrderBits ≤ order then some s
  else if phys % (pageSize * blockPages order) ≠ 0 then some s
  else
    (coalesceLoop (maxOrderBits - 1 - order) s phys order).map fun r =>
      let phys := r.2.1
      let coalesced := r.2.2
      let s := r.1.push coalesced phys
      let startPage := buddyPhysToIdx s.buddy phys coalesced
      let s := s.setMem
        (setAllocatedRange s.buddy s.mem startPage (2 ^ coalesced) false)
      s.addFreeCount (blockPages coalesced - blockPages order)

def buddyFreePages (s : MM) : Word := s.buddy.freeCount

/-- The loop that threads the first free list. `free_lists[0]` is indexed as an
array of 8-byte nodes, so link `i` is stored `8 * i` bytes behind `start`; the
last entry gets zero. -/
def writeLinks (m : Memory) (start : Word) (link : Nat → Word) (pages : Nat) : Memory :=
  store (storeArray m start link (pages - 1)) (start + BitVec.ofNat 64 (pages - 1) * 8) 0

/-- The end of the kernel, rounded up to 2 MiB. -/
def alignedPoolStart (kernelEnd : Word) : Word :=
  (kernelEnd + 2 * 1024 * 1024 - 1) &&& ~~~(2 * 1024 * 1024 - 1)

def initialPoolPages : Nat := 64 * 1024 * 1024 / 4096

/-- `mm_init`, for the linker's `__kernel_end` and the address of the function's
`static_bitmap` of 1024 words. -/
def mmInit (s : MM) (kernelEnd staticBitmap : Word) : MM :=
  let poolStart := alignedPoolStart kernelEnd
  let m := memset s.mem staticBitmap 0 (1024 * 8)
  let m := writeLinks m poolStart
    (fun i => poolStart + (BitVec.ofNat 64 i + 1) * pageSize) initialPoolPages
  { s with
    mem := m
    buddy :=
      { poolStart := poolStart
        poolPages := BitVec.ofNat 64 initialPoolPages
        bitmap := staticBitmap
        bitmapWords := 1024
        freeLists := Function.update s.buddy.freeLists 0 poolStart
        freeCount := BitVec.ofNat 64 initialPoolPages
        initialized := true } }

def boot (m : Memory) : MM := { mem := m }

end ShlteOs.PageAllocator
