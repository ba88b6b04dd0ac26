import ShlteOs.PageAllocator

/-!
The slab allocator of `lib/mm.c`, on top of `alloc_pages`.  A slab is one page;
its `slab_t` header lies at the start of the page and its objects are the
64-byte cells of the same page, so header fields, object links and client data
share the memory.  A null pointer is the word zero, and `none` is a call that
does not return because it walks a cyclic list of slabs.
-/

namespace ShlteOs.SlabAllocator

open ShlteOs.ByteMemory
open ShlteOs.PointerWalk
open ShlteOs.PageAllocator

def slabObjSize : Word := 64

def slabObjsPerPage : Nat := 4096 / 64

/-- `sizeof(slab_t)`: `page_phys`, `free_list`, `used[64]` and `next`. -/
def slabHeaderSize : Nat := 88

def pagePhysField (slab : Word) : Word := slab

def freeListField (slab : Word) : Word := slab + 8

/-- The flag of an object in the header. -/
def usedField (slab idx : Word) : Word := slab + 16 + idx

def nextField (slab : Word) : Word := slab + 80

/-- The first slab with a free object, or 0. -/
def findFreeSlab (m : Memory) (slabs : Word) : Option Word :=
  walk (fun p => p == 0 || load m (freeListField p) != 0)
    (fun p => load m (nextField p)) walkFuel slabs

/-- The header claims the pointer. -/
def inSlabPage (m : Memory) (slab ptr : Word) : Bool :=
  load m (pagePhysField slab) ≤ ptr && ptr < load m (pagePhysField slab) + pageSize

/-- The first slab that claims the pointer, or 0. -/
def findSlabOf (m : Memory) (slabs ptr : Word) : Option Word :=
  walk (fun p => p == 0 || inSlabPage m p ptr)
    (fun p => load m (nextField p)) walkFuel slabs

theorem walk_slabs_eq_none_iff (m : Memory) (stop : Word → Bool) (slabs : Word) :
    walk stop (fun p => load m (nextField p)) walkFuel slabs = none ↔
      ∀ k, stop ((fun p => load m (nextField p))^[k] slabs) = false :=
  walk_eq_none_iff (fun p : Word => p.toFin)
    (fun _ _ h => congrArg stop (BitVec.eq_of_toFin_eq h))
    (fun _ _ h => congrArg (fun p => (load m (nextField p)).toFin) (BitVec.eq_of_toFin_eq h))

/-- The slabs give nothing exactly when their list is cyclic and all of them are
full. -/
theorem findFreeSlab_eq_none_iff (m : Memory) (slabs : Word) :
    findFreeSlab m slabs = none ↔
      ∀ k, (fun p => load m (nextField p))^[k] slabs ≠ 0 ∧
        load m (freeListField ((fun p => load m (nextField p))^[k] slabs)) = 0 := by
  rw [findFreeSlab, walk_slabs_eq_none_iff]
  simp only [Bool.or_eq_false_iff, beq_eq_false_iff_ne, bne_eq_false_iff_eq]

theorem findSlabOf_eq_none_iff (m : Memory) (slabs ptr : Word) :
    findSlabOf m slabs ptr = none ↔
      ∀ k, (fun p => load m (nextField p))^[k] slabs ≠ 0 ∧
        inSlabPage m ((fun p => load m (nextField p))^[k] slabs) ptr = false := by
  rw [findSlabOf, walk_slabs_eq_none_iff]
  simp only [Bool.or_eq_false_iff, beq_eq_false_iff_ne]

/-- The first free object of a slab. -/
def takeObject (s : MM) (slab : Word) : Word × MM :=
  let objPhys := load s.mem (freeListField slab)
  let m := store s.mem (freeListField slab) (load s.mem objPhys)
  let objIdx := (objPhys - load m (pagePhysField slab)) / slabObjSize
  let m := storeByte m (usedField slab objIdx) 1
  (objPhys, { s with mem := m, slab := { s.slab with usedObjs := s.slab.usedObjs + 1 } })

/-- The header and the free list written into a fresh slab page: the header
fields, the links of the cells 1 to 63, and `used[0]`. -/
def initSlabPage (m : Memory) (pagePhys slabs : Word) : Memory :=
  let m := store m (pagePhysField pagePhys) pagePhys
  let m := store m (nextField pagePhys) slabs
  let m := store m (freeListField pagePhys) (pagePhys + slabObjSize)
  let m := (List.range (slabObjsPerPage - 1)).foldl
    (fun m i => store m (pagePhys + (BitVec.ofNat 64 i + 1) * slabObjSize)
      (pagePhys + (BitVec.ofNat 64 i + 2) * slabObjSize)) m
  let m := store m (pagePhys + BitVec.ofNat 64 (slabObjsPerPage - 1) * slabObjSize) 0
  storeByte m (usedField pagePhys 0) 1

/-- The second half of `slab_alloc`: a new page becomes a slab, and its first
cell, which the header occupies, is the object handed out. -/
def newSlab (s : MM) : Word × MM :=
  match allocPages s 0 with
  | (none, s) => (0, s)
  | (some pagePhys, s) =>
      (pagePhys,
        { s with
          mem := initSlabPage s.mem pagePhys s.slab.slabs
          slab := { s.slab with
            slabs := pagePhys
            totalPages := s.slab.totalPages + 1
            usedObjs := s.slab.usedObjs + 1
            totalObjs := s.slab.totalObjs + BitVec.ofNat 64 slabObjsPerPage } })

/-- `slab_alloc`: a free object, or the first one of a new slab. -/
def slabAlloc (s : MM) : Option (Word × MM) :=
  (findFreeSlab s.mem s.slab.slabs).map fun p =>
    if p = 0 then newSlab s else takeObject s p

/-- `slab_free`, which ignores a pointer that no slab claims. -/
def slabFree (s : MM) (ptr : Word) : Option MM :=
  if ptr = 0 then some s
  else
    (findSlabOf s.mem s.slab.slabs ptr).map fun p =>
      if p = 0 then s
      else
        let objIdx := (ptr - load s.mem (pagePhysField p)) / slabObjSize
        let m := storeByte s.mem (usedField p objIdx) 0
        let m := store m ptr (load m (freeListField p))
        let m := store m (freeListField p) ptr
        { s with mem := m, slab := { s.slab with usedObjs := s.slab.usedObjs - 1 } }

/-- The number of bytes `kmalloc` clears. -/
def roundedSize (size : Word) : Word :=
  let size := if size < slabObjSize then slabObjSize else size
  (size + 7) &&& ~~~7

/-- `kmalloc`: every object is one cell of a slab, whatever the size. -/
def kmalloc (s : MM) (size : Word) : Option (Word × MM) :=
  if size = 0 then some (0, s)
  else
    (slabAlloc s).map fun r =>
      if r.1 = 0 then r
      else (r.1, r.2.setMem (memset r.2.mem r.1 0 (roundedSize size).toNat))

def kfree (s : MM) (ptr : Word) : Option MM :=
  if ptr = 0 then some s else slabFree s ptr

/-- `krealloc`; the old size is taken to be a page when some slab claims the
pointer, and one object otherwise. -/
def krealloc (s : MM) (ptr newSize : Word) : Option (Word × MM) :=
  if ptr = 0 then kmalloc s newSize
  else if newSize = 0 then (kfree s ptr).map fun s => (0, s)
  else
    (kmalloc s newSize).bind fun r =>
      if r.1 = 0 then some r
      else
        (findSlabOf r.2.mem r.2.slab.slabs ptr).bind fun p =>
          let oldSize := if p = 0 then slabObjSize else pageSize
          let count := if newSize < oldSize then newSize else oldSize
          let s := r.2.setMem (memcpy r.2.mem r.1 ptr count.toNat)
          (kfree s ptr).map fun s => (r.1, s)

/-- `buddy_init`; the return value, 0 or -1, and the state. The record is
updated before the bitmap is requested from `kmalloc`. -/
def buddyInit (s : MM) (start totalPages : Word) : Option (Int × MM) :=
  if totalPages = 0 ∨ 0x100000 < totalPages then some (-1, s)
  else
    let bitmapWords := (totalPages + 63) / 64
    let s := { s with buddy := { s.buddy with
      poolStart := start
      poolPages := totalPages
      freeCount := totalPages
      bitmapWords := bitmapWords } }
    (kmalloc s (bitmapWords * 8)).map fun r =>
      let s := { r.2 with buddy := { r.2.buddy with bitmap := r.1 } }
      if r.1 = 0 then (-1, s)
      else
        let m := memset s.mem r.1 0 (bitmapWords * 8).toNat
        let m := writeLinks m start
          (fun i => buddyIdxToPhys s.buddy 0 (BitVec.ofNat 64 i + 1)) totalPages.toNat
        (0, { s with
          mem := m
          buddy := { s.buddy with
            freeLists := Function.update s.buddy.freeLists 0 start
            initialized := true } })

end ShlteOs.SlabAllocator
