import ShlteOs.HeapSafety
import ShlteOs.SlabFrame

/-!
`krealloc` on an object of 64 bytes.  The size of the old object is guessed: a page
when some slab claims the pointer, so that a request for more than 64 bytes copies what
lies behind the object.  A request that needs a new slab page copies the data over the
header of that page, and the header then decides where the old object is returned to.
-/

namespace ShlteOs.Reallocation

open ShlteOs.ByteMemory
open ShlteOs.PointerWalk
open ShlteOs.PageAllocator
open ShlteOs.SlabAllocator
open ShlteOs.SlabAccounting (takenPage)
open ShlteOs.HeapSafety (OnSlabs)
open ShlteOs.SlabFrame

section Statement

/-- The number of bytes `krealloc` copies, in the state that `kmalloc` leaves. -/
def copyCount (s : MM) (ptr newSize : Word) : Option Word :=
  (findSlabOf s.mem s.slab.slabs ptr).map fun p =>
    let oldSize := if p = 0 then slabObjSize else pageSize
    if newSize < oldSize then newSize else oldSize

theorem krealloc_eq {s : MM} {ptr newSize : Word} (hptr : ptr ≠ 0) (hsize : newSize ≠ 0) :
    krealloc s ptr newSize = (kmalloc s newSize).bind fun r =>
      if r.1 = 0 then some r
      else (copyCount r.2 ptr newSize).bind fun count =>
        (kfree (r.2.setMem (memcpy r.2.mem r.1 ptr count.toNat)) ptr).map fun s => (r.1, s) := by
  rw [krealloc, if_neg hptr, if_neg hsize]
  simp only [copyCount, Option.bind_map]
  rfl

/-- The first free object of `q` is a cell behind an intact header, and the object at
`ptr` overlaps neither. -/
def HasFreeCell (m : Memory) (q ptr : Word) : Prop :=
  load m (pagePhysField q) = q ∧ Apart ptr 64 q slabHeaderSize ∧
    ∃ j, 2 ≤ j ∧ j < 64 ∧ load m (freeListField q) = cell q j ∧ Apart ptr 64 (cell q j) 64

/-- The object in cell `i` of `slab` is live.  The list of slabs ends, its pages are
aligned and lie apart, and a slab that serves requests has a free cell.  The object is on
no free list of its slab, and the other live objects lie apart from it.  The page
allocator hands out aligned pages and neither hands out nor writes to a slab page. -/
structure LiveObject (s : MM) (pages others : List Word) (slab : Word) (i : Nat) : Prop where
  listed : Listed s.mem s.slab.slabs pages
  aligned : ∀ p ∈ pages, p.toNat % 4096 = 0
  separate : pages.Pairwise fun p q => Apart p 4096 q 4096
  free : ∀ q, findFreeSlab s.mem s.slab.slabs = some q → q ≠ 0 →
    HasFreeCell s.mem q (cell slab i)
  member : slab ∈ pages
  index : i < 64
  ne_zero : cell slab i ≠ 0
  unfreed : ∀ k, (load s.mem)^[k] (load s.mem (freeListField slab)) ≠ cell slab i
  disjoint : ∀ o ∈ others, Apart (cell slab i) 64 o 64
  freshAligned : ∀ page, (allocPages s 0).1 = some page → page.toNat % 4096 = 0
  fresh : ∀ page, (allocPages s 0).1 = some page → ∀ p ∈ pages, Apart page 4096 p 4096
  pool : ∀ x, (allocPages s 0).2.mem x ≠ s.mem x → ∀ p ∈ pages, ¬ Covers p 4096 x

/-- The bytes of the allocator's own: the headers of the slabs, the link of the freed
object, and with a new page its header, its links and what `alloc_pages` writes. -/
def Metadata (s : MM) (pages : List Word) (ptr x : Word) : Prop :=
  (∃ p ∈ pages, Covers p slabHeaderSize x) ∨ Covers ptr 8 x ∨
    ∃ page, takenPage s = some page ∧
      (Covers page slabHeaderSize x ∨ (∃ j < 64, Covers (cell page j) 8 x) ∨
        (allocPages s 0).2.mem x ≠ s.mem x)

/-- After a failed call the object is still allocated and no object has changed. -/
structure Kept (s s' : MM) (others : List Word) (slab ptr : Word) : Prop where
  onList : OnSlabs s' slab
  unfreed : ∀ k, (load s'.mem)^[k] (load s'.mem (freeListField slab)) ≠ ptr
  bytes : ∀ o ∈ ptr :: others, ∀ x, Covers o 64 x → s'.mem x = s.mem x

/-- After a successful call the data is in the result, every byte copied is one of the
object's own 64 and none of another object, nothing else was written, and the object is
back in its slab. -/
structure Moved (s s' : MM) (pages others : List Word) (slab : Word) (i : Nat)
    (newSize result : Word) : Prop where
  copied : ∀ k < min 64 newSize.toNat,
    s'.mem (result + BitVec.ofNat 64 k) = s.mem (cell slab i + BitVec.ofNat 64 k)
  own : ∀ t count, kmalloc s newSize = some (result, t) →
    copyCount t (cell slab i) newSize = some count → ∀ x, Covers (cell slab i) count.toNat x →
      Covers (cell slab i) 64 x ∧ ∀ o ∈ others, ¬ Covers o 64 x
  frame : ∀ x, ¬ Covers result 64 x → ¬ Metadata s pages (cell slab i) x → s'.mem x = s.mem x
  returned : load s'.mem (freeListField slab) = cell slab i
  flag : load s.mem (pagePhysField slab) = slab → s'.mem (usedField slab (BitVec.ofNat 64 i)) = 0

/-- `krealloc` returns and does what it should. -/
def Moves (s : MM) (pages others : List Word) (slab : Word) (i : Nat) (newSize : Word) : Prop :=
  ∃ result s', krealloc s (cell slab i) newSize = some (result, s') ∧
    (result = 0 → Kept s s' others slab (cell slab i)) ∧
    (result ≠ 0 → Moved s s' pages others slab i newSize result)

/-- The page that starts at `w` would contain the object. -/
def Claims (w ptr : Word) : Prop := w ≤ ptr ∧ ptr < w + pageSize

instance (w ptr : Word) : Decidable (Claims w ptr) := inferInstanceAs (Decidable (_ ∧ _))

/-- The word that the first eight bytes of a new object hold after the copy. -/
def copiedWord (m : Memory) (ptr newSize : Word) : Word :=
  load (fun x => if Covers ptr newSize.toNat x then m x else 0) ptr

/-- There is no memory left; or at most 64 bytes are asked for, the first slab to claim
the object is its own, and a new page, if one is taken, is not at 0 and does not claim the
object with the data copied over its header. -/
def Settled (s : MM) (slab ptr newSize : Word) : Prop :=
  (findFreeSlab s.mem s.slab.slabs = some 0 ∧ (allocPages s 0).1 = none) ∨
    (newSize.toNat ≤ 64 ∧ findSlabOf s.mem s.slab.slabs ptr = some slab ∧
      ∀ page, takenPage s = some page →
        page ≠ 0 ∧ ¬ Claims (copiedWord s.mem ptr newSize) ptr)

end Statement

section Finish

variable {s t : MM} {pages others : List Word} {slab result newSize : Word} {i : Nat}

/-- What `kmalloc` has to leave for the copy and the return of the object. -/
structure Served (s t : MM) (pages : List Word) (slab : Word) (i : Nat) (result : Word) : Prop where
  kept : ∀ x, Covers (cell slab i) 64 x → t.mem x = s.mem x
  frame : ∀ x, ¬ Covers result 64 x → ¬ Metadata s pages (cell slab i) x → t.mem x = s.mem x
  apartObject : Apart result 64 (cell slab i) 64
  apartHeader : Apart result 64 slab slabHeaderSize
  unfreed : load t.mem (freeListField slab) ≠ cell slab i
  pagePhys : load t.mem (pagePhysField slab) = load s.mem (pagePhysField slab)

theorem copyCount_eq {p : Word} (hle : newSize.toNat ≤ 64)
    (hfind : findSlabOf t.mem t.slab.slabs (cell slab i) = some p) :
    copyCount t (cell slab i) newSize = some newSize := by
  have hobj : slabObjSize.toNat = 64 := rfl
  have hpage : pageSize.toNat = 4096 := rfl
  rw [copyCount, hfind, Option.map_some]
  refine congrArg some ?_
  have hcap : ∀ w : Word, 64 ≤ w.toNat → (if newSize < w then newSize else w) = newSize := by
    intro w hw
    split_ifs with hlt
    · rfl
    · rw [BitVec.lt_def] at hlt
      exact BitVec.eq_of_toNat_eq (by omega)
  refine hcap _ ?_
  split_ifs
  · exact hobj.ge
  · omega

theorem index_cell (slab : Word) (hi : i < 64) :
    (cell slab i - slab) / slabObjSize = BitVec.ofNat 64 i := by
  have hobj : slabObjSize.toNat = 64 := rfl
  apply BitVec.eq_of_toNat_eq
  rw [cell_eq, add_ofNat_sub_self, BitVec.toNat_udiv, BitVec.toNat_ofNat, BitVec.toNat_ofNat, hobj]
  omega

theorem freeList_outside_link (hi : i < 64) : Apart (freeListField slab) 8 (cell slab i) 8 := by
  intro x hlist hlink
  rw [cell_eq] at hlink
  exact not_covers_of_add (d := 8) (e := i * 64) (by decide) (by omega) (by decide) (by decide)
    (by omega) hlist hlink

theorem flag_outside_link (hi : i < 64) :
    ¬ Covers (cell slab i) 8 (usedField slab (BitVec.ofNat 64 i)) := by
  have hval : (BitVec.ofNat 64 i).toNat = i := by
    rw [BitVec.toNat_ofNat]
    omega
  have hoffset : (usedField slab (BitVec.ofNat 64 i) - slab).toNat =
      16 + (BitVec.ofNat 64 i).toNat := toNat_usedField_sub (by omega)
  have hsub : usedField slab (BitVec.ofNat 64 i) - cell slab i =
      usedField slab (BitVec.ofNat 64 i) - slab - BitVec.ofNat 64 (i * 64) := by
    rw [cell_eq, sub_sub]
  have hsmall : i * 64 % 2 ^ 64 = i * 64 := Nat.mod_eq_of_lt (by omega)
  rw [Covers, hsub, BitVec.toNat_sub, hoffset, BitVec.toNat_ofNat, hval, hsmall]
  rcases Nat.eq_zero_or_pos i with hzero | hpos
  · rw [hzero]
    decide
  · rw [Nat.mod_eq_of_lt (by omega)]
    omega

/-- The memory after the copy. -/
def copiedMem (t : MM) (result ptr newSize : Word) : Memory :=
  memcpy t.mem result ptr newSize.toNat

theorem krealloc_of_kmalloc (h : LiveObject s pages others slab i) (hsize : newSize ≠ 0)
    (hle : newSize.toNat ≤ 64) (hkmalloc : kmalloc s newSize = some (result, t))
    (hresult : result ≠ 0) {p : Word}
    (hfind : findSlabOf t.mem t.slab.slabs (cell slab i) = some p) :
    krealloc s (cell slab i) newSize =
      (kfree (t.setMem (copiedMem t result (cell slab i) newSize)) (cell slab i)).map
        fun s => (result, s) := by
  rw [krealloc_eq h.ne_zero hsize, hkmalloc, Option.bind_some, if_neg hresult]
  simp only [copyCount_eq hle hfind, Option.bind_some]
  rfl

theorem copiedMem_outside (hle : newSize.toNat ≤ 64) {ptr x : Word} (hx : ¬ Covers result 64 x) :
    copiedMem t result ptr newSize x = t.mem x :=
  memcpy_of_not_covers (by omega) fun hcovers => hx (lt_of_lt_of_le hcovers hle)

theorem Served.copiedMem_header (hserved : Served s t pages slab i result)
    (hle : newSize.toNat ≤ 64) {x : Word} (hx : Covers slab slabHeaderSize x) :
    copiedMem t result (cell slab i) newSize x = t.mem x :=
  copiedMem_outside hle fun hcovers => hserved.apartHeader x hcovers hx

theorem Served.copiedMem_data (hserved : Served s t pages slab i result) (hle : newSize.toNat ≤ 64)
    {k : Nat} (hk : k < newSize.toNat) :
    copiedMem t result (cell slab i) newSize (result + BitVec.ofNat 64 k) =
      s.mem (cell slab i + BitVec.ofNat 64 k) := by
  have hsource : Covers (cell slab i) 64 (cell slab i + BitVec.ofNat 64 k) :=
    covers_add (lt_of_lt_of_le hk hle)
  have hcopy : copiedMem t result (cell slab i) newSize (result + BitVec.ofNat 64 k) =
      t.mem (cell slab i + BitVec.ofNat 64 k) := by
    refine memcpy_add (by omega) hk fun hcovers => ?_
    exact hserved.apartObject _ (lt_of_lt_of_le hcovers (by omega)) hsource
  exact hcopy.trans (hserved.kept _ hsource)

theorem moved_of_found (h : LiveObject s pages others slab i) (hle : newSize.toNat ≤ 64)
    (hkmalloc : kmalloc s newSize = some (result, t)) (hserved : Served s t pages slab i result)
    {p : Word} (hfind₀ : findSlabOf t.mem t.slab.slabs (cell slab i) = some p)
    (hfind : findSlabOf (copiedMem t result (cell slab i) newSize) t.slab.slabs (cell slab i) =
      some slab) :
    ∃ s', kfree (t.setMem (copiedMem t result (cell slab i) newSize)) (cell slab i) = some s' ∧
      Moved s s' pages others slab i newSize result := by
  obtain ⟨s', hkfree, hreturned, hframe, hflag⟩ := kfree_frame
    (s := t.setMem (copiedMem t result (cell slab i) newSize)) h.ne_zero hfind
    (h.listed.ne_zero h.member)
  refine ⟨s', hkfree, ⟨fun k hk => ?_, fun t' count ht' hcount x hx => ?_,
    fun x hx hmeta => ?_, hreturned, fun hphys => ?_⟩⟩
  · have hin : Covers result 64 (result + BitVec.ofNat 64 k) :=
      covers_add (lt_of_lt_of_le hk (min_le_left _ _))
    rw [hframe _ (hserved.apartHeader _ hin) fun hlink =>
      hserved.apartObject _ hin (lt_of_lt_of_le hlink (by decide))]
    exact hserved.copiedMem_data hle (lt_of_lt_of_le hk (min_le_right _ _))
  · obtain rfl : t = t' := congrArg Prod.snd (Option.some.inj (hkmalloc.symm.trans ht'))
    obtain rfl : newSize = count :=
      Option.some.inj ((copyCount_eq hle hfind₀).symm.trans hcount)
    have hown : Covers (cell slab i) 64 x := lt_of_lt_of_le hx hle
    exact ⟨hown, fun o ho => h.disjoint o ho x hown⟩
  · rw [hframe x (fun hslab => hmeta (.inl ⟨slab, h.member, hslab⟩)) fun hlink =>
      hmeta (.inr (.inl hlink))]
    exact (copiedMem_outside hle hx).trans (hserved.frame x hx hmeta)
  · have hload : load (t.setMem (copiedMem t result (cell slab i) newSize)).mem
        (pagePhysField slab) = slab :=
      ((load_congr fun x hx => hserved.copiedMem_header hle (covers_pagePhys hx)).trans
        hserved.pagePhys).trans hphys
    rw [hload, index_cell slab h.index] at hflag
    exact hflag (flag_outside_link h.index)

theorem not_returned_of_found (h : LiveObject s pages others slab i) {m : Memory} {p : Word}
    {s' : MM} (hfind : findSlabOf m t.slab.slabs (cell slab i) = some p)
    (hp : p = 0 ∨ Apart p 4096 slab 4096)
    (hunfreed : load m (freeListField slab) ≠ cell slab i)
    (hkfree : kfree (t.setMem m) (cell slab i) = some s') :
    load s'.mem (freeListField slab) ≠ cell slab i := by
  have hstays : load s'.mem (freeListField slab) = load m (freeListField slab) := by
    by_cases hzero : p = 0
    · rw [SlabAccounting.kfree_of_no_slab (s := t.setMem m) h.ne_zero (hzero ▸ hfind)] at hkfree
      rw [← Option.some.inj hkfree]
      rfl
    · obtain ⟨s'', hkfree', -, hframe, -⟩ := kfree_frame (s := t.setMem m) h.ne_zero hfind hzero
      obtain rfl : s'' = s' := Option.some.inj (hkfree'.symm.trans hkfree)
      refine load_congr fun x hx => hframe x (fun hpx => ?_) (freeList_outside_link h.index x hx)
      exact hp.resolve_left hzero x (lt_of_lt_of_le hpx (by decide))
        (lt_of_lt_of_le (covers_freeList hx) (by decide))
  rw [hstays]
  exact hunfreed

theorem moves_iff_of_served (h : LiveObject s pages others slab i) (hsize : newSize ≠ 0)
    (hle : newSize.toNat ≤ 64) (hkmalloc : kmalloc s newSize = some (result, t))
    (hresult : result ≠ 0) (hserved : Served s t pages slab i result) {p₀ p : Word}
    (hfind₀ : findSlabOf t.mem t.slab.slabs (cell slab i) = some p₀)
    (hfind : findSlabOf (copiedMem t result (cell slab i) newSize) t.slab.slabs (cell slab i) =
      some p)
    (hp : p = 0 ∨ p = slab ∨ Apart p 4096 slab 4096) :
    Moves s pages others slab i newSize ↔ p = slab := by
  have hcall := krealloc_of_kmalloc h hsize hle hkmalloc hresult hfind₀
  constructor
  · rintro ⟨r, s', hreturns, -, hmoved⟩
    by_contra hne
    obtain ⟨s'', hkfree, heq⟩ := Option.map_eq_some_iff.mp (hcall.symm.trans hreturns)
    obtain ⟨rfl, rfl⟩ := Prod.mk.inj heq
    refine not_returned_of_found h hfind ?_ ?_ hkfree (hmoved hresult).returned
    · exact hp.imp_right fun hslab => hslab.resolve_left hne
    · rw [load_congr fun x hx => hserved.copiedMem_header hle (covers_freeList hx)]
      exact hserved.unfreed
  · rintro rfl
    obtain ⟨s', hkfree, hmoved⟩ := moved_of_found h hle hkmalloc hserved hfind₀ hfind
    rw [hkfree, Option.map_some] at hcall
    exact ⟨result, s', hcall, fun hzero => absurd hzero hresult, fun _ => hmoved⟩

end Finish

section FreeCell

variable {s : MM} {pages others : List Word} {slab q newSize : Word} {i j : Nat}

theorem LiveObject.apart (h : LiveObject s pages others slab i) {p q : Word} (hp : p ∈ pages)
    (hq : q ∈ pages) (hne : p ≠ q) : Apart p 4096 q 4096 := by
  have hsymm : Std.Symm fun p q : Word => Apart p 4096 q 4096 := ⟨fun _ _ hapart => hapart.symm⟩
  exact h.separate.forall hp hq hne

/-- The memory that `kmalloc` leaves when it takes the cell `j` of `q` for a small size. -/
def takenMem (s : MM) (q : Word) (j : Nat) : Memory := memset (takeObject s q).2.mem (cell q j) 0 64

theorem kmalloc_of_cell (hsize : newSize ≠ 0)
    (hfind : findFreeSlab s.mem s.slab.slabs = some q) (hq : q ≠ 0)
    (hlist : load s.mem (freeListField q) = cell q j) :
    ∃ t, kmalloc s newSize = some (cell q j, t) ∧
      t.mem = memset (takeObject s q).2.mem (cell q j) 0 (roundedSize newSize).toNat ∧
      t.slab.slabs = s.slab.slabs := by
  have hobj : (takeObject s q).1 = cell q j := hlist
  have hne : (takeObject s q).1 ≠ 0 := SlabAccounting.freeList_ne_zero hfind hq
  rw [SlabAccounting.kmalloc_eq hsize, slabAlloc, hfind, Option.map_some, Option.map_some,
    if_neg hq, if_neg hne, hobj]
  exact ⟨_, rfl, rfl, rfl⟩

theorem takes_index (hj : j < 64) (hphys : load s.mem (pagePhysField q) = q)
    (hlist : load s.mem (freeListField q) = cell q j) :
    ((load s.mem (freeListField q) - load s.mem (pagePhysField q)) / slabObjSize).toNat < 64 := by
  rw [hlist, hphys, index_cell q hj, BitVec.toNat_ofNat]
  exact lt_of_le_of_lt (Nat.mod_le _ _) hj

theorem takeObject_page (h : LiveObject s pages others slab i) (hq : q ∈ pages)
    (hindex : ((load s.mem (freeListField q) - load s.mem (pagePhysField q)) /
      slabObjSize).toNat < 64) {p x : Word} (hp : p ∈ pages) (hpq : p ≠ q)
    (hx : Covers p slabHeaderSize x) : (takeObject s q).2.mem x = s.mem x :=
  (takeObject_frame hindex).1 x fun hin => h.apart hp hq hpq x (lt_of_lt_of_le hx (by decide))
    (lt_of_lt_of_le hin (by decide))

theorem sameLinks_takeObject (h : LiveObject s pages others slab i) (hq : q ∈ pages)
    (hindex : ((load s.mem (freeListField q) - load s.mem (pagePhysField q)) /
      slabObjSize).toNat < 64) {p : Word} (hp : p ∈ pages) :
    SameLinks s.mem (takeObject s q).2.mem p := by
  by_cases hpq : p = q
  · rw [hpq]
    exact (takeObject_frame hindex).2.1
  · exact .of_eq fun x hx => takeObject_page h hq hindex hp hpq hx

theorem freeList_takeObject (h : LiveObject s pages others slab i) (hq : q ∈ pages)
    (hindex : ((load s.mem (freeListField q) - load s.mem (pagePhysField q)) /
      slabObjSize).toNat < 64) :
    load (takeObject s q).2.mem (freeListField slab) ≠ cell slab i := by
  have hfirst := h.unfreed 0
  have hsecond := h.unfreed 1
  rw [Function.iterate_zero_apply] at hfirst
  rw [Function.iterate_one] at hsecond
  by_cases hqs : slab = q
  · rw [hqs, (takeObject_frame hindex).2.2]
    rwa [hqs] at hsecond
  · rw [load_congr fun x hx => takeObject_page h hq hindex h.member hqs (covers_freeList hx)]
    exact hfirst

theorem takenMem_outside (hj : j < 64) (hphys : load s.mem (pagePhysField q) = q)
    (hlist : load s.mem (freeListField q) = cell q j) {x : Word}
    (hheader : ¬ Covers q slabHeaderSize x) (hcell : ¬ Covers (cell q j) 64 x) :
    takenMem s q j x = s.mem x := by
  rw [takenMem, memset_of_not_covers (by decide) hcell]
  exact (takeObject_frame (takes_index hj hphys hlist)).1 x hheader

theorem not_covers_cell_of_header (h : LiveObject s pages others slab i) (hq : q ∈ pages)
    (hj : 2 ≤ j) (hlt : j < 64) {p x : Word} (hp : p ∈ pages) (hx : Covers p slabHeaderSize x) :
    ¬ Covers (cell q j) 64 x := by
  intro hin
  by_cases hpq : p = q
  · rw [hpq] at hx
    exact not_covers_header_of_cell hj hlt hin hx
  · exact h.apart hp hq hpq x (lt_of_lt_of_le hx (by decide)) (covers_cell hlt le_rfl hin)

theorem takenMem_header (h : LiveObject s pages others slab i) (hq : q ∈ pages) (hj : 2 ≤ j)
    (hlt : j < 64) {p x : Word} (hp : p ∈ pages) (hx : Covers p slabHeaderSize x) :
    takenMem s q j x = (takeObject s q).2.mem x :=
  memset_of_not_covers (by decide) (not_covers_cell_of_header h hq hj hlt hp hx)

theorem copiedMem_header (h : LiveObject s pages others slab i) (hle : newSize.toNat ≤ 64)
    (hq : q ∈ pages) (hj : 2 ≤ j) (hlt : j < 64) {p x ptr : Word} (hp : p ∈ pages)
    (hx : Covers p slabHeaderSize x) {t : MM} :
    copiedMem t (cell q j) ptr newSize x = t.mem x :=
  copiedMem_outside hle (not_covers_cell_of_header h hq hj hlt hp hx)

theorem served_of_cell (h : LiveObject s pages others slab i) (hq : q ∈ pages) {t : MM}
    (hmem : t.mem = takenMem s q j) (hphys : load s.mem (pagePhysField q) = q)
    (hheader : Apart (cell slab i) 64 q slabHeaderSize) (hj : 2 ≤ j) (hlt : j < 64)
    (hlist : load s.mem (freeListField q) = cell q j)
    (hcell : Apart (cell slab i) 64 (cell q j) 64) : Served s t pages slab i (cell q j) := by
  have hindex := takes_index hlt hphys hlist
  have hheaders : ∀ x, Covers slab slabHeaderSize x → t.mem x = (takeObject s q).2.mem x := by
    rw [hmem]
    exact fun x hx => takenMem_header h hq hj hlt h.member hx
  refine ⟨fun x hx => ?_, fun x hx hmeta => ?_, hcell.symm, fun x hx hslab => ?_, ?_, ?_⟩
  · rw [hmem]
    exact takenMem_outside hlt hphys hlist (hheader x hx) (hcell x hx)
  · rw [hmem]
    exact takenMem_outside hlt hphys hlist (fun hin => hmeta (.inl ⟨q, hq, hin⟩)) hx
  · exact not_covers_cell_of_header h hq hj hlt h.member hslab hx
  · rw [load_congr fun x hx => hheaders x (covers_freeList hx)]
    exact freeList_takeObject h hq hindex
  · rw [load_congr fun x hx => hheaders x (covers_pagePhys hx)]
    exact (sameLinks_takeObject h hq hindex h.member).1

theorem sameLinks_takenMem (h : LiveObject s pages others slab i) (hq : q ∈ pages)
    (hphys : load s.mem (pagePhysField q) = q) (hj : 2 ≤ j) (hlt : j < 64)
    (hlist : load s.mem (freeListField q) = cell q j) {p : Word} (hp : p ∈ pages) :
    SameLinks s.mem (takenMem s q j) p :=
  (sameLinks_takeObject h hq (takes_index hlt hphys hlist) hp).trans
    (.of_eq fun _ hx => takenMem_header h hq hj hlt hp hx)

theorem sameLinks_copiedMem (h : LiveObject s pages others slab i) (hle : newSize.toNat ≤ 64)
    (hq : q ∈ pages) (hj : 2 ≤ j) (hlt : j < 64) {p ptr : Word} (hp : p ∈ pages) {t : MM} :
    SameLinks t.mem (copiedMem t (cell q j) ptr newSize) p :=
  .of_eq fun _ hx => copiedMem_header h hle hq hj hlt hp hx

theorem moves_iff_of_cell (h : LiveObject s pages others slab i) (hsize : newSize ≠ 0)
    (hle : newSize.toNat ≤ 64) (hfind : findFreeSlab s.mem s.slab.slabs = some q) (hq : q ∈ pages) :
    Moves s pages others slab i newSize ↔
      findSlabOf s.mem s.slab.slabs (cell slab i) = some slab := by
  have hne := h.listed.ne_zero hq
  obtain ⟨hphys, hheader, j, hj, hlt, hlist, hcell⟩ := h.free q hfind hne
  obtain ⟨t, hkmalloc, hmem, hslabs⟩ := kmalloc_of_cell hsize hfind hne hlist
  rw [SlabAccounting.toNat_roundedSize_of_le hle, ← takenMem] at hmem
  have hserved := served_of_cell h hq hmem hphys hheader hj hlt hlist hcell
  -- Neither the request nor the copy touches the words that a search reads.
  have hlinks : ∀ p ∈ pages, SameLinks s.mem t.mem p := by
    rw [hmem]
    exact fun p hp => sameLinks_takenMem h hq hphys hj hlt hlist hp
  have hcopied : ∀ p ∈ pages, SameLinks s.mem (copiedMem t (cell q j) (cell slab i) newSize) p :=
    fun p hp => (hlinks p hp).trans (sameLinks_copiedMem h hle hq hj hlt hp)
  obtain ⟨p, hp, hmember⟩ := h.listed.findSlabOf (cell slab i)
  have hfind₀ : findSlabOf t.mem t.slab.slabs (cell slab i) = some p := by
    rw [hslabs, h.listed.findSlabOf_congr hlinks, hp]
  have hfind₁ : findSlabOf (copiedMem t (cell q j) (cell slab i) newSize) t.slab.slabs
      (cell slab i) = some p := by
    rw [hslabs, h.listed.findSlabOf_congr hcopied, hp]
  have hresult : cell q j ≠ 0 := hlist ▸ SlabAccounting.freeList_ne_zero hfind hne
  rw [hp, Option.some_inj]
  refine moves_iff_of_served h hsize hle hkmalloc hresult hserved hfind₀ hfind₁ ?_
  refine hmember.imp_right fun hin => ?_
  by_cases heq : p = slab
  · exact .inl heq
  · exact .inr (h.apart hin h.member heq)

end FreeCell

section FreshPage

variable {s t : MM} {pages others : List Word} {slab page newSize : Word} {i : Nat}

/-- The memory that `kmalloc` leaves when it makes a slab of a new page. -/
def freshMem (s : MM) (page : Word) : Memory :=
  memset (initSlabPage (allocPages s 0).2.mem page s.slab.slabs) page 0 64

theorem kmalloc_of_fresh (hsize : newSize ≠ 0)
    (hfind : findFreeSlab s.mem s.slab.slabs = some 0) (halloc : (allocPages s 0).1 = some page)
    (hpage : page ≠ 0) :
    ∃ t, kmalloc s newSize = some (page, t) ∧
      t.mem = memset (initSlabPage (allocPages s 0).2.mem page s.slab.slabs) page 0
        (roundedSize newSize).toNat ∧ t.slab.slabs = page := by
  have hnew : (newSlab s).1 = page ∧
      (newSlab s).2.mem = initSlabPage (allocPages s 0).2.mem page s.slab.slabs ∧
      (newSlab s).2.slab.slabs = page := by
    rcases hresult : allocPages s 0 with ⟨r, u⟩
    have hslab := SlabAccounting.allocPages_slab hresult
    rw [hresult] at halloc
    obtain rfl : r = some page := halloc
    rw [newSlab, hresult, ← hslab]
    exact ⟨rfl, rfl, rfl⟩
  obtain ⟨hfirst, hmem, hslabs⟩ := hnew
  rw [SlabAccounting.kmalloc_eq hsize, slabAlloc, hfind, Option.map_some, Option.map_some,
    if_pos rfl, if_neg (hfirst ▸ hpage), hfirst]
  refine ⟨_, rfl, ?_, hslabs⟩
  rw [← hmem]
  rfl

theorem initSlabPage_page (h : LiveObject s pages others slab i)
    (halloc : (allocPages s 0).1 = some page) {p x : Word} (hp : p ∈ pages)
    (hx : Covers p 4096 x) :
    initSlabPage (allocPages s 0).2.mem page s.slab.slabs x = s.mem x := by
  have hout : ¬ Covers page 4096 x := fun hin => h.fresh page halloc p hp x hin hx
  rw [initSlabPage_frame (fun hin => hout (lt_of_lt_of_le hin (by decide)))
    fun i hi hin => hout (covers_cell hi (by decide) hin)]
  by_contra hwritten
  exact h.pool x hwritten p hp hx

theorem listed_initSlabPage (h : LiveObject s pages others slab i)
    (halloc : (allocPages s 0).1 = some page) (hpage : page ≠ 0) :
    Listed (initSlabPage (allocPages s 0).2.mem page s.slab.slabs) page (page :: pages) := by
  refine .cons hpage ?_
  rw [SlabAccounting.load_next_initSlabPage]
  exact h.listed.congr fun p hp => .of_eq fun x hx =>
    initSlabPage_page h halloc hp (lt_of_lt_of_le hx (by decide))

/-- The copy stays in the new page. -/
theorem copiedMem_page (h : LiveObject s pages others slab i)
    (halloc : (allocPages s 0).1 = some page) (hle : newSize.toNat ≤ 64) {p x : Word}
    (hp : p ∈ pages) (hx : Covers p slabHeaderSize x) :
    copiedMem t page (cell slab i) newSize x = t.mem x :=
  copiedMem_outside hle fun hin => h.fresh page halloc p hp x
    (lt_of_lt_of_le hin (by decide)) (lt_of_lt_of_le hx (by decide))

theorem load_next_copiedMem (hle : newSize.toNat ≤ 64) (ptr : Word) :
    load (copiedMem t page ptr newSize) (nextField page) = load t.mem (nextField page) :=
  load_congr fun _ hx => copiedMem_outside hle (SlabAccounting.not_covers_next hx)

theorem freshMem_page (h : LiveObject s pages others slab i)
    (halloc : (allocPages s 0).1 = some page) {p x : Word} (hp : p ∈ pages)
    (hx : Covers p 4096 x) : freshMem s page x = s.mem x := by
  have hout : ¬ Covers page 64 x := fun hin =>
    h.fresh page halloc p hp x (lt_of_lt_of_le hin (by decide)) hx
  rw [freshMem, memset_of_not_covers (by decide) hout, initSlabPage_page h halloc hp hx]

theorem load_next_freshMem (s : MM) (page : Word) :
    load (freshMem s page) (nextField page) = s.slab.slabs := by
  rw [freshMem, load_congr fun x hx => memset_of_not_covers (by decide)
    (SlabAccounting.not_covers_next hx), SlabAccounting.load_next_initSlabPage]

theorem sameLinks_freshMem (h : LiveObject s pages others slab i)
    (halloc : (allocPages s 0).1 = some page) {p : Word} (hp : p ∈ pages) :
    SameLinks s.mem (freshMem s page) p :=
  .of_eq fun _ hx => freshMem_page h halloc hp (lt_of_lt_of_le hx (by decide))

theorem served_of_page (h : LiveObject s pages others slab i)
    (hfind : findFreeSlab s.mem s.slab.slabs = some 0) (halloc : (allocPages s 0).1 = some page)
    (hmem : t.mem = freshMem s page) : Served s t pages slab i page := by
  have hfresh := h.fresh page halloc slab h.member
  have htaken : takenPage s = some page := by
    rw [takenPage, if_pos hfind, halloc]
  refine ⟨fun x hx => ?_, fun x hx hmeta => ?_, fun x hx hin => ?_, fun x hx hin => ?_, ?_, ?_⟩
  · rw [hmem]
    exact freshMem_page h halloc h.member (covers_cell h.index le_rfl hx)
  · rw [hmem, freshMem, memset_of_not_covers (by decide) hx, initSlabPage_frame
      (fun hin => hmeta (.inr (.inr ⟨page, htaken, .inl hin⟩)))
      fun j hj hin => hmeta (.inr (.inr ⟨page, htaken, .inr (.inl ⟨j, hj, hin⟩)⟩))]
    by_contra hwritten
    exact hmeta (.inr (.inr ⟨page, htaken, .inr (.inr hwritten)⟩))
  · exact hfresh x (lt_of_lt_of_le hx (by decide)) (covers_cell h.index le_rfl hin)
  · exact hfresh x (lt_of_lt_of_le hx (by decide)) (lt_of_lt_of_le hin (by decide))
  · rw [hmem, load_congr fun x hx => freshMem_page h halloc h.member
      (lt_of_lt_of_le (covers_freeList hx) (by decide)), h.listed.freeList_eq_zero hfind h.member]
    exact h.ne_zero.symm
  · rw [hmem]
    exact (sameLinks_freshMem h halloc h.member).1

theorem load_pagePhys_copiedMem (hserved : Served s t pages slab i page)
    (hmem : t.mem = freshMem s page) (hle : newSize.toNat ≤ 64) :
    load (copiedMem t page (cell slab i) newSize) (pagePhysField page) =
      copiedWord s.mem (cell slab i) newSize := by
  refine load_ext fun k hk => ?_
  have hiff : Covers (cell slab i) newSize.toNat (cell slab i + BitVec.ofNat 64 k) ↔
      k < newSize.toNat := by
    rw [Covers, add_ofNat_sub_self, BitVec.toNat_ofNat, Nat.mod_eq_of_lt (by omega)]
  by_cases hlt : k < newSize.toNat
  · rw [if_pos (hiff.mpr hlt)]
    exact hserved.copiedMem_data hle hlt
  · rw [if_neg (fun hin => hlt (hiff.mp hin)), pagePhysField, copiedMem, memcpy_of_not_covers, hmem]
    · exact memset_of_covers (by decide) (covers_add (by omega))
    · omega
    · rw [Covers, add_ofNat_sub_self, BitVec.toNat_ofNat, Nat.mod_eq_of_lt (by omega)]
      exact hlt

theorem findSlabOf_copiedMem (h : LiveObject s pages others slab i)
    (halloc : (allocPages s 0).1 = some page) (hpage : page ≠ 0)
    (hserved : Served s t pages slab i page) (hmem : t.mem = freshMem s page)
    (hle : newSize.toNat ≤ 64) {p : Word}
    (hfind : findSlabOf s.mem s.slab.slabs (cell slab i) = some p) :
    findSlabOf (copiedMem t page (cell slab i) newSize) page (cell slab i) =
      some (if Claims (copiedWord s.mem (cell slab i) newSize) (cell slab i) then page else p) := by
  have hphys := load_pagePhys_copiedMem hserved hmem hle
  split_ifs with hclaims
  · refine walk_of_stop ?_ (by decide)
    simpa [inSlabPage, hphys] using .inr hclaims
  · have hnext : load (copiedMem t page (cell slab i) newSize) (nextField page) = s.slab.slabs := by
      rw [load_next_copiedMem hle, hmem, load_next_freshMem]
    refine findSlabOf_cons hpage hnext ?_ ?_
    · rw [inSlabPage, hphys]
      simpa [Claims] using hclaims
    · rw [h.listed.findSlabOf_congr fun p hp => ?_, hfind]
      have hsame := sameLinks_freshMem h halloc hp
      rw [← hmem] at hsame
      exact hsame.trans (.of_eq fun x hx => copiedMem_page h halloc hle hp hx)

theorem moves_iff_of_page (h : LiveObject s pages others slab i) (hsize : newSize ≠ 0)
    (hle : newSize.toNat ≤ 64) (hfind : findFreeSlab s.mem s.slab.slabs = some 0)
    (halloc : (allocPages s 0).1 = some page) (hpage : page ≠ 0) :
    Moves s pages others slab i newSize ↔
      findSlabOf s.mem s.slab.slabs (cell slab i) = some slab ∧
        ¬ Claims (copiedWord s.mem (cell slab i) newSize) (cell slab i) := by
  obtain ⟨t, hkmalloc, hmem, hslabs⟩ := kmalloc_of_fresh hsize hfind halloc hpage
  rw [SlabAccounting.toNat_roundedSize_of_le hle, ← freshMem] at hmem
  have hserved := served_of_page h hfind halloc hmem
  have hfresh := h.fresh page halloc slab h.member
  have hother : page ≠ slab := by
    rintro rfl
    exact hfresh page (covers_self (by decide)) (covers_self (by decide))
  obtain ⟨p, hp, hmember⟩ := h.listed.findSlabOf (cell slab i)
  have hlisted : Listed t.mem t.slab.slabs (page :: pages) := by
    rw [hslabs, hmem]
    refine .cons hpage ?_
    rw [load_next_freshMem]
    exact h.listed.congr fun p hp => sameLinks_freshMem h halloc hp
  obtain ⟨p₀, hp₀, -⟩ := hlisted.findSlabOf (cell slab i)
  have hcopied : findSlabOf (copiedMem t page (cell slab i) newSize) t.slab.slabs (cell slab i) =
      some (if Claims (copiedWord s.mem (cell slab i) newSize) (cell slab i) then page else p) := by
    rw [hslabs]
    exact findSlabOf_copiedMem h halloc hpage hserved hmem hle hp
  rw [moves_iff_of_served h hsize hle hkmalloc hpage hserved hp₀ hcopied, hp, Option.some_inj]
  · split_ifs with hclaims
    · exact iff_of_false hother fun hboth => hboth.2 hclaims
    · exact (and_iff_left hclaims).symm
  · split_ifs
    · exact .inr (.inr hfresh)
    · refine hmember.imp_right fun hin => ?_
      by_cases heq : p = slab
      · exact .inl heq
      · exact .inr (h.apart hin h.member heq)

end FreshPage

section Large

variable {s t : MM} {pages others : List Word} {slab q page result newSize : Word} {i : Nat}

theorem copyCount_of_large (hgt : 64 < newSize.toNat) {ptr p count : Word}
    (hfind : findSlabOf t.mem t.slab.slabs ptr = some p)
    (hcount : copyCount t ptr newSize = some count) :
    (p = 0 → count = slabObjSize) ∧ (p ≠ 0 → 64 < count.toNat) := by
  have hobj : slabObjSize.toNat = 64 := rfl
  rw [copyCount, hfind, Option.map_some] at hcount
  obtain rfl := Option.some.inj hcount
  constructor
  · intro hp
    rw [if_pos hp, if_neg]
    rw [BitVec.lt_def]
    omega
  · intro hp
    dsimp only
    rw [if_neg hp]
    split_ifs
    · exact hgt
    · decide

/-- A copy of more than 64 bytes takes the byte behind the object, and one of 64 is made
when no slab claims the object any more. -/
theorem not_moves_of_large (h : LiveObject s pages others slab i) (hsize : newSize ≠ 0)
    (hgt : 64 < newSize.toNat) (hkmalloc : kmalloc s newSize = some (result, t))
    (hresult : result ≠ 0)
    (hlost : findSlabOf t.mem t.slab.slabs (cell slab i) = some 0 → ∀ s',
      kfree (t.setMem (copiedMem t result (cell slab i) slabObjSize)) (cell slab i) = some s' →
        load s'.mem (freeListField slab) ≠ cell slab i) :
    ¬ Moves s pages others slab i newSize := by
  rintro ⟨r, s', hcall, -, hmoved⟩
  rw [krealloc_eq h.ne_zero hsize, hkmalloc, Option.bind_some, if_neg hresult] at hcall
  obtain ⟨count, hcount, hcall⟩ := Option.bind_eq_some_iff.mp hcall
  obtain ⟨s'', hkfree, heq⟩ := Option.map_eq_some_iff.mp hcall
  obtain ⟨rfl, rfl⟩ := Prod.mk.inj heq
  obtain ⟨p, hfind, -⟩ := Option.map_eq_some_iff.mp hcount
  obtain ⟨hobject, hmore⟩ := copyCount_of_large hgt hfind hcount
  by_cases hp : p = 0
  · rw [hobject hp] at hkfree
    exact hlost (hp ▸ hfind) s'' hkfree (hmoved hresult).returned
  · obtain ⟨hown, -⟩ := (hmoved hresult).own t count hkmalloc hcount
      (cell slab i + BitVec.ofNat 64 64) (covers_add (hmore hp))
    rw [Covers, add_ofNat_sub_self] at hown
    exact absurd hown (by decide)

theorem roundedSize_mod (size : Word) : (roundedSize size).toNat % 8 = 0 := by
  obtain ⟨w, hw⟩ : ∃ w : Word, roundedSize size = w &&& ~~~7 := ⟨_, rfl⟩
  have hround := toNat_and_not_mask w (show 3 < 64 by decide)
  have hmask : (~~~(BitVec.ofNat 64 (2 ^ 3 - 1)) : Word) = ~~~7 := by decide
  rw [hmask, ← hw] at hround
  omega

theorem load_cleared {m : Memory} {a p : Word} (ha : a.toNat % 8 = 0) (hp : p.toNat % 8 = 0) :
    load (memset m p 0 (roundedSize newSize).toNat) a = load m a ∨
      load (memset m p 0 (roundedSize newSize).toNat) a = 0 :=
  load_memset_zero ha hp (roundedSize_mod newSize) (roundedSize newSize).isLt.le

theorem aligned_next {p : Word} (hp : p.toNat % 4096 = 0) : (nextField p).toNat % 8 = 0 := by
  have hnext : (80 : Word).toNat = 80 := rfl
  rw [nextField, BitVec.toNat_add, hnext]
  omega

theorem aligned_freeList {p : Word} (hp : p.toNat % 4096 = 0) :
    (freeListField p).toNat % 8 = 0 := by
  have hlist : (8 : Word).toNat = 8 := rfl
  rw [freeListField, BitVec.toNat_add, hlist]
  omega

theorem aligned_cell {p : Word} (hp : p.toNat % 4096 = 0) (j : Nat) :
    (cell p j).toNat % 8 = 0 := by
  rw [cell_eq, BitVec.toNat_add, BitVec.toNat_ofNat]
  omega

theorem not_moves_large_of_cell (h : LiveObject s pages others slab i) (hsize : newSize ≠ 0)
    (hgt : 64 < newSize.toNat) (hfind : findFreeSlab s.mem s.slab.slabs = some q)
    (hq : q ∈ pages) : ¬ Moves s pages others slab i newSize := by
  have hne := h.listed.ne_zero hq
  obtain ⟨hphys, -, j, hj, hlt, hlist, -⟩ := h.free q hfind hne
  obtain ⟨t, hkmalloc, hmem, hslabs⟩ := kmalloc_of_cell hsize hfind hne hlist
  have hresult : cell q j ≠ 0 := hlist ▸ SlabAccounting.freeList_ne_zero hfind hne
  have hindex := takes_index hlt hphys hlist
  refine not_moves_of_large h hsize hgt hkmalloc hresult fun hlost s' hkfree => ?_
  have hword : ∀ a : Word, a.toNat % 8 = 0 →
      load t.mem a = load (takeObject s q).2.mem a ∨ load t.mem a = 0 := by
    intro a ha
    rw [hmem]
    exact load_cleared ha (aligned_cell (h.aligned q hq) j)
  -- The clearing may cut the list of slabs, and the copy does not reach a header.
  obtain ⟨front, hfront, hlisted⟩ := h.listed.exists_front t.mem fun p hp => by
    rw [← (sameLinks_takeObject h hq hindex hp).2]
    exact hword _ (aligned_next (h.aligned p hp))
  have hsame : ∀ p ∈ front, SameLinks t.mem (copiedMem t (cell q j) (cell slab i) slabObjSize) p :=
    fun p hp => sameLinks_copiedMem h (by decide) hq hj hlt (hfront.mem hp)
  have hnone : findSlabOf (copiedMem t (cell q j) (cell slab i) slabObjSize) t.slab.slabs
      (cell slab i) = some 0 := by
    rw [hslabs, hlisted.findSlabOf_congr hsame, ← hslabs, hlost]
  refine not_returned_of_found h hnone (.inl rfl) ?_ hkfree
  rw [load_congr fun x hx => copiedMem_header h (by decide) hq hj hlt h.member (covers_freeList hx)]
  rcases hword _ (aligned_freeList (h.aligned slab h.member)) with hkept | hzero
  · rw [hkept]
    exact freeList_takeObject h hq hindex
  · rw [hzero]
    exact h.ne_zero.symm

/-- More than 64 bytes from a new page.  Whichever header claims the object afterwards, it
is not that of its slab, whose free list is empty. -/
theorem not_moves_large_of_page (h : LiveObject s pages others slab i) (hsize : newSize ≠ 0)
    (hgt : 64 < newSize.toNat) (hfind : findFreeSlab s.mem s.slab.slabs = some 0)
    (halloc : (allocPages s 0).1 = some page) (hpage : page ≠ 0) :
    ¬ Moves s pages others slab i newSize := by
  obtain ⟨t, hkmalloc, hmem, hslabs⟩ := kmalloc_of_fresh hsize hfind halloc hpage
  refine not_moves_of_large h hsize hgt hkmalloc hpage fun hlost s' hkfree => ?_
  have haligned := h.freshAligned page halloc
  have hword : ∀ a : Word, a.toNat % 8 = 0 →
      load t.mem a = load (initSlabPage (allocPages s 0).2.mem page s.slab.slabs) a ∨
        load t.mem a = 0 := by
    intro a ha
    rw [hmem]
    exact load_cleared ha (by omega)
  obtain ⟨front, hfront, hlisted⟩ :=
    (listed_initSlabPage h halloc hpage).exists_front t.mem fun p hp => by
      rcases List.mem_cons.mp hp with rfl | hp
      · exact hword _ (aligned_next haligned)
      · exact hword _ (aligned_next (h.aligned p hp))
  -- The copy reaches the header of the new page only, and not its link.
  obtain ⟨m, hm⟩ : ∃ m, copiedMem t page (cell slab i) slabObjSize = m := ⟨_, rfl⟩
  have hfar : ∀ p ∈ pages, ∀ x, Covers p slabHeaderSize x → m x = t.mem x := by
    intro p hp x hx
    rw [← hm, copiedMem_page h halloc (by decide) hp hx]
  rw [hslabs] at hlost
  obtain ⟨p, hp, hclaimed⟩ :
      ∃ p, findSlabOf m page (cell slab i) = some p ∧ (p = 0 ∨ p = page) := by
    refine hlisted.claimed_by_changed hlost (fun p hp => ?_) fun p hp hne => ?_
    · rcases List.mem_cons.mp (hfront.mem hp) with rfl | hp
      · rw [← hm, load_next_copiedMem (by decide)]
      · exact load_congr fun x hx => hfar p hp x (covers_next hx)
    · have hlater := (List.mem_cons.mp (hfront.mem hp)).resolve_left hne
      exact load_congr fun x hx => hfar p hlater x (covers_pagePhys hx)
  rw [hm] at hkfree
  rw [← hslabs] at hp
  refine not_returned_of_found h hp ?_ ?_ hkfree
  · refine hclaimed.imp_right fun heq => ?_
    rw [heq]
    exact h.fresh page halloc slab h.member
  · have hempty : load t.mem (freeListField slab) = 0 := by
      rcases hword _ (aligned_freeList (h.aligned slab h.member)) with hkept | hzero
      · rw [hkept, load_congr fun x hx => initSlabPage_page h halloc h.member
          (lt_of_lt_of_le (covers_freeList hx) (by decide)),
          h.listed.freeList_eq_zero hfind h.member]
      · exact hzero
    rw [load_congr fun x hx => hfar slab h.member x (covers_freeList hx), hempty]
    exact h.ne_zero.symm

end Large

section Sizes

variable {s : MM} {pages others : List Word} {slab newSize : Word} {i : Nat}

theorem onSlabs_of_listed (h : Listed s.mem s.slab.slabs pages) {p : Word} (hp : p ∈ pages) :
    OnSlabs s p := by
  have hall : ∀ {a : Word} {nodes : List Word},
      Chain (fun p => load s.mem (nextField p)) 0 a nodes → (a ≠ 0 → OnSlabs s a) →
        ∀ p ∈ nodes, OnSlabs s p := by
    intro a nodes hchain
    induction hchain with
    | nil => exact fun _ p hp => absurd hp List.not_mem_nil
    | cons hne htail ih =>
        intro hon p hp
        rcases List.mem_cons.mp hp with rfl | hp
        · exact hon hne
        · exact ih (fun hnext => .next (hon hne) hnext) p hp
  exact hall h .head p hp

theorem slabs_ne_zero_of_onSlabs {p : Word} (h : OnSlabs s p) : s.slab.slabs ≠ 0 := by
  induction h with
  | head hne => exact hne
  | next _ _ ih => exact ih

theorem moves_of_no_page (h : LiveObject s pages others slab i) (hsize : newSize ≠ 0)
    (hfind : findFreeSlab s.mem s.slab.slabs = some 0) (halloc : (allocPages s 0).1 = none) :
    Moves s pages others slab i newSize := by
  have hcall : krealloc s (cell slab i) newSize = some (0, s) := by
    rw [krealloc_eq h.ne_zero hsize, SlabAccounting.kmalloc_of_no_page hsize hfind halloc,
      Option.bind_some, if_pos rfl]
  refine ⟨0, s, hcall, fun _ => ⟨?_, h.unfreed, fun _ _ _ _ => rfl⟩, fun hne => absurd rfl hne⟩
  exact onSlabs_of_listed h.listed h.member

/-- A page at address 0 looks like a failure, but the list of slabs is lost. -/
theorem not_moves_of_zero_page (h : LiveObject s pages others slab i) (hsize : newSize ≠ 0)
    (hfind : findFreeSlab s.mem s.slab.slabs = some 0) (halloc : (allocPages s 0).1 = some 0) :
    ¬ Moves s pages others slab i newSize := by
  obtain ⟨hfirst, hslabs⟩ := HeapSafety.newSlab_of_alloc
    (show allocPages s 0 = (some 0, (allocPages s 0).2) from Prod.ext halloc rfl)
  have hkmalloc : kmalloc s newSize = some (newSlab s) := by
    rw [SlabAccounting.kmalloc_eq hsize, slabAlloc, hfind, Option.map_some, Option.map_some,
      if_pos rfl, if_pos hfirst]
  have hcall : krealloc s (cell slab i) newSize = some (newSlab s) := by
    rw [krealloc_eq h.ne_zero hsize, hkmalloc, Option.bind_some, if_pos hfirst]
  rintro ⟨r, s', hreturns, hkept, -⟩
  have heq : newSlab s = (r, s') := Option.some.inj (hcall.symm.trans hreturns)
  rw [heq] at hfirst hslabs
  exact slabs_ne_zero_of_onSlabs (hkept hfirst).onList hslabs

theorem takenPage_of_no_free (hfind : findFreeSlab s.mem s.slab.slabs = some 0) :
    takenPage s = (allocPages s 0).1 := by
  rw [takenPage, if_pos hfind]

theorem moves_iff_settled_of_page (h : LiveObject s pages others slab i) (hsize : newSize ≠ 0)
    (hfind : findFreeSlab s.mem s.slab.slabs = some 0) :
    Moves s pages others slab i newSize ↔ Settled s slab (cell slab i) newSize := by
  have htaken := takenPage_of_no_free hfind
  rcases halloc : (allocPages s 0).1 with _ | page
  · exact iff_of_true (moves_of_no_page h hsize hfind halloc) (.inl ⟨hfind, halloc⟩)
  rw [halloc] at htaken
  have hsome : ¬ (findFreeSlab s.mem s.slab.slabs = some 0 ∧ (allocPages s 0).1 = none) := by
    rintro ⟨-, hnone⟩
    rw [halloc] at hnone
    cases hnone
  rw [Settled, or_iff_right hsome]
  by_cases hpage : page = 0
  · subst hpage
    refine iff_of_false (not_moves_of_zero_page h hsize hfind halloc) ?_
    rintro ⟨-, -, hsettled⟩
    exact (hsettled 0 htaken).1 rfl
  · rcases le_or_gt newSize.toNat 64 with hle | hgt
    · rw [moves_iff_of_page h hsize hle hfind halloc hpage, htaken]
      constructor
      · rintro ⟨hfound, hclaims⟩
        refine ⟨hle, hfound, fun page' heq => ?_⟩
        rw [← Option.some.inj heq]
        exact ⟨hpage, hclaims⟩
      · rintro ⟨-, hfound, hsettled⟩
        exact ⟨hfound, (hsettled page rfl).2⟩
    · refine iff_of_false (not_moves_large_of_page h hsize hgt hfind halloc hpage) ?_
      exact fun hsettled => absurd hsettled.1 (by omega)

theorem moves_iff_settled_of_cell (h : LiveObject s pages others slab i) (hsize : newSize ≠ 0)
    {q : Word} (hfind : findFreeSlab s.mem s.slab.slabs = some q) (hq : q ∈ pages) :
    Moves s pages others slab i newSize ↔ Settled s slab (cell slab i) newSize := by
  have hne : findFreeSlab s.mem s.slab.slabs ≠ some 0 := by
    rw [hfind]
    exact fun heq => h.listed.ne_zero hq (Option.some.inj heq)
  have htaken : takenPage s = none := by rw [takenPage, if_neg hne]
  rw [Settled, or_iff_right fun hnone => hne hnone.1]
  rcases le_or_gt newSize.toNat 64 with hle | hgt
  · rw [moves_iff_of_cell h hsize hle hfind hq, htaken]
    constructor
    · exact fun hfound => ⟨hle, hfound, fun page hpage => absurd hpage (by simp)⟩
    · exact fun hsettled => hsettled.2.1
  · refine iff_of_false (not_moves_large_of_cell h hsize hgt hfind hq) ?_
    exact fun hsettled => absurd hsettled.1 (by omega)

end Sizes

section Crowded

/-- A slab with live objects in the cells 2, 3 and 6 and the free cell 5. -/
def crowdedPage : Word := 0x10000

/-- The page's header, and a byte in each of two live objects. -/
def crowdedMem : Memory :=
  storeByte (storeByte (store (store (fun _ => 0) (pagePhysField crowdedPage) crowdedPage)
    (freeListField crowdedPage) (cell crowdedPage 5)) (cell crowdedPage 3) 1) (cell crowdedPage 6) 2

def crowded : MM := { mem := crowdedMem, slab := { slabs := crowdedPage } }

theorem load_pagePhys_crowded : load crowdedMem (pagePhysField crowdedPage) = crowdedPage := by
  decide

theorem load_freeList_crowded :
    load crowdedMem (freeListField crowdedPage) = cell crowdedPage 5 := by
  decide

theorem listed_crowded : Listed crowdedMem crowdedPage [crowdedPage] := by
  have hnext : load crowdedMem (nextField crowdedPage) = 0 := by decide
  refine .cons (by decide) ?_
  rw [hnext]
  exact .nil

theorem findFreeSlab_crowded : findFreeSlab crowdedMem crowdedPage = some crowdedPage :=
  walk_of_stop (by decide) (by decide)

theorem findSlabOf_crowded :
    findSlabOf crowdedMem crowdedPage (cell crowdedPage 2) = some crowdedPage :=
  walk_of_stop (by decide) (by decide)

theorem allocPages_crowded : allocPages crowded 0 = (none, crowded) := if_pos rfl

theorem liveObject_crowded :
    LiveObject crowded [crowdedPage] [cell crowdedPage 3, cell crowdedPage 6] crowdedPage 2 where
  listed := listed_crowded
  aligned p hp := by
    rw [List.mem_singleton.mp hp]
    decide
  separate := List.pairwise_singleton _ _
  free q hq _ := by
    obtain rfl : crowdedPage = q := Option.some.inj (findFreeSlab_crowded.symm.trans hq)
    exact ⟨load_pagePhys_crowded, apart_of_le_sub (by decide) (by decide), 5, by decide,
      by decide, load_freeList_crowded, apart_of_le_sub (by decide) (by decide)⟩
  member := List.mem_singleton_self _
  index := by decide
  ne_zero := by decide
  unfreed k := by
    have hhead : load crowded.mem (freeListField crowdedPage) = cell crowdedPage 5 :=
      load_freeList_crowded
    have hlast : load crowded.mem (cell crowdedPage 5) = 0 := by decide
    have hzero : load crowded.mem 0 = 0 := by decide
    rw [hhead]
    cases k with
    | zero => decide
    | succ k =>
        rw [Function.iterate_succ_apply, hlast, Function.iterate_fixed hzero]
        decide
  disjoint o ho := by
    rcases List.mem_pair.mp ho with rfl | rfl
    · exact apart_of_le_sub (by decide) (by decide)
    · exact apart_of_le_sub (by decide) (by decide)
  freshAligned page hpage := by
    rw [allocPages_crowded] at hpage
    cases hpage
  fresh page hpage := by
    rw [allocPages_crowded] at hpage
    cases hpage
  pool x hx := by
    rw [allocPages_crowded] at hx
    exact absurd rfl hx

end Crowded

end ShlteOs.Reallocation
