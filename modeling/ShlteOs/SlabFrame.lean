import ShlteOs.SlabAccounting

/-!
What the operations of the slab allocator write: the header of the slab they work on,
the link of a freed object, and the links of a fresh page.  The list of slabs and what
a search in it finds depend on two words of each header only.
-/

namespace ShlteOs.SlabFrame

open ShlteOs.ByteMemory
open ShlteOs.PointerWalk
open ShlteOs.PageAllocator
open ShlteOs.SlabAllocator
open ShlteOs.SlabAccounting

section Layout

/-- The address of a cell of a slab page. -/
def cell (slab : Word) (i : Nat) : Word := slab + BitVec.ofNat 64 i * slabObjSize

variable {p x : Word}

theorem covers_of_add {d n k : Nat} (hd : d < 2 ^ 64) (hfit : d + n ≤ k)
    (h : Covers (p + BitVec.ofNat 64 d) n x) : Covers p k x := by
  refine h.mono (d := d) ?_ hfit
  rw [add_ofNat_sub_self, BitVec.toNat_ofNat, Nat.mod_eq_of_lt hd]

theorem not_covers_of_add {d e n k : Nat} (hd : d < 2 ^ 63) (he : e < 2 ^ 63) (hk : k < 2 ^ 62)
    (hn : n < 2 ^ 62) (hfit : e + k ≤ d ∨ d + n ≤ e)
    (h : Covers (p + BitVec.ofNat 64 d) n x) : ¬ Covers (p + BitVec.ofNat 64 e) k x := by
  intro hx
  simp only [Covers, BitVec.toNat_sub, BitVec.toNat_add, BitVec.toNat_ofNat] at h hx
  omega

theorem cell_eq (slab : Word) (i : Nat) : cell slab i = slab + BitVec.ofNat 64 (i * 64) := by
  rw [cell, BitVec.ofNat_mul]
  rfl

theorem covers_cell {i n : Nat} (hi : i < 64) (hn : n ≤ 64) (h : Covers (cell p i) n x) :
    Covers p 4096 x := by
  rw [cell_eq] at h
  exact covers_of_add (by omega) (by omega) h

theorem not_covers_header_of_cell {i : Nat} (hi : 2 ≤ i) (hlt : i < 64)
    (h : Covers (cell p i) 64 x) : ¬ Covers p slabHeaderSize x := by
  rw [cell_eq] at h
  have hfar := not_covers_of_add (e := 0) (k := slabHeaderSize) (by omega) (by decide) (by decide)
    (by decide) (.inl (by rw [slabHeaderSize]; omega)) h
  rwa [BitVec.add_zero] at hfar

theorem covers_freeList (h : Covers (freeListField p) 8 x) : Covers p slabHeaderSize x :=
  covers_of_add (d := 8) (by decide) (by decide) h

theorem covers_next (h : Covers (nextField p) 8 x) : Covers p slabHeaderSize x :=
  covers_of_add (d := 80) (by decide) (by decide) h

theorem covers_pagePhys (h : Covers (pagePhysField p) 8 x) : Covers p slabHeaderSize x :=
  lt_of_lt_of_le h (by decide)

theorem index_lt {w ptr : Word} (hle : w ≤ ptr) (hlt : ptr < w + pageSize) :
    ((ptr - w) / slabObjSize).toNat < 64 := by
  have hsize : pageSize.toNat = 4096 := rfl
  have hobj : slabObjSize.toNat = 64 := rfl
  rw [BitVec.le_def] at hle
  rw [BitVec.lt_def, BitVec.toNat_add, hsize] at hlt
  rw [BitVec.toNat_udiv, BitVec.toNat_sub_of_le (BitVec.le_def.mpr hle), hobj]
  have hw := w.isLt
  omega

theorem toNat_usedField_sub {idx : Word} (hidx : idx.toNat < 64) :
    (usedField p idx - p).toNat = 16 + idx.toNat := by
  have hoffset : usedField p idx - p = 16 + idx := by
    rw [usedField]
    ring
  have hval : (16 : Word).toNat = 16 := rfl
  rw [hoffset, BitVec.toNat_add, hval]
  omega

end Layout

section Lists

variable {m m' : Memory} {slabs ptr : Word} {pages : List Word}

/-- The slabs from `slabs` on, along `next`. -/
def Listed (m : Memory) (slabs : Word) (pages : List Word) : Prop :=
  Chain (fun p => load m (nextField p)) 0 slabs pages

theorem Listed.ne_zero (h : Listed m slabs pages) {p : Word} (hp : p ∈ pages) : p ≠ 0 := by
  unfold Listed at h
  induction h with
  | nil => cases hp
  | cons hne _ ih =>
      rcases List.mem_cons.mp hp with rfl | hp
      · exact hne
      · exact ih hp

theorem Listed.walk (h : Listed m slabs pages) (stop : Word → Bool) :
    ∃ p, walk (fun p => p == 0 || stop p) (fun p => load m (nextField p)) walkFuel slabs = some p ∧
      (p = 0 ∨ p ∈ pages) := by
  rcases hwalk : PointerWalk.walk (fun p => p == 0 || stop p) (fun p => load m (nextField p))
      walkFuel slabs with _ | p
  · have hnone := (walk_slabs_eq_none_iff m (fun p => p == 0 || stop p) slabs).mp hwalk
    have hnever := hnone pages.length
    rw [Chain.iterate_length h] at hnever
    cases hnever
  · exact ⟨p, rfl, Chain.walk_mem h rfl hwalk⟩

theorem Listed.findSlabOf (h : Listed m slabs pages) (ptr : Word) :
    ∃ p, findSlabOf m slabs ptr = some p ∧ (p = 0 ∨ p ∈ pages) :=
  h.walk fun p => inSlabPage m p ptr

theorem Listed.findFreeSlab (h : Listed m slabs pages) :
    ∃ p, findFreeSlab m slabs = some p ∧ (p = 0 ∨ p ∈ pages) :=
  h.walk fun p => load m (freeListField p) != 0

/-- The two words of a header that a search for an object's slab reads. -/
def SameLinks (m m' : Memory) (p : Word) : Prop :=
  load m' (pagePhysField p) = load m (pagePhysField p) ∧
    load m' (nextField p) = load m (nextField p)

theorem SameLinks.of_eq {p : Word} (h : ∀ x, Covers p slabHeaderSize x → m' x = m x) :
    SameLinks m m' p :=
  ⟨load_congr fun x hx => h x (covers_pagePhys hx), load_congr fun x hx => h x (covers_next hx)⟩

theorem SameLinks.trans {m'' : Memory} {p : Word} (h : SameLinks m m' p) (h' : SameLinks m' m'' p) :
    SameLinks m m'' p :=
  ⟨h'.1.trans h.1, h'.2.trans h.2⟩

theorem Listed.congr (h : Listed m slabs pages) (hsame : ∀ p ∈ pages, SameLinks m m' p) :
    Listed m' slabs pages :=
  Chain.congr h fun p hp => (hsame p hp).2

theorem Listed.exists_front (h : Listed m slabs pages) (m' : Memory)
    (hnext : ∀ p ∈ pages, load m' (nextField p) = load m (nextField p) ∨
      load m' (nextField p) = 0) : ∃ front, front <+: pages ∧ Listed m' slabs front :=
  Chain.exists_front h hnext

theorem Listed.findSlabOf_congr (h : Listed m slabs pages)
    (hsame : ∀ p ∈ pages, SameLinks m m' p) (ptr : Word) :
    SlabAllocator.findSlabOf m' slabs ptr = SlabAllocator.findSlabOf m slabs ptr := by
  refine Chain.walk_congr h rfl rfl (fun p hp => ?_) (fun p hp => (hsame p hp).2) walkFuel
  simp only [inSlabPage, (hsame p hp).1]

theorem findSlabOf_cons {page p : Word} (hne : page ≠ 0) (hnext : load m (nextField page) = slabs)
    (hclaims : inSlabPage m page ptr = false) (hfind : findSlabOf m slabs ptr = some p) :
    findSlabOf m page ptr = some p := by
  have hlonger : walk (fun p => p == 0 || inSlabPage m p ptr) (fun p => load m (nextField p))
      (walkFuel + 1) page = some p := by
    rw [walk, hnext, if_neg (by simpa [hclaims] using hne)]
    exact hfind
  exact walk_fuel_enough (fun p : Word => p.toFin)
    (fun _ _ h => congrArg (fun p => p == 0 || inSlabPage m p ptr) (BitVec.eq_of_toFin_eq h))
    (fun _ _ h => congrArg (fun p => (load m (nextField p)).toFin) (BitVec.eq_of_toFin_eq h))
    hlonger

theorem findSlabOf_claims {p : Word} (hfind : findSlabOf m slabs ptr = some p) (hp : p ≠ 0) :
    load m (pagePhysField p) ≤ ptr ∧ ptr < load m (pagePhysField p) + pageSize := by
  obtain ⟨-, -, -, hstop, -⟩ := walk_eq_some_iff.mp hfind
  rcases (Bool.or_eq_true _ _).mp hstop with hzero | hclaims
  · exact absurd (beq_iff_eq.mp hzero) hp
  · simpa [inSlabPage] using hclaims

theorem Listed.eq_false_of_walk (h : Listed m slabs pages) {stop : Word → Bool}
    (hwalk : PointerWalk.walk (fun p => p == 0 || stop p) (fun p => load m (nextField p)) walkFuel
      slabs = some 0) {p : Word} (hp : p ∈ pages) : stop p = false := by
  unfold Listed at h
  generalize walkFuel = fuel at hwalk
  induction h generalizing fuel with
  | nil => cases hp
  | @cons a nodes hne htail ih =>
      cases fuel with
      | zero => cases hwalk
      | succ fuel =>
          rw [PointerWalk.walk] at hwalk
          split at hwalk
          · exact absurd (Option.some.inj hwalk) hne
          · rename_i hpass
            rcases List.mem_cons.mp hp with rfl | hp
            · exact (Bool.or_eq_false_iff.mp (Bool.eq_false_iff.mpr hpass)).2
            · exact ih hp fuel hwalk

theorem Listed.freeList_eq_zero (h : Listed m slabs pages)
    (hfind : SlabAllocator.findFreeSlab m slabs = some 0) {p : Word} (hp : p ∈ pages) :
    load m (freeListField p) = 0 := by
  have hpassed := h.eq_false_of_walk hfind hp
  rwa [bne_eq_false_iff_eq] at hpassed

theorem Listed.inSlabPage_eq_false (h : Listed m slabs pages)
    (hfind : SlabAllocator.findSlabOf m slabs ptr = some 0) {p : Word} (hp : p ∈ pages) :
    inSlabPage m p ptr = false :=
  h.eq_false_of_walk hfind hp

/-- Where no slab claimed the pointer and one header has changed, only that one can. -/
theorem Listed.claimed_by_changed (h : Listed m slabs pages)
    (hfind : SlabAllocator.findSlabOf m slabs ptr = some 0) {changed : Word}
    (hlinks : ∀ p ∈ pages, load m' (nextField p) = load m (nextField p))
    (hphys : ∀ p ∈ pages, p ≠ changed → load m' (pagePhysField p) = load m (pagePhysField p)) :
    ∃ p, SlabAllocator.findSlabOf m' slabs ptr = some p ∧ (p = 0 ∨ p = changed) := by
  have hlisted : Listed m' slabs pages := Chain.congr h hlinks
  obtain ⟨p, hp, hmember⟩ := hlisted.findSlabOf ptr
  refine ⟨p, hp, hmember.imp_right fun hin => ?_⟩
  by_contra hne
  have hunclaimed := h.inSlabPage_eq_false hfind hin
  have hclaims := findSlabOf_claims hp (h.ne_zero hin)
  rw [hphys p hin hne] at hclaims
  simp [inSlabPage, hclaims] at hunclaimed

end Lists

section Writes

variable {s : MM}

theorem storeByte_of_ne {m : Memory} {a x : Word} {v : Byte} (h : x ≠ a) :
    storeByte m a v x = m x :=
  if_neg h

theorem load_storeByte {m : Memory} {a b : Word} {v : Byte} (h : ¬ Covers b 8 a) :
    load (storeByte m a v) b = load m b := by
  refine load_congr fun x hx => storeByte_of_ne ?_
  rintro rfl
  exact h hx

theorem usedField_outside {p idx : Word} (hidx : idx.toNat < 64) :
    ¬ Covers (pagePhysField p) 8 (usedField p idx) ∧
      ¬ Covers (freeListField p) 8 (usedField p idx) ∧
      ¬ Covers (nextField p) 8 (usedField p idx) ∧ Covers p slabHeaderSize (usedField p idx) := by
  have hoffset := toNat_usedField_sub (p := p) hidx
  have hlist : (8 : Word).toNat = 8 := rfl
  have hnext : (80 : Word).toNat = 80 := rfl
  generalize usedField p idx = x at hoffset
  refine ⟨?_, ?_, ?_, ?_⟩
  · rw [Covers, pagePhysField]
    omega
  · rw [Covers, freeListField, ← sub_sub, BitVec.toNat_sub, hlist]
    omega
  · rw [Covers, nextField, ← sub_sub, BitVec.toNat_sub, hnext]
    omega
  · rw [Covers, slabHeaderSize]
    omega

theorem apart_pagePhys_freeList (p : Word) : Apart (pagePhysField p) 8 (freeListField p) 8 := by
  intro x hx hlist
  have hfar : ¬ Covers (p + BitVec.ofNat 64 0) 8 x := not_covers_of_add (d := 8) (by decide)
    (by decide) (by decide) (by decide) (.inl le_rfl) hlist
  rw [BitVec.add_zero] at hfar
  exact hfar hx

/-- `slab_alloc` on a slab whose first free object has an index writes to the header of
that slab only, and there neither to `page_phys` nor to `next`. -/
theorem takeObject_frame {q : Word} (hindex : ((load s.mem (freeListField q) -
      load s.mem (pagePhysField q)) / slabObjSize).toNat < 64) :
    (∀ x, ¬ Covers q slabHeaderSize x → (takeObject s q).2.mem x = s.mem x) ∧
      SameLinks s.mem (takeObject s q).2.mem q ∧
      load (takeObject s q).2.mem (freeListField q) =
        load s.mem (load s.mem (freeListField q)) := by
  have hphys : load (store s.mem (freeListField q) (load s.mem (load s.mem (freeListField q))))
      (pagePhysField q) = load s.mem (pagePhysField q) :=
    load_store_apart (apart_pagePhys_freeList q)
  obtain ⟨hinPhys, hinList, hinNext, hin⟩ := usedField_outside (p := q) hindex
  have hmem : (takeObject s q).2.mem =
      storeByte (store s.mem (freeListField q) (load s.mem (load s.mem (freeListField q))))
        (usedField q ((load s.mem (freeListField q) - load s.mem (pagePhysField q)) / slabObjSize))
        1 := by
    rw [← hphys]
    rfl
  rw [hmem]
  refine ⟨fun x hx => ?_, ⟨?_, ?_⟩, ?_⟩
  · have hne : x ≠ usedField q
        ((load s.mem (freeListField q) - load s.mem (pagePhysField q)) / slabObjSize) := by
      rintro rfl
      exact hx hin
    rw [storeByte_of_ne hne, store_of_not_covers (fun hlist => hx (covers_freeList hlist))]
  · rw [load_storeByte hinPhys, hphys]
  · rw [load_storeByte hinNext, load_store_apart (apart_next_freeList q)]
  · rw [load_storeByte hinList, load_store_same]

theorem initSlabPage_frame {m : Memory} {page slabs x : Word}
    (hheader : ¬ Covers page slabHeaderSize x)
    (hlinks : ∀ i < 64, ¬ Covers (cell page i) 8 x) : initSlabPage m page slabs x = m x := by
  have hused : x ≠ usedField page 0 := by
    rintro rfl
    exact hheader (usedField_outside (by decide)).2.2.2
  have hlast : ¬ Covers (page + BitVec.ofNat 64 (slabObjsPerPage - 1) * slabObjSize) 8 x :=
    hlinks 63 (by decide)
  rw [initSlabPage, storeByte_of_ne hused, store_of_not_covers hlast]
  refine List.foldlRecOn (motive := fun m' : Memory => m' x = m x) _ _ ?_ ?_
  · rw [store_of_not_covers (fun h => hheader (covers_freeList h)),
      store_of_not_covers (fun h => hheader (covers_next h)),
      store_of_not_covers (fun h => hheader (covers_pagePhys h))]
  · intro m' hm' i hi
    have hlt : i < slabObjsPerPage - 1 := List.mem_range.mp hi
    have hlink : ¬ Covers (page + (BitVec.ofNat 64 i + 1) * slabObjSize) 8 x := by
      have hcell := hlinks (i + 1) (by rw [slabObjsPerPage] at hlt; omega)
      rw [cell, BitVec.ofNat_add] at hcell
      exact hcell
    rw [store_of_not_covers hlink, hm']

theorem kfree_frame {ptr p : Word} (hptr : ptr ≠ 0)
    (hfind : findSlabOf s.mem s.slab.slabs ptr = some p) (hp : p ≠ 0) :
    ∃ s', kfree s ptr = some s' ∧ load s'.mem (freeListField p) = ptr ∧
      (∀ x, ¬ Covers p slabHeaderSize x → ¬ Covers ptr 8 x → s'.mem x = s.mem x) ∧
      (¬ Covers ptr 8 (usedField p ((ptr - load s.mem (pagePhysField p)) / slabObjSize)) →
        s'.mem (usedField p ((ptr - load s.mem (pagePhysField p)) / slabObjSize)) = 0) := by
  obtain ⟨hle, hlt⟩ := findSlabOf_claims hfind hp
  obtain ⟨-, hinList, -, hin⟩ := usedField_outside (p := p) (index_lt hle hlt)
  rw [kfree, if_neg hptr, slabFree, if_neg hptr, hfind, Option.map_some, if_neg hp]
  refine ⟨_, rfl, load_store_same _ _ _, fun x hheader hlink => ?_, fun hlink => ?_⟩
  · exact ((store_of_not_covers (fun h => hheader (covers_freeList h))).trans
      (store_of_not_covers hlink)).trans (storeByte_of_ne (fun heq => hheader (heq ▸ hin)))
  · exact ((store_of_not_covers hinList).trans (store_of_not_covers hlink)).trans (if_pos rfl)

end Writes

end ShlteOs.SlabFrame
