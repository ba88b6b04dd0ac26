import ShlteOs.PageWalk

/-!
The arm64 page tables of `mmu_init` and what the Armv8-A stage-1 walk makes of
them.  The 2 MiB entries are installed one level too high and with the bits of
a table descriptor, so the walk goes on at physical address 0.
-/

namespace ShlteOs.ArmPaging

open ShlteOs.ByteMemory
open ShlteOs.PageWalk

def ptTable : Word := 0x3

def mtNormalWb : Word := 0x0C

/-- The index with a valid bit, as it is passed on; only four bits of it survive. -/
def attrNormalWb : Word := (mtNormalWb <<< 2) ||| (1 <<< 0)

def blockSize2mb : Word := 2 * 1024 * 1024

/-- The two low bits of a descriptor. -/
def kind (e : Word) : BitVec 2 := e.extractLsb' 0 2

/-- Without it a translation faults. -/
def AccessFlag (e : Word) : Prop := e.getLsbD 10 = true

instance (e : Word) : Decidable (AccessFlag e) := inferInstanceAs (Decidable (_ = _))

/-- The meaning of a descriptor with a 4 KiB granule.  Levels are counted from
the last one, so the architecture's level 0 is 3 here. -/
def format : Format := fun level e =>
  if kind e = 3 then
    if level = 0 then .leaf (field 48 12 e) else .table (field 48 12 e)
  else if kind e = 1 ∧ (level = 1 ∨ level = 2) then .leaf (field 48 (shift level) e)
  else .absent

/-- Where `pt_table_l0` and `pt_table_l1` lie.  They are objects of the program,
so neither is at the null address. -/
structure Tables where
  l0 : Word
  l1 : Word
  l0_aligned : l0.toNat % 0x400000 = 0
  l1_aligned : l1.toNat % 0x4000 = 0
  l0_lt : l0.toNat < 2 ^ 48
  l1_lt : l1.toNat < 2 ^ 48
  l0_ne_zero : l0 ≠ 0
  l1_ne_zero : l1 ≠ 0
  l0_ne_l1 : l0 ≠ l1

/-- The descriptor the source builds for 2 MiB.  Its two lowest bits are both set. -/
def ptBlock2mb (physAddr memAttr : Word) : Word :=
  let entry := physAddr &&& ~~~0x1FFFFF
  let entry := entry ||| ((memAttr &&& 0xF) <<< 2)
  entry ||| ((1 <<< 0) ||| (1 <<< 1) ||| (1 <<< 10) ||| (3 <<< 8))

/-- The entry stored at index `i` of the second table. -/
def l1Entry (i : Nat) : Word :=
  let phys := BitVec.ofNat 64 i * blockSize2mb
  ptBlock2mb phys attrNormalWb

def clearTables (t : Tables) (m : Memory) : Memory :=
  (List.range 512).foldl (fun m i =>
    store (store m (t.l0 + BitVec.ofNat 64 i * 8) 0) (t.l1 + BitVec.ofNat 64 i * 8) 0) m

/-- `mmu_init`: the memory it leaves and the value it loads into TTBR0. -/
def mmuInit (t : Tables) (m : Memory) : Memory × Word :=
  let m := clearTables t m
  let m := store m t.l0 (t.l1 ||| ptTable)
  (storeArray m t.l1 l1Entry 512, t.l0)

/-- What the hardware makes of an address after `mmu_init`. -/
def translate (t : Tables) (m : Memory) (va : VirtualAddress) : Walk :=
  walk format (mmuInit t m).1 va 3 (field 48 12 (mmuInit t m).2)

/-- The walk gives `va` itself, through a descriptor with the access flag. -/
def Identity (va : VirtualAddress) (w : Walk) : Prop :=
  w.phys = some (va.setWidth 64) ∧ ∃ e ∈ w.visited.getLast?, AccessFlag e

/-- The descriptor `e`, read at `level`, maps `va` to itself. -/
def MapsHere (level : Nat) (va : VirtualAddress) (e : Word) : Prop :=
  leafAddress (field 48 (shift level) e) level va = va.setWidth 64 ∧ AccessFlag e

/-- The word that lies at physical address `8 * va[29:21]` before `mmu_init`,
taken for a level 2 descriptor, happens to map `va` to itself: as a block, or as
a pointer to a table whose descriptor does. -/
def StrayMaps (t : Tables) (m : Memory) (va : VirtualAddress) : Prop :=
  let stray := entry m 0 (index 1 va)
  let below := entry (mmuInit t m).1 (field 48 12 stray) (index 0 va)
  (kind stray = 1 ∧ MapsHere 1 va stray) ∨
    (kind stray = 3 ∧ kind below = 3 ∧ MapsHere 0 va below)

section Layout

variable (t : Tables)

theorem l0_page_aligned : t.l0.toNat % 4096 = 0 := by
  have h := t.l0_aligned
  omega

theorem l1_page_aligned : t.l1.toNat % 4096 = 0 := by
  have h := t.l1_aligned
  omega

theorem apart_l0_l1 : Apart t.l0 4096 t.l1 4096 :=
  apart_tables (l0_page_aligned t) (l1_page_aligned t) t.l0_ne_l1

theorem apart_zero_l0 : Apart 0 4096 t.l0 4096 :=
  apart_tables rfl (l0_page_aligned t) t.l0_ne_zero.symm

theorem apart_zero_l1 : Apart 0 4096 t.l1 4096 :=
  apart_tables rfl (l1_page_aligned t) t.l1_ne_zero.symm

theorem sameTable_clearTables (m : Memory) : SameTable 0 (clearTables t m) m := by
  have hbound : ∀ i ∈ List.range 512, i < 512 := fun i hi => List.mem_range.mp hi
  have hstart : SameTable 0 m m := fun _ _ => rfl
  unfold clearTables
  generalize List.range 512 = slots at hbound
  refine List.foldlRecOn (motive := fun m' => SameTable 0 m' m) slots _ hstart ?_
  intro m' hm' i hi
  have hl1 := sameTable_store (v := 0) (m := store m' (t.l0 + BitVec.ofNat 64 i * 8) 0)
    (apart_zero_l1 t) (hbound i hi)
  exact (hl1.trans (sameTable_store (apart_zero_l0 t) (hbound i hi))).trans hm'

theorem sameTable_mmuInit (m : Memory) : SameTable 0 (mmuInit t m).1 m := by
  have hfirst : t.l0 + BitVec.ofNat 64 0 * 8 = t.l0 := by simp
  have hl0 := sameTable_store (m := clearTables t m) (v := t.l1 ||| ptTable)
    (apart_zero_l0 t) (show 0 < 512 by decide)
  rw [hfirst] at hl0
  simp only [mmuInit]
  exact ((sameTable_storeArray (apart_zero_l1 t)).trans hl0).trans (sameTable_clearTables t m)

theorem entry_l0_zero (m : Memory) : entry (mmuInit t m).1 t.l0 0 = t.l1 ||| ptTable := by
  simp only [mmuInit]
  rw [(sameTable_storeArray (apart_l0_l1 t)).entry (by decide), entry]
  simp

theorem entry_l1 (m : Memory) {i : Nat} (hi : i < 512) :
    entry (mmuInit t m).1 t.l1 i = l1Entry i := by
  simp only [mmuInit]
  exact entry_storeArray hi le_rfl

theorem format_l0Entry : format 3 (t.l1 ||| ptTable) = .table t.l1 := by
  have hkind : kind (t.l1 ||| ptTable) = 3 := by
    have h0 : t.l1.getLsbD 0 = false := getLsbD_of_aligned (k := 12) (l1_page_aligned t) (by decide)
    have h1 : t.l1.getLsbD 1 = false := getLsbD_of_aligned (k := 12) (l1_page_aligned t) (by decide)
    apply BitVec.eq_of_getLsbD_eq
    intro i hi
    rw [kind, BitVec.getLsbD_extractLsb', BitVec.getLsbD_or]
    interval_cases i
    · simp only [h0]
      rfl
    · simp only [h1]
      rfl
  have hfield : field 48 12 (t.l1 ||| ptTable) = t.l1 :=
    field_or_flags (l1_page_aligned t) t.l1_lt (by decide : ptTable.toNat < 2 ^ 2) (by decide)
      (by decide)
  rw [format, if_pos hkind, if_neg (by decide), hfield]

/-- The first 2 MiB entry is a table descriptor for physical address 0. -/
theorem format_l1Entry_zero : format 2 (l1Entry 0) = .table 0 := by
  rfl

end Layout

theorem identity_cons {va : VirtualAddress} {e : Word} {w : Walk} (h : w.visited ≠ []) :
    Identity va { visited := e :: w.visited, phys := w.phys } ↔ Identity va w := by
  rw [Identity, Identity, List.getLast?_cons_of_ne_nil h]

theorem identity_leaf {va : VirtualAddress} {e phys : Word} :
    Identity va { visited := [e], phys := some phys } ↔
      phys = va.setWidth 64 ∧ AccessFlag e := by
  simp [Identity]

theorem not_identity_none {va : VirtualAddress} {visited : List Word} :
    ¬ Identity va { visited := visited, phys := none } := by
  rintro ⟨h, -⟩
  cases h

section Walk

variable {m : Memory} {va : VirtualAddress} {table : Word}

theorem identity_last :
    Identity va (walk format m va 0 table) ↔
      kind (entry m table (index 0 va)) = 3 ∧ MapsHere 0 va (entry m table (index 0 va)) := by
  generalize he : entry m table (index 0 va) = e
  by_cases hkind : kind e = 3
  · have hleaf : format 0 e = .leaf (field 48 12 e) := by
      rw [format, if_pos hkind, if_pos rfl]
    rw [walk_of_leaf he hleaf, identity_leaf, MapsHere]
    simp only [hkind, true_and]
    rfl
  · have habsent : format 0 e = .absent := by
      rw [format, if_neg hkind, if_neg (by simp)]
    rw [walk_of_absent he habsent]
    exact iff_of_false not_identity_none fun h => hkind h.1

theorem identity_level_two :
    Identity va (walk format m va 1 table) ↔
      (kind (entry m table (index 1 va)) = 1 ∧ MapsHere 1 va (entry m table (index 1 va))) ∨
      (kind (entry m table (index 1 va)) = 3 ∧
        Identity va (walk format m va 0 (field 48 12 (entry m table (index 1 va))))) := by
  generalize he : entry m table (index 1 va) = e
  by_cases htable : kind e = 3
  · have hnext : format 1 e = .table (field 48 12 e) := by
      rw [format, if_pos htable, if_neg (by decide)]
    rw [walk_of_table he hnext, identity_cons (walk_visited_ne_nil 0 _)]
    simp [htable]
  · by_cases hblock : kind e = 1
    · have hleaf : format 1 e = .leaf (field 48 (shift 1) e) := by
        rw [format, if_neg htable, if_pos ⟨hblock, .inl rfl⟩]
      rw [walk_of_leaf he hleaf, identity_leaf, MapsHere]
      simp [hblock]
    · have habsent : format 1 e = .absent := by
        rw [format, if_neg htable, if_neg fun h => hblock h.1]
      rw [walk_of_absent he habsent]
      refine iff_of_false not_identity_none ?_
      rintro (⟨h, -⟩ | ⟨h, -⟩)
      · exact hblock h
      · exact htable h

end Walk

section Translate

variable (t : Tables) (m : Memory) {va : VirtualAddress}

theorem identity_translate_iff_level_two (h : va.toNat < 2 ^ 30) :
    Identity va (translate t m va) ↔ Identity va (walk format (mmuInit t m).1 va 1 0) := by
  have hroot : field 48 12 (mmuInit t m).2 = t.l0 :=
    field_of_aligned (l0_page_aligned t) t.l0_lt (by decide)
  have h3 : index 3 va = 0 := by
    simp only [index, shift]
    omega
  have h2 : index 2 va = 0 := by
    simp only [index, shift]
    omega
  have he3 : entry (mmuInit t m).1 t.l0 (index 3 va) = t.l1 ||| ptTable := by
    rw [h3, entry_l0_zero]
  have he2 : entry (mmuInit t m).1 t.l1 (index 2 va) = l1Entry 0 := by
    rw [h2, entry_l1 t m (by decide)]
  rw [translate, hroot, walk_of_table he3 (format_l0Entry t),
    identity_cons (walk_visited_ne_nil 2 _), walk_of_table he2 format_l1Entry_zero,
    identity_cons (walk_visited_ne_nil 1 _)]

/-- An address of the first gigabyte is translated to itself exactly when a
word that `mmu_init` never wrote happens to say so. -/
theorem identity_translate_iff (h : va.toNat < 2 ^ 30) :
    Identity va (translate t m va) ↔ StrayMaps t m va := by
  rw [identity_translate_iff_level_two t m h, identity_level_two, identity_last,
    (sameTable_mmuInit t m).entry (index_lt 1 va), StrayMaps]

theorem not_identity_cleared (h : va.toNat < 2 ^ 30) :
    ¬ Identity va (translate t (fun _ => 0) va) := by
  have hstray : entry (fun _ => 0) 0 (index 1 va) = 0 :=
    entry_of_zero (index_lt 1 va) fun _ _ => rfl
  rw [identity_translate_iff_level_two t _ h, identity_level_two,
    (sameTable_mmuInit t _).entry (index_lt 1 va), hstray]
  rintro (⟨hkind, -⟩ | ⟨hkind, -⟩)
  · exact absurd hkind (by decide)
  · exact absurd hkind (by decide)

end Translate

def samplePlacement : Tables where
  l0 := 0x400000
  l1 := 0x404000
  l0_aligned := by decide
  l1_aligned := by decide
  l0_lt := by decide
  l1_lt := by decide
  l0_ne_zero := by decide
  l1_ne_zero := by decide
  l0_ne_l1 := by decide

/-- With a block descriptor lying at physical address 0, page 0 is mapped. -/
theorem identity_translate_stray_block :
    Identity 0 (translate samplePlacement (store (fun _ => 0) 0 0x401) 0) := by
  apply (identity_translate_iff samplePlacement _ (by decide)).mpr
  have hstray : entry (store (fun _ => 0) 0 0x401) 0 (index 1 0) = 0x401 :=
    load_store_same _ _ _
  rw [StrayMaps, hstray]
  exact .inl ⟨by decide, by decide, by decide⟩

theorem not_identity_second_page :
    ¬ Identity 0x1000 (translate samplePlacement (fun _ => 0) 0x1000) :=
  not_identity_cleared samplePlacement (by decide)

end ShlteOs.ArmPaging
