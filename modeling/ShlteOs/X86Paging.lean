import ShlteOs.PageWalk

/-!
The x86_64 page tables of `mmu_init` and the identity map they give: four
page directories of 2 MiB pages under one directory pointer table and one
top-level table.
-/

namespace ShlteOs.X86Paging

open ShlteOs.ByteMemory
open ShlteOs.PageWalk

def ptePresent : Word := 1 <<< 0

def pteRw : Word := 1 <<< 1

def pteHuge : Word := 1 <<< 7

def pteGlobal : Word := 1 <<< 8

def hugePage2mb : Word := 2 * 1024 * 1024

def Present (e : Word) : Prop := e.getLsbD 0 = true

def Writable (e : Word) : Prop := e.getLsbD 1 = true

/-- The meaning of an entry in 4-level paging: bits 51 to 12 are the next table
or the page, and the PS bit ends the walk at the two middle levels. -/
def format : Format := fun level e =>
  if e.getLsbD 0 = false then .absent
  else if level = 0 then .leaf (field 52 12 e)
  else if level ≤ 2 ∧ e.getLsbD 7 = true then .leaf (field 52 (shift level) e)
  else .table (field 52 12 e)

/-- The walk of the hardware from a page table root. -/
def pageWalk (m : Memory) (cr3 : Word) (va : VirtualAddress) : Walk :=
  walk format m va 3 (field 52 12 cr3)

/-- Where the arrays `pml4`, `pdpt` and `pd[4]` lie: 4 KiB aligned, below
`2 ^ 52`, and no two in one page. -/
structure Tables where
  pml4 : Word
  pdpt : Word
  pd : Word
  pml4_aligned : pml4.toNat % 4096 = 0
  pdpt_aligned : pdpt.toNat % 4096 = 0
  pd_aligned : pd.toNat % 4096 = 0
  pml4_lt : pml4.toNat < 2 ^ 52
  pdpt_lt : pdpt.toNat < 2 ^ 52
  pd_lt : pd.toNat + 3 * 4096 < 2 ^ 52
  pml4_ne_pdpt : pml4 ≠ pdpt
  pml4_ne_pd : ∀ i < 4, pml4 ≠ pd + BitVec.ofNat 64 i * 4096
  pdpt_ne_pd : ∀ i < 4, pdpt ≠ pd + BitVec.ofNat 64 i * 4096

example : Nonempty Tables :=
  ⟨⟨0x100000, 0x101000, 0x102000, by decide, by decide, by decide, by decide, by decide,
    by decide, by decide, by decide, by decide⟩⟩

/-- The address of `pd[i]`. -/
def Tables.pdAt (t : Tables) (i : Nat) : Word := t.pd + BitVec.ofNat 64 i * 4096

def pml4Entry (t : Tables) : Word := t.pdpt ||| ptePresent ||| pteRw

def pdptEntry (t : Tables) (i : Nat) : Word := t.pdAt i ||| ptePresent ||| pteRw

/-- The entry of a page of 2 MiB, mapped to itself. -/
def pdEntry (i j : Nat) : Word :=
  let phys := BitVec.ofNat 64 (i * 512 + j) * hugePage2mb
  phys ||| ptePresent ||| pteRw ||| pteHuge ||| pteGlobal

def clearTables (t : Tables) (m : Memory) : Memory :=
  let m := memset m t.pml4 0 4096
  let m := memset m t.pdpt 0 4096
  memset m t.pd 0 (4 * 4096)

/-- One pass of the outer loop: the pointer to `pd[i]`, then its 512 entries. -/
def fillDirectory (t : Tables) (m : Memory) (i : Nat) : Memory :=
  storeArray (store m (t.pdpt + BitVec.ofNat 64 i * 8) (pdptEntry t i)) (t.pdAt i) (pdEntry i) 512

/-- `mmu_init`: the memory it leaves and the value it loads into CR3. -/
def mmuInit (t : Tables) (m : Memory) : Memory × Word :=
  let m := clearTables t m
  let m := store m t.pml4 (pml4Entry t)
  ((List.range 4).foldl (fillDirectory t) m, t.pml4)

/-- What the hardware makes of an address after `mmu_init`. -/
def translate (t : Tables) (m : Memory) (va : VirtualAddress) : Walk :=
  pageWalk (mmuInit t m).1 (mmuInit t m).2 va

section Layout

variable (t : Tables)

theorem toNat_pdAt {i : Nat} (hi : i < 4) : (t.pdAt i).toNat = t.pd.toNat + i * 4096 := by
  have hpage : (4096 : Word).toNat = 4096 := rfl
  have hlt := t.pd_lt
  rw [Tables.pdAt, BitVec.toNat_add, BitVec.toNat_mul, BitVec.toNat_ofNat, hpage]
  omega

theorem pdAt_aligned {i : Nat} (hi : i < 4) : (t.pdAt i).toNat % 4096 = 0 := by
  have hpd := t.pd_aligned
  rw [toNat_pdAt t hi]
  omega

theorem apart_pml4_pdpt : Apart t.pml4 4096 t.pdpt 4096 :=
  apart_tables t.pml4_aligned t.pdpt_aligned t.pml4_ne_pdpt

theorem apart_pml4_pdAt {i : Nat} (hi : i < 4) : Apart t.pml4 4096 (t.pdAt i) 4096 :=
  apart_tables t.pml4_aligned (pdAt_aligned t hi) (t.pml4_ne_pd i hi)

theorem apart_pdpt_pdAt {i : Nat} (hi : i < 4) : Apart t.pdpt 4096 (t.pdAt i) 4096 :=
  apart_tables t.pdpt_aligned (pdAt_aligned t hi) (t.pdpt_ne_pd i hi)

theorem apart_pdAt_pdAt {i j : Nat} (hi : i < 4) (hj : j < 4) (hij : i ≠ j) :
    Apart (t.pdAt i) 4096 (t.pdAt j) 4096 := by
  apply apart_tables (pdAt_aligned t hi) (pdAt_aligned t hj)
  intro heq
  have hval := congrArg BitVec.toNat heq
  rw [toNat_pdAt t hi, toNat_pdAt t hj] at hval
  omega

theorem not_covers_pd {p x : Word} (h : ∀ i < 4, Apart p 4096 (t.pdAt i) 4096)
    (hx : Covers p 4096 x) : ¬ Covers t.pd (4 * 4096) x := by
  intro hpd
  have hi : (x - t.pd).toNat / 4096 < 4 := by
    rw [Covers] at hpd
    omega
  apply h _ hi x hx
  have hval := toNat_pdAt t hi
  have hlt := t.pd_lt
  simp only [Covers, BitVec.toNat_sub] at *
  rw [hval]
  omega

theorem clearTables_pml4 {m : Memory} {x : Word} (hx : Covers t.pml4 4096 x) :
    clearTables t m x = 0 := by
  rw [clearTables,
    memset_of_not_covers (by decide) (not_covers_pd t (fun i hi => apart_pml4_pdAt t hi) hx),
    memset_of_not_covers (by decide) (apart_pml4_pdpt t x hx), memset_of_covers (by decide) hx]

theorem clearTables_pdpt {m : Memory} {x : Word} (hx : Covers t.pdpt 4096 x) :
    clearTables t m x = 0 := by
  rw [clearTables,
    memset_of_not_covers (by decide) (not_covers_pd t (fun i hi => apart_pdpt_pdAt t hi) hx),
    memset_of_covers (by decide) hx]

end Layout

/-- The tables after `n` passes of the outer loop, started from `m₀`. -/
structure Filled (t : Tables) (m₀ : Memory) (n : Nat) (m : Memory) : Prop where
  pml4 : SameTable t.pml4 m m₀
  pdpt : SameTable t.pdpt m (storeArray m₀ t.pdpt (pdptEntry t) n)
  pd : ∀ i < n, ∀ j < 512, entry m (t.pdAt i) j = pdEntry i j

theorem Filled.step {t : Tables} {m₀ m : Memory} {n : Nat} (h : Filled t m₀ n m) (hn : n < 4) :
    Filled t m₀ (n + 1) (fillDirectory t m n) := by
  refine ⟨?_, ?_, ?_⟩
  · have harray := sameTable_storeArray (f := pdEntry n) (apart_pml4_pdAt t hn)
      (m := store m (t.pdpt + BitVec.ofNat 64 n * 8) (pdptEntry t n))
    exact (harray.trans (sameTable_store (apart_pml4_pdpt t) (by omega))).trans h.pml4
  · intro x hx
    rw [fillDirectory, sameTable_storeArray (apart_pdpt_pdAt t hn) x hx, storeArray_succ, store,
      store, h.pdpt x hx]
  · intro i hi j hj
    rcases Nat.lt_succ_iff_lt_or_eq.mp hi with hlt | rfl
    · have hi4 : i < 4 := by omega
      have harray := sameTable_storeArray (f := pdEntry n)
        (apart_pdAt_pdAt t hi4 hn (Nat.ne_of_lt hlt))
        (m := store m (t.pdpt + BitVec.ofNat 64 n * 8) (pdptEntry t n))
      have hsame := harray.trans
        (sameTable_store (apart_pdpt_pdAt t hi4).symm (by omega : n < 512))
      rw [fillDirectory, hsame.entry hj]
      exact h.pd i hlt j hj
    · exact entry_storeArray hj le_rfl

theorem filled_foldl (t : Tables) (m₀ : Memory) {n : Nat} (hn : n ≤ 4) :
    Filled t m₀ n ((List.range n).foldl (fillDirectory t) m₀) := by
  induction n with
  | zero =>
      rw [List.range_zero, List.foldl_nil]
      refine ⟨fun _ _ => rfl, ?_, ?_⟩
      · rw [storeArray_zero]
        exact fun _ _ => rfl
      · intro i hi
        exact absurd hi (Nat.not_lt_zero i)
  | succ n ih =>
      rw [List.range_succ, List.foldl_append, List.foldl_cons, List.foldl_nil]
      exact (ih (by omega)).step (by omega)

section Built

variable (t : Tables) (m : Memory)

theorem filled_mmuInit :
    Filled t (store (clearTables t m) t.pml4 (pml4Entry t)) 4 (mmuInit t m).1 := by
  simp only [mmuInit]
  exact filled_foldl t _ le_rfl

theorem entry_pml4_zero : entry (mmuInit t m).1 t.pml4 0 = pml4Entry t := by
  rw [(filled_mmuInit t m).pml4.entry (by decide), entry]
  simp

theorem entry_pml4_of_pos {k : Nat} (hk : 0 < k) (hk' : k < 512) :
    entry (mmuInit t m).1 t.pml4 k = 0 := by
  have hslot : Apart (t.pml4 + BitVec.ofNat 64 k * 8) 8 (t.pml4 + BitVec.ofNat 64 0 * 8) 8 :=
    apart_slots (Nat.ne_of_gt hk) hk' (by decide) (by decide)
  have hfirst : t.pml4 + BitVec.ofNat 64 0 * 8 = t.pml4 := by simp
  rw [hfirst] at hslot
  rw [(filled_mmuInit t m).pml4.entry hk', entry, load_store_apart hslot]
  exact entry_of_zero hk' fun x hx => clearTables_pml4 t hx

theorem entry_pdpt_of_lt {k : Nat} (hk : k < 4) :
    entry (mmuInit t m).1 t.pdpt k = pdptEntry t k := by
  rw [(filled_mmuInit t m).pdpt.entry (by omega)]
  exact entry_storeArray hk (by decide)

theorem entry_pdpt_of_ge {k : Nat} (hk : 4 ≤ k) (hk' : k < 512) :
    entry (mmuInit t m).1 t.pdpt k = 0 := by
  rw [(filled_mmuInit t m).pdpt.entry hk', entry_storeArray_of_le hk' hk]
  apply entry_of_zero hk'
  intro x hx
  have hfirst : t.pml4 + BitVec.ofNat 64 0 * 8 = t.pml4 := by simp
  rw [← hfirst, sameTable_store (apart_pml4_pdpt t).symm (by decide) x hx]
  exact clearTables_pdpt t hx

theorem entry_pd {i j : Nat} (hi : i < 4) (hj : j < 512) :
    entry (mmuInit t m).1 (t.pdAt i) j = pdEntry i j :=
  (filled_mmuInit t m).pd i hi j hj

end Built

theorem format_zero (level : Nat) : format level 0 = .absent := rfl

theorem format_pointer {a : Word} {level : Nat} (ha : a.toNat % 4096 = 0)
    (ha' : a.toNat < 2 ^ 52) (hlevel : level ≠ 0) :
    format level (a ||| ptePresent ||| pteRw) = .table a := by
  have hpresent : (a ||| ptePresent ||| pteRw).getLsbD 0 = true := by
    simp [ptePresent]
  have hsmall : (a ||| ptePresent ||| pteRw).getLsbD 7 = false := by
    have hbit : a.getLsbD 7 = false := getLsbD_of_aligned (k := 12) ha (by decide)
    rw [BitVec.getLsbD_or, BitVec.getLsbD_or, hbit]
    rfl
  have hfield : field 52 12 (a ||| ptePresent ||| pteRw) = a := by
    rw [BitVec.or_assoc]
    exact field_or_flags ha ha' (by decide : (ptePresent ||| pteRw).toNat < 2 ^ 2)
      (by decide) (by decide)
  rw [format, if_neg (by rw [hpresent]; decide), if_neg hlevel, if_neg (by rw [hsmall]; simp),
    hfield]

theorem format_pml4Entry (t : Tables) : format 3 (pml4Entry t) = .table t.pdpt :=
  format_pointer t.pdpt_aligned t.pdpt_lt (by decide)

theorem format_pdptEntry (t : Tables) {i : Nat} (hi : i < 4) :
    format 2 (pdptEntry t i) = .table (t.pdAt i) := by
  have hbelow : (t.pdAt i).toNat < 2 ^ 52 := by
    have hlt := t.pd_lt
    have hval := toNat_pdAt t hi
    omega
  rw [pdptEntry]
  exact format_pointer (pdAt_aligned t hi) hbelow (by decide)

theorem toNat_hugePage {n : Nat} (hn : n < 2048) :
    (BitVec.ofNat 64 n * hugePage2mb).toNat = n * 2 ^ 21 := by
  have hsize : hugePage2mb.toNat = 2 ^ 21 := rfl
  rw [BitVec.toNat_mul, BitVec.toNat_ofNat, hsize]
  omega

theorem format_pdEntry {i j : Nat} (hi : i < 4) (hj : j < 512) :
    format 1 (pdEntry i j) = .leaf (BitVec.ofNat 64 (i * 512 + j) * hugePage2mb) := by
  have hphys := toNat_hugePage (n := i * 512 + j) (by omega)
  have hflags : pdEntry i j = BitVec.ofNat 64 (i * 512 + j) * hugePage2mb |||
      (ptePresent ||| pteRw ||| pteHuge ||| pteGlobal) := by
    simp only [pdEntry, BitVec.or_assoc]
  have hpresent : (pdEntry i j).getLsbD 0 = true := by
    simp [pdEntry, ptePresent]
  have hhuge : (pdEntry i j).getLsbD 7 = true := by
    simp [pdEntry, pteHuge]
  have hfield : field 52 (shift 1) (pdEntry i j) =
      BitVec.ofNat 64 (i * 512 + j) * hugePage2mb := by
    rw [hflags]
    refine field_or_flags (k := 9) ?_ ?_ (by decide) (by decide) (by decide)
    · rw [hphys]
      exact Nat.mul_mod_left _ _
    · rw [hphys]
      omega
  rw [format, if_neg (by rw [hpresent]; decide), if_neg (by decide), if_pos ⟨by decide, hhuge⟩,
    hfield]

/-- The identity map: below 4 GiB every address is mapped to itself through
entries that are present and writable, and from there on the walk ends at an
entry that is not present. -/
def IdentityBelow4GiB (va : VirtualAddress) (w : Walk) : Prop :=
  (va.toNat < 2 ^ 32 →
    w.phys = some (va.setWidth 64) ∧ ∀ e ∈ w.visited, Present e ∧ Writable e) ∧
  (2 ^ 32 ≤ va.toNat → w.phys = none ∧ ∃ e ∈ w.visited.getLast?, ¬ Present e)

section Translate

variable (t : Tables) (m : Memory) {va : VirtualAddress}

theorem translate_eq : translate t m va = walk format (mmuInit t m).1 va 3 t.pml4 := by
  have hcr3 : field 52 12 t.pml4 = t.pml4 :=
    field_of_aligned t.pml4_aligned t.pml4_lt (by decide)
  rw [translate, pageWalk]
  exact congrArg _ hcr3

theorem index_three_of_lt (h : va.toNat < 2 ^ 39) : index 3 va = 0 := by
  simp only [index, shift]
  omega

theorem walk_pdpt (h : index 3 va = 0) :
    walk format (mmuInit t m).1 va 3 t.pml4 =
      { visited := pml4Entry t :: (walk format (mmuInit t m).1 va 2 t.pdpt).visited
        phys := (walk format (mmuInit t m).1 va 2 t.pdpt).phys } := by
  apply walk_of_table _ (format_pml4Entry t)
  rw [h]
  exact entry_pml4_zero t m

theorem walk_pd (h : index 2 va < 4) :
    walk format (mmuInit t m).1 va 2 t.pdpt =
      { visited := [pdptEntry t (index 2 va), pdEntry (index 2 va) (index 1 va)]
        phys := some (leafAddress
          (BitVec.ofNat 64 (index 2 va * 512 + index 1 va) * hugePage2mb) 1 va) } := by
  rw [walk_of_table (entry_pdpt_of_lt t m h) (format_pdptEntry t h),
    walk_of_leaf (entry_pd t m h (index_lt 1 va)) (format_pdEntry h (index_lt 1 va))]

theorem leafAddress_identity (h : va.toNat < 2 ^ 32) :
    leafAddress (BitVec.ofNat 64 (index 2 va * 512 + index 1 va) * hugePage2mb) 1 va =
      va.setWidth 64 := by
  apply BitVec.eq_of_toNat_eq
  have hslice : index 2 va * 512 + index 1 va = va.toNat / 2 ^ 21 := by
    simp only [index, shift]
    omega
  rw [leafAddress, BitVec.toNat_add, hslice, toNat_hugePage (by omega), BitVec.toNat_ofNat,
    BitVec.toNat_setWidth, offset, shift]
  omega

theorem translate_below (h : va.toNat < 2 ^ 32) :
    (translate t m va).phys = some (va.setWidth 64) ∧
      ∀ e ∈ (translate t m va).visited, Present e ∧ Writable e := by
  have hdir : index 2 va < 4 := by
    simp only [index, shift]
    omega
  rw [translate_eq, walk_pdpt t m (index_three_of_lt (by omega)), walk_pd t m hdir,
    leafAddress_identity h]
  refine ⟨rfl, ?_⟩
  intro e he
  simp only [List.mem_cons, List.not_mem_nil, or_false] at he
  rcases he with rfl | rfl | rfl
  · simp [Present, Writable, pml4Entry, ptePresent, pteRw]
  · simp [Present, Writable, pdptEntry, ptePresent, pteRw]
  · simp [Present, Writable, pdEntry, ptePresent, pteRw]

theorem translate_above (h : 2 ^ 32 ≤ va.toNat) :
    (translate t m va).phys = none ∧ ∃ e ∈ (translate t m va).visited.getLast?, ¬ Present e := by
  have habsent : ¬ Present 0 := by simp [Present]
  rw [translate_eq]
  by_cases htop : index 3 va = 0
  · have hdir : 4 ≤ index 2 va := by
      simp only [index, shift] at htop ⊢
      omega
    rw [walk_pdpt t m htop,
      walk_of_absent (entry_pdpt_of_ge t m hdir (index_lt 2 va)) (format_zero 2)]
    exact ⟨rfl, 0, rfl, habsent⟩
  · rw [walk_of_absent (entry_pml4_of_pos t m (Nat.pos_of_ne_zero htop) (index_lt 3 va))
      (format_zero 3)]
    exact ⟨rfl, 0, rfl, habsent⟩

/-- Whatever memory held before, the tables of `mmu_init` are the identity map
of the first 4 GiB and of nothing else. -/
theorem translate_identity (va : VirtualAddress) : IdentityBelow4GiB va (translate t m va) :=
  ⟨translate_below t m, translate_above t m⟩

end Translate

end ShlteOs.X86Paging
