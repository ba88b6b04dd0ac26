import ShlteOs.BumpAllocator
import ShlteOs.X86Paging

/-!
The early heap under the page tables of x86_64.  The heap of `kmalloc_simple` starts at
512 MiB and `mmu_init` maps the first 4 GiB; the allocator knows nothing of this end.
Below it the regions can be used freely: no store into them reaches the tables.
-/

namespace ShlteOs.MappedHeap

open ShlteOs.ByteMemory
open ShlteOs.PageWalk
open ShlteOs.X86Paging
open ShlteOs.BumpAllocator

/-- The tables lie in the kernel image, which ends before the heap. -/
structure BelowHeap (t : Tables) : Prop where
  pml4 : t.pml4.toNat + 4096 ≤ (heapStart .x86).toNat
  pdpt : t.pdpt.toNat + 4096 ≤ (heapStart .x86).toNat
  pd : t.pd.toNat + 4 * 4096 ≤ (heapStart .x86).toNat

/-- What memory may hold once the regions are in use: anything inside them. -/
def Used (t : Tables) (m : Memory) (sizes : List Word) (m' : Memory) : Prop :=
  ∀ x, (∀ r ∈ allocations (heapStart .x86) sizes, ¬ Covers r.base r.size.toNat x) →
    m' x = (mmuInit t m).1 x

/-- The processor finds `x` mapped to itself, and may write there. -/
def Reaches (t : Tables) (m : Memory) (x : Word) : Prop :=
  (pageWalk m t.pml4 (x.setWidth 48)).phys = some x ∧
    ∀ e ∈ (pageWalk m t.pml4 (x.setWidth 48)).visited, Present e ∧ Writable e

theorem toNat_heapStart : (heapStart .x86).toNat = 2 ^ 29 := rfl

section Walks

variable {t : Tables} {m m' : Memory}

theorem toNat_lt_of_covers {base x : Word} {n k : Nat} (hend : base.toNat + n ≤ k)
    (hk : k ≤ 2 ^ 64) (hx : Covers base n x) : x.toNat < k := by
  have hlt := x.isLt
  rw [Covers, BitVec.toNat_sub] at hx
  omega

theorem reaches_mmuInit {x : Word} (h : Reaches t (mmuInit t m).1 x) : x.toNat < 2 ^ 32 := by
  have htranslate : pageWalk (mmuInit t m).1 t.pml4 (x.setWidth 48) =
      translate t m (x.setWidth 48) := rfl
  have hphys := h.1
  rw [htranslate] at hphys
  by_cases hlow : (x.setWidth 48).toNat < 2 ^ 32
  · rw [(translate_below t m hlow).1, Option.some_inj] at hphys
    have hval := congrArg BitVec.toNat hphys
    rw [BitVec.toNat_setWidth] at hval
    omega
  · rw [(translate_above t m (Nat.le_of_not_lt hlow)).1] at hphys
    cases hphys

theorem pageWalk_of_sameTables (hpml4 : SameTable t.pml4 m' (mmuInit t m).1)
    (hpdpt : SameTable t.pdpt m' (mmuInit t m).1)
    (hpd : ∀ i < 4, SameTable (t.pdAt i) m' (mmuInit t m).1) {va : VirtualAddress}
    (hva : va.toNat < 2 ^ 32) : pageWalk m' t.pml4 va = translate t m va := by
  have hdir : index 2 va < 4 := by
    simp only [index, shift]
    omega
  have htop : index 3 va = 0 := index_three_of_lt (by omega)
  have hcr3 : field 52 12 t.pml4 = t.pml4 :=
    field_of_aligned t.pml4_aligned t.pml4_lt (by decide)
  have hfirst : entry m' t.pml4 (index 3 va) = pml4Entry t := by
    rw [htop, hpml4.entry (by decide)]
    exact entry_pml4_zero t m
  have hsecond : entry m' t.pdpt (index 2 va) = pdptEntry t (index 2 va) := by
    rw [hpdpt.entry (index_lt 2 va)]
    exact entry_pdpt_of_lt t m hdir
  have hthird : entry m' (t.pdAt (index 2 va)) (index 1 va) =
      pdEntry (index 2 va) (index 1 va) := by
    rw [(hpd _ hdir).entry (index_lt 1 va)]
    exact entry_pd t m hdir (index_lt 1 va)
  rw [translate_eq, walk_pdpt t m htop, walk_pd t m hdir, pageWalk, hcr3,
    walk_of_table hfirst (format_pml4Entry t), walk_of_table hsecond (format_pdptEntry t hdir),
    walk_of_leaf hthird (format_pdEntry hdir (index_lt 1 va))]

end Walks

section Regions

variable {t : Tables} {m : Memory} {sizes : List Word}

theorem takenBefore_le_length (sizes : List Word) (i : Nat) :
    takenBefore sizes i ≤ takenBefore sizes sizes.length := by
  rcases Nat.le_total i sizes.length with h | h
  · exact takenBefore_mono h
  · rw [takenBefore, takenBefore, List.take_of_length_le h, List.take_length]

theorem covers_bounds (htotal : takenBefore sizes sizes.length ≤ 7 * 2 ^ 29) {r : Region}
    (hr : r ∈ allocations (heapStart .x86) sizes) {x : Word}
    (hx : Covers r.base r.size.toNat x) : 2 ^ 29 ≤ x.toNat ∧ x.toNat < 2 ^ 32 := by
  obtain ⟨i, size, hi, rfl⟩ := mem_allocations.mp hr
  have hnext := takenBefore_le_length sizes (i + 1)
  rw [takenBefore_succ hi] at hnext
  have hsize := le_taken size
  have hbase : (regionAt (heapStart .x86) sizes i size).base.toNat =
      2 ^ 29 + takenBefore sizes i := by
    apply toNat_regionAt_of_lt
    rw [toNat_heapStart]
    omega
  have hlt := x.isLt
  rw [Covers, BitVec.toNat_sub, hbase] at hx
  simp only [regionAt] at hx
  omega

theorem sameTable_of_used (htotal : takenBefore sizes sizes.length ≤ 7 * 2 ^ 29) {m' : Memory}
    (hused : Used t m sizes m') {table : Word} (hend : table.toNat + 4096 ≤ 2 ^ 29) :
    SameTable table m' (mmuInit t m).1 := by
  intro x hx
  apply hused
  intro r hr hcover
  have hlow := toNat_lt_of_covers hend (by decide) hx
  have hbounds := covers_bounds htotal hr hcover
  omega

theorem reaches_of_used (hbelow : BelowHeap t)
    (htotal : takenBefore sizes sizes.length ≤ 7 * 2 ^ 29) {m' : Memory}
    (hused : Used t m sizes m') {x : Word} (hx : x.toNat < 2 ^ 32) : Reaches t m' x := by
  have hpd : ∀ i < 4, SameTable (t.pdAt i) m' (mmuInit t m).1 := by
    intro i hi
    apply sameTable_of_used htotal hused
    have hend := hbelow.pd
    rw [toNat_heapStart] at hend
    rw [toNat_pdAt t hi]
    omega
  have hva : (x.setWidth 48).toNat < 2 ^ 32 := by
    rw [BitVec.toNat_setWidth]
    omega
  have hback : (x.setWidth 48).setWidth 64 = x := by
    apply BitVec.eq_of_toNat_eq
    rw [BitVec.toNat_setWidth, BitVec.toNat_setWidth]
    omega
  rw [Reaches, pageWalk_of_sameTables (sameTable_of_used htotal hused hbelow.pml4)
    (sameTable_of_used htotal hused hbelow.pdpt) hpd hva]
  have hwalk := translate_below t m hva
  rw [hback] at hwalk
  exact hwalk

theorem takenBefore_le_of_reaches
    (h : ∀ r ∈ allocations (heapStart .x86) sizes, ∀ x, Covers r.base r.size.toNat x →
      Reaches t (mmuInit t m).1 x) (i : Nat) : takenBefore sizes i ≤ 7 * 2 ^ 29 := by
  induction i with
  | zero => exact Nat.zero_le _
  | succ i ih =>
      rcases hget : sizes[i]? with _ | size
      · rw [takenBefore_succ_of_none hget]
        exact ih
      · have hbase : (regionAt (heapStart .x86) sizes i size).base.toNat =
            2 ^ 29 + takenBefore sizes i := by
          apply toNat_regionAt_of_lt
          rw [toNat_heapStart]
          omega
        have hfits : takenBefore sizes i + size.toNat ≤ 7 * 2 ^ 29 := by
          by_contra hover
          -- the first byte from 4 GiB on is one of the region, and is not mapped
          have hcover : Covers (regionAt (heapStart .x86) sizes i size).base size.toNat
              (BitVec.ofNat 64 (2 ^ 32)) := by
            rw [Covers, BitVec.toNat_sub, hbase, BitVec.toNat_ofNat]
            omega
          have hlt := reaches_mmuInit
            (h _ (mem_allocations.mpr ⟨i, size, hget, rfl⟩) _ hcover)
          rw [BitVec.toNat_ofNat] at hlt
          omega
        have halign := takenBefore_aligned sizes i
        rw [takenBefore_succ hget, taken]
        omega

end Regions

/-- Whatever the clients of the early allocator store into their regions, every byte
they were given stays mapped to itself and writable, exactly if the requests together,
each rounded up to pages, take at most the 3.5 GiB from the heap's start to the end of
the map. -/
theorem regions_reached_iff {t : Tables} (hbelow : BelowHeap t) (m : Memory)
    (sizes : List Word) :
    (∀ m', Used t m sizes m' → ∀ r ∈ allocations (heapStart .x86) sizes,
      ∀ x, Covers r.base r.size.toNat x → Reaches t m' x) ↔
      takenBefore sizes sizes.length ≤ 7 * 2 ^ 29 := by
  constructor
  · intro h
    exact takenBefore_le_of_reaches (h (mmuInit t m).1 fun _ _ => rfl) sizes.length
  · intro htotal m' hused r hr x hx
    exact reaches_of_used hbelow htotal hused (covers_bounds htotal hr hx).2

/-- The tables at 1 MiB. -/
def sampleTables : Tables where
  pml4 := 0x100000
  pdpt := 0x101000
  pd := 0x102000
  pml4_aligned := by decide
  pdpt_aligned := by decide
  pd_aligned := by decide
  pml4_lt := by decide
  pdpt_lt := by decide
  pd_lt := by decide
  pml4_ne_pdpt := by decide
  pml4_ne_pd := by decide
  pdpt_ne_pd := by decide

theorem regions_reached_sample :
    (∀ m', Used sampleTables (fun _ => 0) [1, 0xDFFFF000] m' →
      ∀ r ∈ allocations (heapStart .x86) [1, 0xDFFFF000],
        ∀ x, Covers r.base r.size.toNat x → Reaches sampleTables m' x) ↔
      takenBefore [1, 0xDFFFF000] 2 ≤ 7 * 2 ^ 29 :=
  regions_reached_iff ⟨by decide, by decide, by decide⟩ _ _

end ShlteOs.MappedHeap
