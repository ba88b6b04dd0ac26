import Mathlib.Data.List.Basic
import Mathlib.Data.List.Range
import Mathlib.Data.List.Nodup
import Mathlib.Data.Fin.Basic

/-!
Scanning a table of `n` slots in circular order, starting behind a given slot
and coming to that slot last.
-/

namespace ShlteOs.CircularScan

variable {n : Nat}

/-- The slot `i` places behind `last`, around the end of the table. -/
def slotAfter (last : Fin n) (i : Nat) : Fin n :=
  ⟨(last + i) % n, Nat.mod_lt _ (Nat.zero_lt_of_lt last.isLt)⟩

/-- All slots, from the one behind `last` to `last` itself. -/
def slotsAfter (last : Fin n) : List (Fin n) :=
  (List.range' 1 n).map (slotAfter last)

/-- The first slot behind `last` that passes the test; `last` itself comes last. -/
def scan (p : Fin n → Bool) (last : Fin n) : Option (Fin n) :=
  (slotsAfter last).find? p

/-- How many places `j` lies behind `last`, from `1` to `n`. -/
def gap (last j : Fin n) : Nat :=
  if last < j then j - last else n + j - last

theorem gap_pos (last j : Fin n) : 0 < gap last j := by
  have hlast := last.isLt
  simp only [gap, Fin.lt_def]
  split_ifs <;> omega

theorem gap_le (last j : Fin n) : gap last j ≤ n := by
  simp only [gap, Fin.lt_def]
  split_ifs with h <;> omega

@[simp] theorem gap_self (last : Fin n) : gap last last = n := by
  simp [gap]

theorem slotAfter_gap (last j : Fin n) : slotAfter last (gap last j) = j := by
  have hlast := last.isLt
  have hj := j.isLt
  apply Fin.ext
  simp only [slotAfter, gap, Fin.lt_def]
  split_ifs with h
  · rw [Nat.add_sub_cancel' (Nat.le_of_lt h), Nat.mod_eq_of_lt hj]
  · rw [Nat.add_sub_cancel' (by omega), Nat.add_mod_left, Nat.mod_eq_of_lt hj]

theorem gap_slotAfter (last : Fin n) {i : Nat} (hpos : 0 < i) (hle : i ≤ n) :
    gap last (slotAfter last i) = i := by
  have hlast := last.isLt
  simp only [slotAfter, gap, Fin.lt_def]
  by_cases h : last + i < n
  · rw [Nat.mod_eq_of_lt h]
    split_ifs <;> omega
  · rw [Nat.mod_eq_sub_mod (by omega), Nat.mod_eq_of_lt (by omega)]
    split_ifs <;> omega

theorem gap_injective (last : Fin n) : Function.Injective (gap last) := by
  intro j k h
  rw [← slotAfter_gap last j, h, slotAfter_gap]

theorem mem_slotsAfter (last j : Fin n) : j ∈ slotsAfter last := by
  apply List.mem_map.mpr
  refine ⟨gap last j, ?_, slotAfter_gap last j⟩
  have hpos := gap_pos last j
  have hle := gap_le last j
  simp only [List.mem_range'_1]
  omega

theorem pairwise_slotsAfter (last : Fin n) :
    (slotsAfter last).Pairwise fun j k => gap last j < gap last k := by
  apply List.pairwise_map.mpr
  apply List.Pairwise.imp_of_mem _ List.pairwise_lt_range'
  intro i j hi hj hlt
  simp only [List.mem_range'_1] at hi hj
  rwa [gap_slotAfter last (by omega) (by omega), gap_slotAfter last (by omega) (by omega)]

theorem nodup_slotsAfter (last : Fin n) : (slotsAfter last).Nodup :=
  (pairwise_slotsAfter last).imp fun h heq => absurd h (by simp [heq])

theorem scan_isSome {p : Fin n → Bool} (last : Fin n) {j : Fin n} (hj : p j = true) :
    ∃ k, scan p last = some k := by
  apply Option.isSome_iff_exists.mp
  exact List.find?_isSome.mpr ⟨j, mem_slotsAfter last j, hj⟩

/-- The slot found passes the test, and none that is nearer behind `last` does. -/
theorem scan_nearest {p : Fin n → Bool} {last j : Fin n} (h : scan p last = some j) :
    p j = true ∧ ∀ k, p k = true → gap last j ≤ gap last k := by
  obtain ⟨hj, before, behind, hsplit, hbefore⟩ := List.find?_eq_some_iff_append.mp h
  refine ⟨hj, ?_⟩
  intro k hk
  have hmem := mem_slotsAfter last k
  have hpair := pairwise_slotsAfter last
  rw [hsplit] at hmem hpair
  rcases List.mem_append.mp hmem with hk' | hk'
  · have hfail := hbefore k hk'
    simp [hk] at hfail
  · rcases List.mem_cons.mp hk' with rfl | hk''
    · exact Nat.le_refl _
    · exact Nat.le_of_lt
        ((List.pairwise_cons.mp (List.pairwise_append.mp hpair).2.1).1 k hk'')

theorem scan_eq_self_iff {p : Fin n → Bool} {last : Fin n} (hlast : p last = true) :
    scan p last = some last ↔ ∀ k, p k = true → k = last := by
  constructor
  · intro h k hk
    have hle := (scan_nearest h).2 k hk
    apply gap_injective last
    rw [gap_self] at hle ⊢
    exact Nat.le_antisymm (gap_le last k) hle
  · intro honly
    obtain ⟨k, hk⟩ := scan_isSome last hlast
    rw [hk, honly k (scan_nearest hk).1]

/-- The slots that pass the test, in circular order behind `last`. -/
def inOrder (p : Fin n → Bool) (last : Fin n) : List (Fin n) :=
  (slotsAfter last).filter p

theorem mem_inOrder {p : Fin n → Bool} {last j : Fin n} :
    j ∈ inOrder p last ↔ p j = true := by
  simp [inOrder, mem_slotsAfter]

theorem nodup_inOrder (p : Fin n → Bool) (last : Fin n) : (inOrder p last).Nodup :=
  (nodup_slotsAfter last).filter p

theorem inOrder_eq_singleton {p : Fin n → Bool} {last j : Fin n}
    (h : ∀ k, p k = true ↔ k = j) : inOrder p last = [j] := by
  apply List.perm_singleton.mp
  apply (List.perm_ext_iff_of_nodup (nodup_inOrder p last) (List.nodup_singleton j)).mpr
  intro k
  simp [mem_inOrder, h]

end ShlteOs.CircularScan
