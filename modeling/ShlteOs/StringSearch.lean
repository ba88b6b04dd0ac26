import Mathlib.Order.Bounds.Basic
import ShlteOs.StringComparison

/-!
`strstr`.  For every position of the haystack the inner loop runs along the needle
until one of the strings ends or they differ, and starts again behind the position.
-/

namespace ShlteOs.StringSearch

open ShlteOs.ByteMemory
open ShlteOs.FormatReads (CString)
open ShlteOs.StringComparison (pair_induction)

/-- The inner loop, and the test `!*n` behind it. -/
def matchLoop : List Byte → List Byte → Option Bool
  | c :: h, d :: n => if c ≠ 0 ∧ d ≠ 0 ∧ c = d then matchLoop h n else some (d = 0)
  | _, _ => none

/-- The outer loop; the result is the distance from the position it starts at, or
`none` for a null pointer. -/
def searchLoop (needle : List Byte) : List Byte → Option (Option Nat)
  | [] => none
  | c :: haystack =>
      if c ≠ 0 then do
        let found ← matchLoop (c :: haystack) needle
        if found then some (some 0)
        else (searchLoop needle haystack).map (·.map (· + 1))
      else some none

/-- The position of the needle, or `none` inside for NULL. -/
def strstr (haystack : List Byte) : List Byte → Option (Option Nat)
  | [] => none
  | d :: needle => if d = 0 then some (some 0) else searchLoop (d :: needle) haystack

/-- The positions at which the needle stands in the haystack. -/
def occurrences (haystack needle : List Byte) : Set Nat :=
  { i | i ≤ haystack.length ∧ needle <+: haystack.drop i }

/-- The result is the first of the positions, if there is one. -/
def First (positions : Set Nat) : Option Nat → Prop
  | none => positions = ∅
  | some i => IsLeast positions i

section Positions

variable {h needle : List Byte}

theorem First.eq_some_iff {positions : Set Nat} {r : Option Nat} (hr : First positions r)
    (i : Nat) : r = some i ↔ IsLeast positions i := by
  cases r with
  | none =>
      have hempty : positions = ∅ := hr
      constructor
      · intro h
        cases h
      · intro h
        rw [hempty] at h
        exact absurd h.1 (Set.notMem_empty i)
  | some j =>
      have hleast : IsLeast positions j := hr
      exact ⟨fun h => Option.some.inj h ▸ hleast, fun h => congrArg some (hleast.unique h)⟩

theorem First.eq_none_iff {positions : Set Nat} {r : Option Nat} (hr : First positions r) :
    r = none ↔ positions = ∅ := by
  cases r with
  | none => exact ⟨fun _ => hr, fun _ => rfl⟩
  | some j =>
      have hleast : IsLeast positions j := hr
      constructor
      · intro h
        cases h
      · intro h
        rw [h] at hleast
        exact absurd hleast.1 (Set.notMem_empty j)

theorem first_zero (hmatch : needle <+: h) : First (occurrences h needle) (some 0) :=
  ⟨⟨Nat.zero_le _, hmatch⟩, fun _ _ => Nat.zero_le _⟩

theorem succ_mem_occurrences (c : Byte) (i : Nat) :
    i + 1 ∈ occurrences (c :: h) needle ↔ i ∈ occurrences h needle := by
  show i + 1 ≤ h.length + 1 ∧ needle <+: h.drop i ↔ i ≤ h.length ∧ needle <+: h.drop i
  rw [Nat.succ_le_succ_iff]

theorem First.cons {r : Option Nat} (hr : First (occurrences h needle) r) {c : Byte}
    (hstart : ¬ needle <+: c :: h) : First (occurrences (c :: h) needle) (r.map (· + 1)) := by
  have hzero : 0 ∉ occurrences (c :: h) needle := fun hmem => hstart hmem.2
  cases r with
  | none =>
      have hempty : occurrences h needle = ∅ := hr
      apply Set.eq_empty_of_forall_notMem
      intro i hi
      cases i with
      | zero => exact hzero hi
      | succ i =>
          rw [succ_mem_occurrences, hempty] at hi
          exact hi
  | some j =>
      obtain ⟨hj, hleast⟩ : IsLeast (occurrences h needle) j := hr
      refine ⟨(succ_mem_occurrences c j).mpr hj, fun i hi => ?_⟩
      cases i with
      | zero => exact absurd hi hzero
      | succ i => exact Nat.succ_le_succ (hleast ((succ_mem_occurrences c i).mp hi))

end Positions

section Loops

variable {h needle : List Byte} (th tn : List Byte)

theorem matchLoop_eq (hh : 0 ∉ h) (hn : 0 ∉ needle) :
    matchLoop (h ++ 0 :: th) (needle ++ 0 :: tn) = some (decide (needle <+: h)) := by
  refine pair_induction (motive := fun h n => matchLoop (h ++ 0 :: th) (n ++ 0 :: tn) =
    some (decide (n <+: h))) ?_ ?_ ?_ ?_ ?_ hh hn
  · rw [decide_eq_true (List.nil_prefix)]
    rfl
  · intro d n hd
    have hno : ¬ d :: n <+: [] := fun h => List.cons_ne_nil d n (List.prefix_nil.mp h)
    rw [List.nil_append, List.cons_append, matchLoop, if_neg fun h => h.1 rfl, decide_eq_false hd,
      decide_eq_false hno]
  · intro c h _
    rw [List.nil_append, List.cons_append, matchLoop, if_neg fun h => h.2.1 rfl,
      decide_eq_true List.nil_prefix]
    rfl
  · intro c d h n hd hcd
    have hno : ¬ d :: n <+: c :: h := fun h => hcd (List.cons_prefix_cons.mp h).1.symm
    rw [List.cons_append, List.cons_append, matchLoop, if_neg fun h => hcd h.2.2,
      decide_eq_false hd, decide_eq_false hno]
  · intro c h n hc ih
    rw [List.cons_append, List.cons_append, matchLoop, if_pos ⟨hc, hc, rfl⟩, ih]
    simp only [List.prefix_cons_inj]

theorem searchLoop_first (hne : needle ≠ []) (hh : 0 ∉ h) (hn : 0 ∉ needle) :
    ∃ r, (∀ th tn, searchLoop (needle ++ 0 :: tn) (h ++ 0 :: th) = some r) ∧
      First (occurrences h needle) r := by
  induction h with
  | nil =>
      refine ⟨none, fun th tn => if_neg (not_not.mpr rfl), ?_⟩
      apply Set.eq_empty_of_forall_notMem
      intro i hi
      have hmatch : needle <+: [].drop i := hi.2
      rw [List.drop_nil] at hmatch
      exact hne (List.prefix_nil.mp hmatch)
  | cons c h ih =>
      obtain ⟨hc, hrest⟩ := List.ne_and_not_mem_of_not_mem_cons hh
      obtain ⟨r, hloop, hfirst⟩ := ih hrest
      have hstep : ∀ th tn, searchLoop (needle ++ 0 :: tn) ((c :: h) ++ 0 :: th) =
          if needle <+: c :: h then some (some 0) else some (r.map (· + 1)) := by
        intro th tn
        have hmatch := matchLoop_eq th tn hh hn
        rw [List.cons_append] at hmatch ⊢
        rw [searchLoop, if_pos hc.symm, hmatch, hloop]
        simp only [Option.bind_eq_bind, Option.bind_some, decide_eq_true_eq, Option.map_some]
      by_cases hmatch : needle <+: c :: h
      · refine ⟨some 0, fun th tn => ?_, first_zero hmatch⟩
        rw [hstep, if_pos hmatch]
      · refine ⟨r.map (· + 1), fun th tn => ?_, hfirst.cons hmatch⟩
        rw [hstep, if_neg hmatch]

end Loops

theorem strstr_occurrence (haystack needle : CString) :
    ∃ r, (∀ th tn, strstr (haystack.bytes ++ 0 :: th) (needle.bytes ++ 0 :: tn) = some r) ∧
      First (occurrences haystack.bytes needle.bytes) r := by
  obtain ⟨h, hh⟩ := haystack
  obtain ⟨n, hn⟩ := needle
  cases n with
  | nil => exact ⟨some 0, fun _ _ => rfl, first_zero List.nil_prefix⟩
  | cons d n =>
      obtain ⟨hd, -⟩ := List.ne_and_not_mem_of_not_mem_cons hn
      obtain ⟨r, hloop, hfirst⟩ := searchLoop_first (List.cons_ne_nil d n) hh hn
      refine ⟨r, fun th tn => ?_, hfirst⟩
      rw [List.cons_append, strstr, if_neg hd.symm]
      exact hloop th tn

/-- `strstr` returns the least position at which the needle stands, and a null
pointer when there is none, whatever lies behind the NULs, also when nothing there
can be read. -/
theorem strstr_first (haystack needle : CString) :
    ∃ r, (∀ th tn, strstr (haystack.bytes ++ 0 :: th) (needle.bytes ++ 0 :: tn) = some r) ∧
      (∀ i, r = some i ↔
        IsLeast { i | i ≤ haystack.bytes.length ∧ needle.bytes <+: haystack.bytes.drop i } i) ∧
      (r = none ↔
        ∀ i ≤ haystack.bytes.length, ¬ needle.bytes <+: haystack.bytes.drop i) := by
  obtain ⟨r, hcall, hfirst⟩ := strstr_occurrence haystack needle
  refine ⟨r, hcall, hfirst.eq_some_iff, hfirst.eq_none_iff.trans ?_⟩
  rw [Set.eq_empty_iff_forall_notMem]
  exact ⟨fun h i hi hmatch => h i ⟨hi, hmatch⟩, fun h i hi => h i hi.1 hi.2⟩

end ShlteOs.StringSearch
