import Mathlib.Logic.Basic
import Mathlib.Data.List.Basic

/-!
Runs of a component that is driven by calls.  A call takes the component from
one state to the next, or does not return (`none`).  `Along P` says that `P`
holds of every state a sequence of calls passes through, together with the call
made there; the rules below reduce a statement about whole runs to one about a
single call.
-/

namespace ShlteOs.CallSequence

variable {State Call : Type*} (step : State → Call → Option State)

/-- `P` holds at every call of the sequence that is actually made. -/
def Along (P : State → Call → Prop) : State → List Call → Prop
  | _, [] => True
  | s, call :: calls => P s call ∧ ∀ s', step s call = some s' → Along P s' calls

variable {step}

/-- Invariant rule.  A property of states that every call meeting `Q`
preserves, and under which such a call meets `P`, turns `Q` along a run into
`P` along the same run. -/
theorem Along.of_invariant {P Q : State → Call → Prop} (Inv : State → Prop)
    (hstep : ∀ s call, Inv s → Q s call → P s call)
    (hkeep : ∀ s call s', Inv s → Q s call → step s call = some s' → Inv s')
    {s : State} {calls : List Call} (hs : Inv s) (h : Along step Q s calls) :
    Along step P s calls := by
  induction calls generalizing s with
  | nil => trivial
  | cons call calls ih =>
      obtain ⟨hq, hrest⟩ := h
      refine ⟨hstep s call hs hq, ?_⟩
      intro s' hs'
      exact ih (hkeep s call s' hs hq hs') (hrest s' hs')

/-- Equivalence rule.  Along a run that meets `R`, two properties that agree
wherever the invariant holds hold together, if one of them keeps it. -/
theorem Along.iff_of_invariant {P Q R : State → Call → Prop} (Inv : State → Prop)
    (hiff : ∀ s call, Inv s → R s call → (P s call ↔ Q s call))
    (hkeep : ∀ s call s', Inv s → R s call → P s call → step s call = some s' → Inv s')
    {s : State} {calls : List Call} (hs : Inv s) (hr : Along step R s calls) :
    Along step P s calls ↔ Along step Q s calls := by
  induction calls generalizing s with
  | nil => exact Iff.rfl
  | cons call calls ih =>
      obtain ⟨hcall, hrest⟩ := hr
      have hpq := hiff s call hs hcall
      constructor
      · rintro ⟨hp, htail⟩
        refine ⟨hpq.mp hp, ?_⟩
        intro s' hs'
        exact (ih (hkeep s call s' hs hcall hp hs') (hrest s' hs')).mp (htail s' hs')
      · rintro ⟨hq, htail⟩
        have hp := hpq.mpr hq
        refine ⟨hp, ?_⟩
        intro s' hs'
        exact (ih (hkeep s call s' hs hcall hp hs') (hrest s' hs')).mpr (htail s' hs')

theorem Along.of_forall {P : State → Call → Prop} (h : ∀ s call, P s call) (s : State)
    (calls : List Call) : Along step P s calls := by
  induction calls generalizing s with
  | nil => trivial
  | cons call calls ih => exact ⟨h s call, fun s' _ => ih s'⟩

end ShlteOs.CallSequence
