import Mathlib.Data.BitVec
import Mathlib.Logic.Function.Basic

/-!
The interrupt dispatch table: handlers are entered by `irq_register` and
`irq_unregister`, which check against the size of the table, and are called by
the arm64 `handle_irq`, which checks against the interrupt controller's limit.
Handlers are values of an arbitrary type, and a null pointer is `none`.
-/

namespace ShlteOs.IrqDispatch

variable {H : Type}

def maxIrqHandlers : Nat := 256

/-- The bound `handle_irq` tests a number against. -/
def gicMaxInterrupts : Nat := 1020

abbrev Table (H : Type) := Fin maxIrqHandlers → Option H

/-- The range check both calls make, and the entry they write behind it. -/
def setHandler (table : Table H) (irqNum : Int) (handler : Option H) : Table H × Int :=
  if h : irqNum < 0 ∨ (maxIrqHandlers : Int) ≤ irqNum then
    (table, -1)
  else
    (Function.update table ⟨irqNum.toNat, by omega⟩ handler, 0)

def irqRegister (table : Table H) (irqNum : Int) (handler : Option H) : Table H × Int :=
  setHandler table irqNum handler

def irqUnregister (table : Table H) (irqNum : Int) : Table H × Int :=
  setHandler table irqNum none

/-- What one interrupt does: the value written to `GICC_EOIAR`, the indices
read from the table and the handlers invoked with their argument. -/
structure Handled (H : Type) where
  acknowledged : Option (BitVec 32)
  reads : List Nat
  invoked : List (H × Int)

/-- A read of the table; `beyond` is what the memory behind it holds. -/
def tableAt (beyond : Nat → Option H) (table : Table H) (i : Nat) : Option H :=
  if h : i < maxIrqHandlers then table ⟨i, h⟩ else beyond i

/-- An empty entry is passed over. -/
def invoke (handler : Option H) (irqNum : BitVec 32) : List (H × Int) :=
  match handler with
  | some h => [(h, irqNum.toInt)]
  | none => []

/-- Two numbers are spurious; all others below the bound are read from the table. -/
def handleIrq (beyond : Nat → Option H) (table : Table H) (irqNum : BitVec 32) : Handled H :=
  if irqNum ≠ 1020 ∧ irqNum ≠ 1021 then
    if irqNum.toNat < gicMaxInterrupts then
      { acknowledged := some irqNum
        reads := [irqNum.toNat]
        invoked := invoke (tableAt beyond table irqNum.toNat) irqNum }
    else
      { acknowledged := some irqNum, reads := [], invoked := [] }
  else
    { acknowledged := none, reads := [], invoked := [] }

inductive Call (H : Type)
  | register (irqNum : Int) (handler : Option H)
  | unregister (irqNum : Int)

def Call.irqNum : Call H → Int
  | .register irqNum _ => irqNum
  | .unregister irqNum => irqNum

/-- The handler a call asks for. -/
def Call.handler : Call H → Option H
  | .register _ handler => handler
  | .unregister _ => none

def Call.apply (call : Call H) (table : Table H) : Table H × Int :=
  match call with
  | .register irqNum handler => irqRegister table irqNum handler
  | .unregister irqNum => irqUnregister table irqNum

/-- The table with the calls made so far and what they returned, newest first. -/
structure Registry (H : Type) where
  table : Table H
  answered : List (Call H × Int)

def Registry.step (r : Registry H) (call : Call H) : Registry H where
  table := (call.apply r.table).1
  answered := (call, (call.apply r.table).2) :: r.answered

def Registry.boot : Registry H where
  table := fun _ => none
  answered := []

def run (history : List (Call H)) : Registry H :=
  history.foldl Registry.step Registry.boot

/-- The last call for `n` that was not rejected. -/
def lastSuccessful (answered : List (Call H × Int)) (n : Int) : Option (Call H) :=
  (answered.find? fun entry => entry.2 = 0 ∧ entry.1.irqNum = n).map Prod.fst

/-- The map the table stands for. -/
def registered (answered : List (Call H × Int)) (n : Int) : Option H :=
  (lastSuccessful answered n).bind Call.handler

/-- What an interrupt has to do after a history of calls. -/
structure Refines (beyond : Nat → Option H) (history : List (Call H)) (n : BitVec 32) :
    Prop where
  inBounds : ∀ i ∈ (handleIrq beyond (run history).table n).reads, i < maxIrqHandlers
  invoked : (handleIrq beyond (run history).table n).invoked =
    match registered (run history).answered n.toNat with
    | some h => [(h, (n.toNat : Int))]
    | none => []
  rejected : ∀ call : Call H, (call.apply (run history).table).2 = -1 →
    (call.apply (run history).table).1 = (run history).table

theorem setHandler_cases (table : Table H) (irqNum : Int) (handler : Option H) :
    ((irqNum < 0 ∨ (maxIrqHandlers : Int) ≤ irqNum) ∧
      setHandler table irqNum handler = (table, -1)) ∨
    ∃ i : Fin maxIrqHandlers, irqNum = i.val ∧
      setHandler table irqNum handler = (Function.update table i handler, 0) := by
  by_cases h : irqNum < 0 ∨ (maxIrqHandlers : Int) ≤ irqNum
  · exact .inl ⟨h, dif_pos h⟩
  · refine .inr ⟨⟨irqNum.toNat, by omega⟩, ?_, dif_neg h⟩
    simp only
    omega

theorem Call.apply_eq (call : Call H) (table : Table H) :
    call.apply table = setHandler table call.irqNum call.handler := by
  cases call with
  | register irqNum handler => rfl
  | unregister irqNum => rfl

theorem apply_of_rejected {call : Call H} {table : Table H}
    (h : (call.apply table).2 = -1) : (call.apply table).1 = table := by
  rw [Call.apply_eq] at h ⊢
  obtain ⟨-, heq⟩ | ⟨i, -, heq⟩ := setHandler_cases table call.irqNum call.handler
  · rw [heq]
  · rw [heq] at h
    exact absurd (show (0 : Int) = -1 from h) (by decide)

/-- The table and the map agree, and no number outside the table was ever
accepted. -/
structure Agrees (r : Registry H) : Prop where
  entry : ∀ i : Fin maxIrqHandlers, r.table i = registered r.answered i.val
  outside : ∀ n : Int, (maxIrqHandlers : Int) ≤ n → registered r.answered n = none

theorem registered_cons_of_accepted (answered : List (Call H × Int)) (call : Call H) :
    registered ((call, 0) :: answered) call.irqNum = call.handler := by
  simp [registered, lastSuccessful]

theorem registered_cons_of_ne {answered : List (Call H × Int)} {call : Call H} {code n : Int}
    (h : ¬ (code = 0 ∧ call.irqNum = n)) :
    registered ((call, code) :: answered) n = registered answered n := by
  rw [registered, lastSuccessful, List.find?_cons_of_neg (by simpa using h)]
  rfl

theorem Agrees.step {r : Registry H} (hr : Agrees r) (call : Call H) : Agrees (r.step call) := by
  obtain ⟨-, heq⟩ | ⟨i, hi, heq⟩ := setHandler_cases r.table call.irqNum call.handler
  · have hstep : r.step call = { table := r.table, answered := (call, -1) :: r.answered } := by
      rw [Registry.step, Call.apply_eq, heq]
    rw [hstep]
    have hsame : ∀ n, registered ((call, -1) :: r.answered) n = registered r.answered n :=
      fun n => registered_cons_of_ne fun h => absurd h.1 (by decide)
    refine ⟨fun i => ?_, fun n hn => ?_⟩
    · rw [hsame, hr.entry i]
    · rw [hsame, hr.outside n hn]
  · have hstep : r.step call =
        { table := Function.update r.table i call.handler
          answered := (call, 0) :: r.answered } := by
      rw [Registry.step, Call.apply_eq, heq]
    rw [hstep]
    refine ⟨fun j => ?_, fun n hn => ?_⟩
    · by_cases hj : j = i
      · subst hj
        simp only [Function.update_self]
        rw [← hi, registered_cons_of_accepted]
      · have hne : call.irqNum ≠ (j.val : Int) := by
          intro h
          exact hj (Fin.ext (by omega))
        simp only [Function.update_of_ne hj]
        rw [registered_cons_of_ne fun h => hne h.2, hr.entry j]
    · have hne : call.irqNum ≠ n := by
        have := i.isLt
        omega
      rw [registered_cons_of_ne fun h => hne h.2, hr.outside n hn]

theorem agrees_run (history : List (Call H)) : Agrees (run history) := by
  have hboot : Agrees (Registry.boot : Registry H) := ⟨fun _ => rfl, fun _ _ => rfl⟩
  exact List.foldlRecOn history Registry.step hboot fun r hr call _ => hr.step call

section Interrupt

variable (beyond : Nat → Option H) (history : List (Call H)) {n : BitVec 32}

theorem handleIrq_of_lt {table : Table H} (hn : n.toNat < gicMaxInterrupts) :
    handleIrq beyond table n =
      { acknowledged := some n
        reads := [n.toNat]
        invoked := invoke (tableAt beyond table n.toNat) n } := by
  have hspecial : n ≠ 1020 ∧ n ≠ 1021 := by
    refine ⟨?_, ?_⟩ <;> rintro rfl <;> exact absurd hn (by decide)
  rw [handleIrq, if_pos hspecial, if_pos hn]

theorem handleIrq_of_ge (table : Table H) (hn : gicMaxInterrupts ≤ n.toNat) :
    (handleIrq beyond table n).reads = [] ∧ (handleIrq beyond table n).invoked = [] := by
  rw [handleIrq, if_neg (Nat.not_lt.mpr hn)]
  split
  · exact ⟨rfl, rfl⟩
  · exact ⟨rfl, rfl⟩

theorem invoked_of_lt (hn : n.toNat < maxIrqHandlers) :
    (handleIrq beyond (run history).table n).invoked =
      match registered (run history).answered n.toNat with
      | some h => [(h, (n.toNat : Int))]
      | none => [] := by
  have hgic : n.toNat < gicMaxInterrupts := lt_trans hn (by decide)
  have hint : n.toInt = n.toNat := BitVec.toInt_eq_toNat_of_lt (by
    simp only [maxIrqHandlers] at hn
    omega)
  rw [handleIrq_of_lt beyond hgic]
  simp only [tableAt, dif_pos hn]
  rw [(agrees_run history).entry ⟨n.toNat, hn⟩]
  unfold invoke
  rw [hint]

/-- Dispatch is right after every history exactly for the numbers the table has
an entry for and those the controller's limit keeps out; for the numbers in
between the table is read behind its end. -/
theorem refines_iff (n : BitVec 32) :
    Refines beyond history n ↔ n.toNat < maxIrqHandlers ∨ gicMaxInterrupts ≤ n.toNat := by
  constructor
  · intro h
    by_contra hmid
    rw [not_or, Nat.not_lt, Nat.not_le] at hmid
    have hread := h.inBounds n.toNat
    rw [handleIrq_of_lt beyond hmid.2] at hread
    exact absurd (hread (List.mem_singleton.mpr rfl)) (Nat.not_lt.mpr hmid.1)
  · rintro (hlow | hhigh)
    · refine ⟨?_, invoked_of_lt beyond history hlow, fun _ => apply_of_rejected⟩
      intro i hi
      rw [handleIrq_of_lt beyond (lt_trans hlow (by decide))] at hi
      rw [List.mem_singleton.mp hi]
      exact hlow
    · obtain ⟨hreads, hinvoked⟩ :=
        handleIrq_of_ge beyond (run history).table hhigh
      have hnone : registered (run history).answered n.toNat = none :=
        (agrees_run history).outside _ (by
          simp only [maxIrqHandlers, gicMaxInterrupts] at hhigh ⊢
          omega)
      refine ⟨?_, ?_, fun _ => apply_of_rejected⟩
      · rw [hreads]
        simp
      · rw [hinvoked, hnone]

end Interrupt

/-- The first interrupt number behind the table is read from the table. -/
theorem not_refines_first_beyond :
    ¬ Refines (fun _ => (none : Option Nat)) [] (256 : BitVec 32) := by
  intro h
  exact absurd (h.inBounds 256 (by decide)) (by decide)

end ShlteOs.IrqDispatch
