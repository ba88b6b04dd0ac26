import ShlteOs.CallSequence
import ShlteOs.SchedulerInvariant

/-!
Sequences of context switches.  `context_switch` marks the process it leaves as
sleeping and takes every process that is not running for one that has not run
yet, so a process that comes back finds its initial registers.
-/

namespace ShlteOs.ContextPreservation

open ShlteOs.ByteMemory
open ShlteOs.CallSequence
open ShlteOs.ProcessTable
open ShlteOs.SchedulerInvariant (reached createProcess_cases initialized initProcess_boot)

/-- A scheduler with the registers each process had when it was last left. -/
structure Traced where
  sched : Scheduler
  saved : Slot → Option Regs

/-- A switch to a process, and the registers it happens with. -/
structure Switch where
  cpu : Regs
  next : Option Slot

/-- The registers each process was last left with. -/
def recorded (t : Traced) (call : Switch) : Slot → Option Regs :=
  match t.sched.current with
  | none => t.saved
  | some p => Function.update t.saved p (some call.cpu)

theorem recorded_of_current {t : Traced} {p : Slot} (h : t.sched.current = some p)
    (call : Switch) : recorded t call = Function.update t.saved p (some call.cpu) := by
  simp only [recorded, h]

/-- A switch, with the registers of the process it leaves recorded. -/
def step (t : Traced) (call : Switch) : Option Traced :=
  some
    { sched := contextSwitch { t.sched with cpu := call.cpu } t.sched.current call.next
      saved := recorded t call }

def untraced (s : Scheduler) : Traced where
  sched := s
  saved := fun _ => none

/-- A process that was left before is given back the registers it had then. -/
def Preserved (t : Traced) (call : Switch) : Prop :=
  ∀ i regs, call.next = some i → recorded t call i = some regs →
    ∀ t', step t call = some t' → t'.sched.cpu = regs

/-- The registers a process had when it was left are those it was started with. -/
def LeftAtStart (t : Traced) (call : Switch) : Prop :=
  ∀ i regs, call.next = some i → recorded t call i = some regs →
    regs = startRegs (t.sched.table i).entry

/-- The half of `context_switch` that saves. -/
def leave (s : Scheduler) : Option Slot → Scheduler
  | none => s
  | some p => (saveContext s p).setState p .sleeping

/-- The half of `context_switch` that restores; a process that is not running gets a fresh
context first. -/
def enter (s : Scheduler) : Option Slot → Scheduler
  | none => s
  | some i =>
      let ready := if (s.table i).state = .running then s else setupContext s i
      restoreContext (ready.setState i .running) i

theorem contextSwitch_eq {s : Scheduler} {prev next : Option Slot}
    (h : ¬ (prev = none ∧ next = none)) :
    contextSwitch s prev next = { enter (leave s prev) next with current := next } := by
  unfold contextSwitch
  rw [if_neg h]
  cases prev <;> cases next <;> rfl

theorem contextSwitch_none (s : Scheduler) : contextSwitch s none none = s := by
  simp [contextSwitch]

theorem leave_state (s : Scheduler) (prev : Option Slot) (i : Slot) :
    ((leave s prev).table i).state =
      if prev = some i then .sleeping else (s.table i).state := by
  cases prev with
  | none => rfl
  | some p =>
      by_cases hi : i = p
      · simp [leave, saveContext, Scheduler.setState, Scheduler.setProcess, hi]
      · have hp : p ≠ i := Ne.symm hi
        simp [leave, saveContext, Scheduler.setState, Scheduler.setProcess, hi, hp]

theorem leave_entry (s : Scheduler) (prev : Option Slot) (i : Slot) :
    ((leave s prev).table i).entry = (s.table i).entry := by
  cases prev with
  | none => rfl
  | some p =>
      by_cases hi : i = p
      · simp [leave, saveContext, Scheduler.setState, Scheduler.setProcess, hi]
      · simp [leave, saveContext, Scheduler.setState, Scheduler.setProcess, hi]

theorem setupContext_regs (s : Scheduler) (i : Slot) :
    ((setupContext s i).table i).regs = startRegs (s.table i).entry := by
  simp only [setupContext]
  split_ifs <;> simp [Scheduler.setProcess]

theorem setupContext_table_of_ne (s : Scheduler) {i j : Slot} (h : j ≠ i) :
    (setupContext s i).table j = s.table j := by
  simp only [setupContext]
  split_ifs <;> simp [Scheduler.setProcess, h]

theorem contextSwitch_current (s : Scheduler) (next : Option Slot) :
    (contextSwitch s s.current next).current = next := by
  by_cases h : s.current = none ∧ next = none
  · rw [h.1, h.2, contextSwitch_none, h.1]
  · rw [contextSwitch_eq h]

theorem enter_table_of_ne (s : Scheduler) {next : Option Slot} {j : Slot} (h : next ≠ some j) :
    (enter s next).table j = s.table j := by
  cases next with
  | none => rfl
  | some i =>
      have hj : j ≠ i := fun hji => h (hji ▸ rfl)
      simp only [enter, restoreContext, Scheduler.setState, Scheduler.setProcess,
        Function.update_of_ne hj]
      split_ifs
      · rfl
      · exact setupContext_table_of_ne s hj

theorem contextSwitch_table_of_ne {s : Scheduler} {prev next : Option Slot} {j : Slot}
    (h : next ≠ some j) :
    (contextSwitch s prev next).table j = (leave s prev).table j := by
  by_cases hnone : prev = none ∧ next = none
  · rw [hnone.1, hnone.2, contextSwitch_none]
    rfl
  · rw [contextSwitch_eq hnone]
    exact enter_table_of_ne _ h

theorem contextSwitch_cpu_of_not_running {s : Scheduler} {prev : Option Slot} {i : Slot}
    (h : ((leave s prev).table i).state ≠ .running) :
    (contextSwitch s prev (some i)).cpu = startRegs (s.table i).entry := by
  rw [contextSwitch_eq (by simp)]
  simp only [enter, if_neg h, restoreContext, Scheduler.setState, Scheduler.setProcess,
    Function.update_self]
  rw [setupContext_regs, leave_entry]

/-- Whoever was left and is not running now does not count as running. -/
def Asleep (t : Traced) : Prop :=
  ∀ i, t.saved i ≠ none → t.sched.current = some i ∨ (t.sched.table i).state ≠ .running

theorem asleep_after_leave {t : Traced} {call : Switch} (h : Asleep t) {i : Slot}
    (hi : recorded t call i ≠ none) :
    ((leave { t.sched with cpu := call.cpu } t.sched.current).table i).state ≠ .running := by
  rw [leave_state]
  split_ifs with hprev
  · decide
  · have hsaved : t.saved i ≠ none := by
      cases hcur : t.sched.current with
      | none => simpa [recorded, hcur] using hi
      | some p =>
          have hne : i ≠ p := fun hip => hprev (hcur.trans (hip ▸ rfl))
          rwa [recorded_of_current hcur, Function.update_of_ne hne] at hi
    exact (h i hsaved).resolve_left hprev

theorem asleep_step {t t' : Traced} {call : Switch} (h : Asleep t)
    (hstep : step t call = some t') : Asleep t' := by
  cases hstep
  intro i hi
  by_cases hnext : call.next = some i
  · left
    exact (contextSwitch_current { t.sched with cpu := call.cpu } call.next).trans hnext
  · right
    change ((contextSwitch _ _ _).table i).state ≠ .running
    rw [contextSwitch_table_of_ne hnext]
    exact asleep_after_leave h hi

theorem preserved_iff_leftAtStart {t : Traced} (h : Asleep t) (call : Switch) :
    Preserved t call ↔ LeftAtStart t call := by
  have hcpu : ∀ i regs, call.next = some i → recorded t call i = some regs →
      (contextSwitch { t.sched with cpu := call.cpu } t.sched.current call.next).cpu =
        startRegs (t.sched.table i).entry := by
    intro i regs hnext hrec
    have hstate := asleep_after_leave h (show recorded t call i ≠ none by simp [hrec])
    rw [hnext, contextSwitch_cpu_of_not_running hstate]
  constructor
  · intro hpres i regs hnext hrec
    rw [← hpres i regs hnext hrec _ rfl]
    exact hcpu i regs hnext hrec
  · intro hleft i regs hnext hrec t' ht'
    cases ht'
    rw [hleft i regs hnext hrec]
    exact hcpu i regs hnext hrec

/-- Along every sequence of switches, the registers of a process are preserved
exactly when no process is left with registers other than its initial ones and
entered again. -/
theorem preserved_along_iff_leftAtStart (s : Scheduler) (calls : List Switch) :
    Along step Preserved (untraced s) calls ↔ Along step LeftAtStart (untraced s) calls := by
  have hstart : Asleep (untraced s) := fun i hi => absurd rfl hi
  apply Along.iff_of_invariant Asleep _ _ hstart (Along.of_forall (fun _ _ => trivial) _ calls)
  · intro t call ht _
    exact preserved_iff_leftAtStart ht call
  · intro t call t' ht _ _ hstep
    exact asleep_step ht hstep

theorem not_preserved_of_return {s : Scheduler} {p q : Slot} (hcur : s.current = some p)
    (hne : p ≠ q) {cpu : Regs} (hcpu : cpu 1 ≠ 0) (cpu' : Regs) :
    ¬ Along step Preserved (untraced s) [⟨cpu, some q⟩, ⟨cpu', some p⟩] := by
  rintro ⟨-, hrest⟩
  obtain ⟨hback, -⟩ := hrest _ rfl
  have hasleep : Asleep (untraced s) := fun i hi => absurd rfl hi
  have hleft := (preserved_iff_leftAtStart (asleep_step hasleep rfl) _).mp hback
  have hrec := hleft p cpu rfl (by
    rw [recorded_of_current (contextSwitch_current { s with cpu := cpu } (some q)),
      Function.update_of_ne hne]
    change recorded (untraced s) ⟨cpu, some q⟩ p = some cpu
    rw [recorded_of_current hcur, Function.update_self])
  rw [hrec] at hcpu
  exact hcpu (by simp [startRegs])

theorem createProcess_current (s : Scheduler) (entry stack stackSize : Word)
    (name : Option (List Byte)) :
    (createProcess s entry stack stackSize name).2.current = s.current := by
  rcases createProcess_cases s entry stack stackSize name with ⟨-, heq⟩ | ⟨i, mem, -, heq⟩
  · rw [heq]
  · rw [heq]
    rfl

/-- From the init process to a created one with sevens in every register, and
back. -/
theorem back_and_forth_not_preserved :
    ¬ Along step Preserved
      (untraced (reached ⟨0x80000, 0x90000⟩ (fun _ => 0) (fun _ => 0)
        [.create 0xa0000 0 0 none]))
      [⟨fun _ => 7, some 1⟩, ⟨fun _ => 0, some 0⟩] := by
  have hcur : (reached ⟨0x80000, 0x90000⟩ (fun _ => 0) (fun _ => 0)
      [.create 0xa0000 0 0 none]).current = some 0 := by
    rw [reached, initProcess_boot]
    exact createProcess_current _ _ _ _ _
  exact not_preserved_of_return hcur (by decide) (by decide) _

end ShlteOs.ContextPreservation
