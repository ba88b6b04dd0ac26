import Mathlib.Data.Finset.Card
import Mathlib.Data.Fintype.Basic
import ShlteOs.ProcessIdentity

/-!
Round-robin scheduling.  A process that `schedule` leaves is put to sleep by
`context_switch` and never becomes runnable again, so a round comes back to the
process it started from only if there was no other one to run.
-/

namespace ShlteOs.RoundRobin

open ShlteOs.ByteMemory
open ShlteOs.CircularScan
open ShlteOs.ProcessTable
open ShlteOs.SchedulerInvariant
open ShlteOs.ProcessIdentity

def runnableSlots (s : Scheduler) : Finset Slot :=
  Finset.univ.filter fun i => runnable s i = true

theorem mem_runnableSlots {s : Scheduler} {i : Slot} :
    i ∈ runnableSlots s ↔ runnable s i = true := by
  simp [runnableSlots]

def scheduled (s : Scheduler) (cpus : List Regs) : Scheduler :=
  (cpus.map Call.schedule).foldl step s

/-- The current process after each of the calls. -/
def currents : Scheduler → List Regs → List (Option Slot)
  | _, [] => []
  | s, cpu :: cpus =>
      (step s (.schedule cpu)).current :: currents (step s (.schedule cpu)) cpus

/-- As many calls of `schedule` as there are runnable processes make each of them
current once, in circular order behind the slot found last, and leave the same
processes runnable. -/
def FairRound (s : Scheduler) : Prop :=
  ∀ cpus : List Regs, cpus.length = (runnableSlots s).card →
    currents s cpus = (inOrder (runnable s) s.lastIdx).map some ∧
      runnableSlots (scheduled s cpus) = runnableSlots s

theorem runnable_switchedTo {s : Scheduler} {idx i : Slot} :
    runnable (switchedTo s idx) i = true ↔ i ≠ s.lastIdx ∧ runnable s i = true := by
  by_cases hi : i = s.lastIdx
  · simp [runnable, switchedTo, hi]
  · simp [runnable, switchedTo_table_of_ne hi, hi]

theorem runnableSlots_schedule_subset {s : Scheduler} (h : Dispatched s) (cpu : Regs) :
    runnableSlots (step s (.schedule cpu)) ⊆ runnableSlots s := by
  intro i hi
  rw [mem_runnableSlots] at hi ⊢
  simp only [step] at hi
  rcases schedule_cases (h.with_cpu cpu) with ⟨-, heq⟩ | ⟨idx, -, -, heq⟩
  · rw [heq] at hi
    exact hi
  · rw [heq] at hi
    exact (runnable_switchedTo.mp hi).2

theorem runnableSlots_scheduled_subset {s : Scheduler} (h : Dispatched s) (cpus : List Regs) :
    runnableSlots (scheduled s cpus) ⊆ runnableSlots s := by
  induction cpus generalizing s with
  | nil => exact Finset.Subset.refl _
  | cons cpu cpus ih =>
      exact (ih (dispatched_step h (.schedule cpu))).trans (runnableSlots_schedule_subset h cpu)

theorem lastIdx_not_runnable_of_other {s : Scheduler} (h : Dispatched s) {k : Slot}
    (hk : runnable s k = true) (hne : k ≠ s.lastIdx) (cpu : Regs) :
    s.lastIdx ∉ runnableSlots (step s (.schedule cpu)) := by
  rw [mem_runnableSlots]
  simp only [step]
  rcases schedule_cases (h.with_cpu cpu) with ⟨hscan, -⟩ | ⟨idx, -, -, heq⟩
  · exact absurd ((scan_eq_self_iff (h.with_cpu cpu).runnable).mp hscan k hk) hne
  · rw [heq]
    intro hrun
    exact (runnable_switchedTo.mp hrun).1 rfl

theorem not_fairRound_of_other {s : Scheduler} (h : Dispatched s) {k : Slot}
    (hk : runnable s k = true) (hne : k ≠ s.lastIdx) : ¬ FairRound s := by
  intro hfair
  have hmem : s.lastIdx ∈ runnableSlots s := mem_runnableSlots.mpr h.runnable
  obtain ⟨rest, hrest⟩ := Nat.exists_eq_succ_of_ne_zero (Finset.card_ne_zero_of_mem hmem)
  obtain ⟨-, hsame⟩ := hfair (List.replicate (rest + 1) s.cpu) (by simp [hrest])
  rw [← hsame] at hmem
  -- Once asleep, the process stays out of the runnable slots for the rest of the round.
  exact lastIdx_not_runnable_of_other h hk hne s.cpu
    (runnableSlots_scheduled_subset (dispatched_step h (.schedule s.cpu))
      (List.replicate rest s.cpu) hmem)

theorem fairRound_of_alone {s : Scheduler} (h : Dispatched s)
    (halone : ∀ k, runnable s k = true → k = s.lastIdx) : FairRound s := by
  have hiff : ∀ k, runnable s k = true ↔ k = s.lastIdx :=
    fun k => ⟨halone k, fun hk => hk ▸ h.runnable⟩
  have hslots : runnableSlots s = {s.lastIdx} := by
    ext k
    simp [mem_runnableSlots, hiff]
  intro cpus hlen
  rw [hslots, Finset.card_singleton] at hlen
  obtain ⟨cpu, rfl⟩ := List.length_eq_one_iff.mp hlen
  have hstay : step s (.schedule cpu) = { s with cpu := cpu } := by
    rcases schedule_cases (h.with_cpu cpu) with ⟨-, heq⟩ | ⟨idx, hscan, hne, -⟩
    · exact congrArg Prod.snd heq
    · exact absurd (halone idx (scan_nearest hscan).1) hne
  constructor
  · simp only [currents, hstay, inOrder_eq_singleton hiff, List.map_cons, List.map_nil, h.current]
  · change runnableSlots (step s (.schedule cpu)) = _
    rw [hstay]
    rfl

theorem fairRound_iff {s : Scheduler} (h : Dispatched s) :
    FairRound s ↔ (runnableSlots s).card = 1 := by
  have hmem : s.lastIdx ∈ runnableSlots s := mem_runnableSlots.mpr h.runnable
  constructor
  · intro hfair
    rw [Finset.card_eq_one]
    refine ⟨s.lastIdx, Finset.eq_singleton_iff_unique_mem.mpr ⟨hmem, ?_⟩⟩
    intro k hk
    by_contra hne
    exact not_fairRound_of_other h (mem_runnableSlots.mp hk) hne hfair
  · intro hcard
    apply fairRound_of_alone h
    intro k hk
    obtain ⟨j, hj⟩ := Finset.card_eq_one.mp hcard
    have hk' := mem_runnableSlots.mpr hk
    rw [hj, Finset.mem_singleton] at hmem hk'
    rw [hk', hmem]

/-- In every state reached after `init_process`, a round is fair exactly when a
single process can run. -/
theorem fairRound_reached_iff (image : Image) (mem : Memory) (cpu : Regs) (calls : List Call) :
    FairRound (reached image mem cpu calls) ↔
      (runnableSlots (reached image mem cpu calls)).card = 1 :=
  fairRound_iff (dispatched_reached image mem cpu calls)

theorem not_fairRound_create {s : Scheduler} {n : Nat} (h : Dispatched s) (hfilled : Filled s n)
    (hlt : n < maxProcesses) (entry stack stackSize : Word) (name : Option (List Byte)) :
    ¬ FairRound (step s (.create entry stack stackSize name)) := by
  have hpos := hfilled.pos
  have hd := dispatched_step h (.create entry stack stackSize name)
  simp only [step] at hd ⊢
  rcases createProcess_cases s entry stack stackSize name with ⟨hfree, -⟩ | ⟨i, mem, hfree, heq⟩
  · rw [hfilled.freeSlot hlt] at hfree
    cases hfree
  · rw [heq] at hd ⊢
    have hrun : runnable { s.setProcess i (newProcess s i entry stack stackSize name) with
        nextPid := s.nextPid + 1, mem := mem } i = true := by
      have hnext : s.nextPid ≠ 0 := by
        rw [hfilled.nextPid]
        omega
      simp [runnable, Scheduler.setProcess, newProcess_pid, newProcess_state, hnext]
    apply not_fairRound_of_other hd hrun
    intro hi
    exact h.pid (hi ▸ freeSlot_pid hfree)

theorem two_processes_not_fairRound :
    ¬ FairRound (reached ⟨0x80000, 0x90000⟩ (fun _ => 0) (fun _ => 0)
      [.create 0xa0000 0 0 none]) := by
  rw [reached, initProcess_boot]
  exact not_fairRound_create (dispatched_initialized _ _ _) (filled_initialized _ _ _)
    (by decide) 0xa0000 0 0 none

end ShlteOs.RoundRobin
