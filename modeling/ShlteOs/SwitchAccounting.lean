import ShlteOs.RoundRobin

/-!
How often the scheduler switches.  A switch puts the process it leaves to sleep for
good, so that over a whole run every process is entered at most once and there are
not more switches than processes were created.
-/

namespace ShlteOs.SwitchAccounting

open ShlteOs.ByteMemory
open ShlteOs.CircularScan
open ShlteOs.ProcessTable
open ShlteOs.SchedulerInvariant
open ShlteOs.ProcessIdentity
open ShlteOs.RoundRobin

/-- The call is a `schedule` that moves to another process. -/
def switches (s : Scheduler) : Call → Bool
  | .create .. => false
  | .schedule cpu => (schedule { s with cpu := cpu }).1 = .switched

/-- The number of switches in a run. -/
def switchCount : Scheduler → List Call → Nat
  | _, [] => 0
  | s, call :: calls => (switches s call).toNat + switchCount (step s call) calls

/-- The process is in the table and will not be chosen. -/
def Asleep (s : Scheduler) (i : Slot) : Prop :=
  (s.table i).pid ≠ 0 ∧ (s.table i).state ≠ .running

section Steps

variable {s : Scheduler} {n : Nat}

theorem runnableSlots_switchedTo (s : Scheduler) (idx : Slot) :
    runnableSlots (switchedTo s idx) = (runnableSlots s).erase s.lastIdx := by
  ext i
  rw [Finset.mem_erase, mem_runnableSlots, mem_runnableSlots, runnable_switchedTo]

theorem runnableSlots_created {i : Slot} (mem : Memory) (hnext : s.nextPid ≠ 0)
    (entry stack stackSize : Word) (name : Option (List Byte)) :
    runnableSlots { s.setProcess i (newProcess s i entry stack stackSize name) with
      nextPid := s.nextPid + 1, mem := mem } = insert i (runnableSlots s) := by
  ext j
  rw [Finset.mem_insert, mem_runnableSlots, mem_runnableSlots]
  by_cases hj : j = i
  · simp [runnable, Scheduler.setProcess, hj, newProcess_pid, newProcess_state, hnext]
  · simp [runnable, Scheduler.setProcess, hj]

/-- A switch takes one process out of the runnable ones, a creation adds one. -/
theorem card_step (hd : Dispatched s) (hf : Filled s n) (call : Call) :
    (switches s call).toNat + (runnableSlots (step s call)).card + n =
      (runnableSlots s).card + min maxProcesses (n + creations [call]) := by
  cases call with
  | create entry stack stackSize name =>
      have hcreated : creations [.create entry stack stackSize name] = 1 := rfl
      have hle := hf.le
      rw [hcreated, switches, step, Bool.toNat_false, Nat.zero_add]
      rcases createProcess_cases s entry stack stackSize name with
        ⟨hfree, heq⟩ | ⟨i, mem, hfree, heq⟩
      · have hfull : n = maxProcesses := by
          by_contra hne
          rw [hf.freeSlot (Nat.lt_of_le_of_ne hle hne)] at hfree
          cases hfree
        rw [heq, Nat.min_eq_left (by omega), hfull]
      · have hnot : i ∉ runnableSlots s := by
          rw [mem_runnableSlots, runnable_iff]
          exact fun h => h.1 (freeSlot_pid hfree)
        have hnext : s.nextPid ≠ 0 := by
          have hpos := hf.pos
          rw [hf.nextPid]
          omega
        have hlt : n < maxProcesses := by
          refine Nat.lt_of_le_of_ne hle ?_
          rintro rfl
          rw [hf.freeSlot_none] at hfree
          cases hfree
        rw [heq, runnableSlots_created mem hnext, Finset.card_insert_of_notMem hnot,
          Nat.min_eq_right hlt]
        omega
  | schedule cpu =>
      have hcreated : creations [.schedule cpu] = 0 := rfl
      rw [hcreated, Nat.add_zero, Nat.min_eq_right hf.le, switches, step]
      rcases schedule_cases (hd.with_cpu cpu) with ⟨-, heq⟩ | ⟨idx, -, -, heq⟩
      · rw [heq]
        exact congrArg (· + n) (Nat.zero_add _)
      · have hmem : s.lastIdx ∈ runnableSlots s := mem_runnableSlots.mpr hd.runnable
        have hpos : 0 < (runnableSlots s).card := Finset.card_pos.mpr ⟨_, hmem⟩
        have herase : (runnableSlots (switchedTo { s with cpu := cpu } idx)).card =
            (runnableSlots s).card - 1 := by
          rw [runnableSlots_switchedTo]
          exact Finset.card_erase_of_mem hmem
        rw [heq, herase, decide_eq_true rfl, Bool.toNat_true]
        omega

theorem card_run (hd : Dispatched s) (hf : Filled s n) (calls : List Call) :
    switchCount s calls + (runnableSlots (calls.foldl step s)).card + n =
      (runnableSlots s).card + min maxProcesses (n + creations calls) := by
  induction calls generalizing s n with
  | nil =>
      have hnone : creations [] = 0 := rfl
      rw [switchCount, hnone, Nat.add_zero, Nat.min_eq_right hf.le, Nat.zero_add]
      rfl
  | cons call calls ih =>
      have hstep := card_step hd hf call
      have hrest := ih (dispatched_step hd call) (hf.step hd call)
      have hsplit : creations (call :: calls) = creations [call] + creations calls :=
        @List.countP_append _ Call.isCreate [call] calls
      rw [switchCount, List.foldl_cons, hsplit]
      omega

theorem Asleep.step {i : Slot} (h : Asleep s i) (hd : Dispatched s) (call : Call) :
    Asleep (step s call) i := by
  cases call with
  | create entry stack stackSize name =>
      rw [SchedulerInvariant.step]
      rcases createProcess_cases s entry stack stackSize name with
        ⟨-, heq⟩ | ⟨j, mem, hfree, heq⟩
      · rw [heq]
        exact h
      · have hne : i ≠ j := fun hij => h.1 (hij ▸ freeSlot_pid hfree)
        rw [heq, Asleep]
        simp only [Scheduler.setProcess, Function.update_of_ne hne]
        exact h
  | schedule cpu =>
      rw [SchedulerInvariant.step]
      rcases schedule_cases (hd.with_cpu cpu) with ⟨-, heq⟩ | ⟨idx, -, -, heq⟩
      · rw [heq]
        exact h
      · have hne : i ≠ s.lastIdx := fun hi => h.2 (hi ▸ hd.state)
        have hkept : (switchedTo { s with cpu := cpu } idx).table i = s.table i :=
          switchedTo_table_of_ne hne
        rw [heq, Asleep]
        simp only [hkept]
        exact h

theorem current_or_asleep_step {i : Slot} (h : s.current = some i ∨ Asleep s i)
    (hd : Dispatched s) (call : Call) :
    (step s call).current = some i ∨ Asleep (step s call) i := by
  rcases h with hcur | hasleep
  · have hlast : i = s.lastIdx := Option.some_inj.mp (hcur.symm.trans hd.current)
    cases call with
    | create entry stack stackSize name =>
        rw [SchedulerInvariant.step]
        rcases createProcess_cases s entry stack stackSize name with ⟨-, heq⟩ | ⟨j, mem, -, heq⟩
        · rw [heq]
          exact .inl hcur
        · rw [heq]
          exact .inl hcur
    | schedule cpu =>
        rw [SchedulerInvariant.step]
        rcases schedule_cases (hd.with_cpu cpu) with ⟨-, heq⟩ | ⟨idx, -, -, heq⟩
        · rw [heq]
          exact .inl hcur
        · rw [heq, hlast]
          refine .inr ⟨?_, ?_⟩
          · simpa [switchedTo] using hd.pid
          · simp [switchedTo]
  · exact .inr (hasleep.step hd call)

end Steps

section Runs

variable (image : Image) (mem : Memory) (cpu : Regs)

theorem reached_append (calls calls' : List Call) :
    reached image mem cpu (calls ++ calls') =
      calls'.foldl step (reached image mem cpu calls) :=
  List.foldl_append

theorem runnableSlots_initialized :
    runnableSlots (initialized image mem cpu) = {0} := by
  ext i
  obtain ⟨hpid, hstate⟩ := initialized_table image mem cpu i
  rw [mem_runnableSlots, runnable_iff, hpid, hstate, Finset.mem_singleton]
  by_cases hi : i = 0
  · simp [hi]
  · simp [hi]

theorem current_or_asleep_run {s : Scheduler} (hd : Dispatched s) {i : Slot}
    (h : s.current = some i ∨ Asleep s i) (calls : List Call) :
    (calls.foldl step s).current = some i ∨ Asleep (calls.foldl step s) i := by
  induction calls generalizing s with
  | nil => exact h
  | cons call calls ih =>
      exact ih (dispatched_step hd call) (current_or_asleep_step h hd call)

/-- Over every run, the switches made and the processes that can still run add up to
the processes there are. -/
theorem switches_conserved (calls : List Call) :
    switchCount (initProcess (boot image mem cpu)) calls +
        (runnableSlots (reached image mem cpu calls)).card =
      min maxProcesses (1 + creations calls) ∧
      0 < (runnableSlots (reached image mem cpu calls)).card ∧
      switchCount (initProcess (boot image mem cpu)) calls < maxProcesses := by
  have hcount := card_run (dispatched_initialized image mem cpu) (filled_initialized image mem cpu)
    calls
  have hpos : 0 < (runnableSlots (reached image mem cpu calls)).card :=
    Finset.card_pos.mpr ⟨_, mem_runnableSlots.mpr (dispatched_reached image mem cpu calls).runnable⟩
  rw [reached, initProcess_boot] at hpos ⊢
  rw [runnableSlots_initialized, Finset.card_singleton] at hcount
  refine ⟨by omega, hpos, by omega⟩

/-- A process that was left is never entered again. -/
theorem left_for_good (calls calls' : List Call) (i : Slot)
    (hentered : (reached image mem cpu calls).current = some i)
    (hleft : (reached image mem cpu (calls ++ calls')).current ≠ some i) (more : List Call) :
    (reached image mem cpu (calls ++ calls' ++ more)).current ≠ some i ∧
      runnable (reached image mem cpu (calls ++ calls' ++ more)) i = false := by
  have hasleep : Asleep (reached image mem cpu (calls ++ calls')) i := by
    rw [reached_append] at hleft ⊢
    exact (current_or_asleep_run (dispatched_reached image mem cpu calls) (.inl hentered)
      calls').resolve_left hleft
  have hafter : Asleep (reached image mem cpu (calls ++ calls' ++ more)) i := by
    rw [reached_append]
    refine List.foldlRecOn more step (motive := fun s => Dispatched s ∧ Asleep s i)
      ⟨dispatched_reached image mem cpu _, hasleep⟩ ?_ |>.2
    intro s hs call _
    exact ⟨dispatched_step hs.1 call, hs.2.step hs.1 call⟩
  have hd := dispatched_reached image mem cpu (calls ++ calls' ++ more)
  refine ⟨?_, ?_⟩
  · intro hcur
    have hlast : i = _ := Option.some_inj.mp (hcur.symm.trans hd.current)
    exact hafter.2 (hlast ▸ hd.state)
  · rw [← Bool.not_eq_true, runnable_iff]
    exact fun h => hafter.2 h.2

theorem left_for_good_init :
    (reached ⟨0x80000, 0x90000⟩ (fun _ => 0) (fun _ => 0)
        ([] ++ [.create 0xa0000 0 0 none, .schedule fun _ => 0] ++
          [.schedule fun _ => 0])).current ≠ some 0 ∧
    runnable (reached ⟨0x80000, 0x90000⟩ (fun _ => 0) (fun _ => 0)
        ([] ++ [.create 0xa0000 0 0 none, .schedule fun _ => 0] ++ [.schedule fun _ => 0])) 0 =
      false := by
  refine left_for_good ⟨0x80000, 0x90000⟩ (fun _ => 0) (fun _ => 0) []
    [.create 0xa0000 0 0 none, .schedule fun _ => 0] 0 ?_ ?_ [.schedule fun _ => 0]
  · rw [reached, initProcess_boot]
    rfl
  · rw [reached, initProcess_boot]
    decide +kernel

end Runs

end ShlteOs.SwitchAccounting
