import ShlteOs.SchedulerInvariant

/-!
Process identifiers.  `init_process` gives pid 1 to slot 0 without touching
`next_pid`, which also starts at 1, so the first process that is created gets
the pid of the init process.
-/

namespace ShlteOs.ProcessIdentity

open ShlteOs.ByteMemory
open ShlteOs.ProcessTable
open ShlteOs.SchedulerInvariant

/-- A slot is free as long as its pid is zero. -/
def Occupied (s : Scheduler) (i : Slot) : Prop := (s.table i).pid ≠ 0

/-- Pids are distinct, and every process but the init process has a parent with
a smaller pid in another slot. -/
structure Identified (s : Scheduler) : Prop where
  distinct : ∀ i j, Occupied s i → Occupied s j →
    (s.table i).pid = (s.table j).pid → i = j
  parent : ∀ i, Occupied s i → i ≠ 0 → ∃ j, j ≠ i ∧ Occupied s j ∧
    (s.table i).ppid = (s.table j).pid ∧ (s.table i).ppid < (s.table i).pid

/-- The first `n` slots are in use, slot 0 by the init process and every other
one by the process whose pid is the slot's number. -/
structure Filled (s : Scheduler) (n : Nat) : Prop where
  pos : 1 ≤ n
  le : n ≤ maxProcesses
  nextPid : s.nextPid = n
  pid : ∀ i : Slot, (s.table i).pid =
    if i = 0 then 1 else if (i : Nat) < n then (i : Int) else 0

theorem Filled.occupied_iff {s : Scheduler} {n : Nat} (h : Filled s n) (i : Slot) :
    Occupied s i ↔ (i : Nat) < n := by
  have hpos := h.pos
  by_cases hi : i = 0
  · simp only [Occupied, h.pid, if_pos hi]
    simp only [hi, Fin.val_zero]
    omega
  · have hval : (i : Nat) ≠ 0 := fun h0 => hi (Fin.ext h0)
    simp only [Occupied, h.pid, if_neg hi]
    split_ifs <;> omega

theorem Filled.freeSlot {s : Scheduler} {n : Nat} (h : Filled s n) (hlt : n < maxProcesses) :
    freeSlot s = some ⟨n, hlt⟩ := by
  have hfree : (s.table ⟨n, hlt⟩).pid = 0 := by
    by_contra hpid
    exact absurd ((h.occupied_iff ⟨n, hlt⟩).mp hpid) (Nat.lt_irrefl n)
  apply List.find?_eq_some_iff_getElem.mpr
  refine ⟨by simpa using hfree, n, by simpa using hlt, by simp, ?_⟩
  intro j hj
  simpa [Occupied] using (h.occupied_iff ⟨j, Nat.lt_trans hj hlt⟩).mpr hj

theorem Filled.freeSlot_none {s : Scheduler} (h : Filled s maxProcesses) :
    ProcessTable.freeSlot s = none := by
  apply List.find?_eq_none.mpr
  intro i _
  simpa [Occupied] using (h.occupied_iff i).mpr i.isLt

theorem newProcess_pid (s : Scheduler) (i : Slot) (entry stack stackSize : Word)
    (name : Option (List Byte)) :
    (newProcess s i entry stack stackSize name).pid = s.nextPid := by
  simp only [newProcess]
  split_ifs <;> rfl

theorem newProcess_state (s : Scheduler) (i : Slot) (entry stack stackSize : Word)
    (name : Option (List Byte)) :
    (newProcess s i entry stack stackSize name).state = .running := by
  simp only [newProcess]
  split_ifs <;> rfl

theorem Filled.createProcess {s : Scheduler} {n : Nat} (h : Filled s n)
    (entry stack stackSize : Word) (name : Option (List Byte)) :
    Filled (createProcess s entry stack stackSize name).2 (min maxProcesses (n + 1)) := by
  have hpos := h.pos
  rcases createProcess_cases s entry stack stackSize name with ⟨hfree, heq⟩ | ⟨i, mem, hfree, heq⟩
  · have hfull : n = maxProcesses := by
      by_contra hne
      rw [h.freeSlot (Nat.lt_of_le_of_ne h.le hne)] at hfree
      cases hfree
    rw [heq, Nat.min_eq_left (by omega), ← hfull]
    exact h
  · have hlt : n < maxProcesses := by
      refine Nat.lt_of_le_of_ne h.le ?_
      rintro rfl
      rw [h.freeSlot_none] at hfree
      cases hfree
    rw [h.freeSlot hlt] at hfree
    obtain rfl := Option.some_inj.mp hfree
    rw [heq, Nat.min_eq_right hlt]
    refine ⟨by omega, hlt, ?_, ?_⟩
    · simp [h.nextPid]
    · intro j
      by_cases hj : j = ⟨n, hlt⟩
      · have hzero : j ≠ 0 := by
          rintro rfl
          have hval := congrArg Fin.val hj
          simp only [Fin.val_zero] at hval
          omega
        simp only [if_neg hzero]
        simp [Scheduler.setProcess, hj, newProcess_pid, h.nextPid]
      · have hval : (j : Nat) ≠ n := fun hval => hj (Fin.ext hval)
        have hiff : (j : Nat) < n + 1 ↔ (j : Nat) < n := by omega
        simp only [Scheduler.setProcess, Function.update_of_ne hj, h.pid, hiff]

theorem schedule_pid {s : Scheduler} (h : Dispatched s) :
    (schedule s).2.nextPid = s.nextPid ∧ ∀ i, ((schedule s).2.table i).pid = (s.table i).pid := by
  rcases schedule_cases h with ⟨-, heq⟩ | ⟨idx, -, -, heq⟩
  · rw [heq]
    exact ⟨rfl, fun _ => rfl⟩
  · rw [heq]
    refine ⟨rfl, ?_⟩
    intro i
    by_cases hi : i = s.lastIdx
    · simp [switchedTo, hi]
    · rw [switchedTo_table_of_ne hi]

def Call.isCreate : Call → Bool
  | .create .. => true
  | .schedule _ => false

/-- The number of calls of `create_process`. -/
def creations (calls : List Call) : Nat := calls.countP Call.isCreate

theorem Filled.step {s : Scheduler} {n : Nat} (h : Filled s n) (hd : Dispatched s) (call : Call) :
    Filled (step s call) (min maxProcesses (n + creations [call])) := by
  cases call with
  | create entry stack stackSize name => exact h.createProcess entry stack stackSize name
  | schedule cpu =>
      obtain ⟨hnext, hpid⟩ := schedule_pid (hd.with_cpu cpu)
      change Filled _ (min maxProcesses n)
      rw [Nat.min_eq_right h.le]
      exact ⟨h.pos, h.le, hnext.trans h.nextPid, fun i => (hpid i).trans (h.pid i)⟩

theorem Filled.run {s : Scheduler} {n : Nat} (h : Filled s n) (hd : Dispatched s)
    (calls : List Call) :
    Filled (calls.foldl SchedulerInvariant.step s) (min maxProcesses (n + creations calls)) := by
  induction calls generalizing s n with
  | nil =>
      change Filled s (min maxProcesses n)
      rw [Nat.min_eq_right h.le]
      exact h
  | cons call calls ih =>
      have hrest := ih (h.step hd call) (dispatched_step hd call)
      have hcount : min maxProcesses (min maxProcesses (n + creations [call]) + creations calls) =
          min maxProcesses (n + creations (call :: calls)) := by
        have hsplit : creations (call :: calls) = creations [call] + creations calls :=
          @List.countP_append _ Call.isCreate [call] calls
        rw [hsplit]
        omega
      rw [hcount] at hrest
      exact hrest

theorem filled_initialized (image : Image) (mem : Memory) (cpu : Regs) :
    Filled (initialized image mem cpu) 1 := by
  refine ⟨Nat.le_refl 1, by decide, ?_, ?_⟩
  · simp [initialized, setupContext, Scheduler.setProcess, initRecord, boot]
  · intro i
    rw [(initialized_table image mem cpu i).1]
    by_cases hi : i = 0
    · simp only [if_pos hi]
    · have hval : (i : Nat) ≠ 0 := fun h0 => hi (Fin.ext h0)
      simp only [if_neg hi]
      rw [if_neg (by omega)]

theorem filled_reached (image : Image) (mem : Memory) (cpu : Regs) (calls : List Call) :
    Filled (reached image mem cpu calls) (min maxProcesses (1 + creations calls)) := by
  rw [reached, initProcess_boot]
  exact (filled_initialized image mem cpu).run (dispatched_initialized image mem cpu) calls

theorem Filled.identified_iff {s : Scheduler} {n : Nat} (h : Filled s n) :
    Identified s ↔ n = 1 := by
  constructor
  · intro hident
    by_contra hne
    have hpos := h.pos
    -- Slot 1 carries the pid of the init process.
    have hone : (1 : Slot) = 0 := by
      apply hident.distinct
      · exact (h.occupied_iff 1).mpr (by change 1 < n; omega)
      · exact (h.occupied_iff 0).mpr hpos
      · rw [h.pid, h.pid, if_neg (by decide), if_pos rfl, if_pos (by change 1 < n; omega)]
        rfl
    exact absurd hone (by decide)
  · rintro rfl
    have honly : ∀ i, Occupied s i → i = 0 := by
      intro i hi
      have hlt := (h.occupied_iff i).mp hi
      exact Fin.ext (by simpa using hlt)
    constructor
    · intro i j hi hj _
      rw [honly i hi, honly j hj]
    · intro i hi hne
      exact absurd (honly i hi) hne

/-- Process identity holds after a run exactly when no process was created. -/
theorem identified_reached_iff (image : Image) (mem : Memory) (cpu : Regs) (calls : List Call) :
    Identified (reached image mem cpu calls) ↔ ∀ call ∈ calls, ∃ regs, call = .schedule regs := by
  rw [(filled_reached image mem cpu calls).identified_iff]
  have hzero : min maxProcesses (1 + creations calls) = 1 ↔ creations calls = 0 := by
    have hmax : maxProcesses = 64 := rfl
    omega
  rw [hzero, creations, List.countP_eq_zero]
  apply forall₂_congr
  intro call _
  cases call <;> simp [Call.isCreate]

theorem first_created_not_identified :
    ¬ Identified (reached ⟨0x80000, 0x90000⟩ (fun _ => 0) (fun _ => 0)
      [.create 0xa0000 0 0 none]) := by
  rw [(filled_reached _ _ _ _).identified_iff]
  decide

end ShlteOs.ProcessIdentity
