import ShlteOs.ProcessIdentity

/-!
Occupancy of the process table.  A run keeps a list of the creations that
succeeded; the table is filled from slot 0 up in the order of this list, and
nothing that happens later changes what a creation wrote.
-/

namespace ShlteOs.ProcessOccupancy

open ShlteOs.ByteMemory
open ShlteOs.ProcessTable
open ShlteOs.SchedulerInvariant
open ShlteOs.ProcessIdentity

/-- The arguments of a call of `create_process`. -/
structure Creation where
  entry : Word
  stack : Word
  stackSize : Word
  name : Option (List Byte)

def Creation.apply (c : Creation) (s : Scheduler) : Option Slot × Scheduler :=
  createProcess s c.entry c.stack c.stackSize c.name

/-- The scheduler, and the creations that succeeded. -/
structure Traced where
  sched : Scheduler
  created : List Creation

def tracedStep (t : Traced) : Call → Traced
  | .create entry stack stackSize name =>
      let c : Creation := ⟨entry, stack, stackSize, name⟩
      { sched := (c.apply t.sched).2
        created := if (c.apply t.sched).1.isSome then t.created ++ [c] else t.created }
  | .schedule cpu => { sched := step t.sched (.schedule cpu), created := t.created }

def traced (image : Image) (mem : Memory) (cpu : Regs) (calls : List Call) : Traced :=
  calls.foldl tracedStep { sched := initProcess (boot image mem cpu), created := [] }

/-- The part of a slot that a creation fills in for good. -/
structure Record where
  entry : Word
  userSpace : Word
  userSpaceSize : Word
  name : List Byte

/-- What a control block tells about its creation. -/
def recordOf (p : Process) : Record where
  entry := p.entry
  userSpace := p.userSpace
  userSpaceSize := p.userSpaceSize
  name := p.name

/-- What the creation of the process with this pid leaves in a fresh slot. -/
def Creation.record (c : Creation) (pid : Nat) : Record where
  entry := c.entry
  userSpace := c.stack
  userSpaceSize := c.stackSize
  name := copyName (List.replicate 16 0) (c.name.getD (defaultName pid))

/-- The table after the creations in `created`. -/
structure Occupancy (s : Scheduler) (created : List Creation) : Prop where
  occupied : ∀ i : Slot, Occupied s i ↔ i.val ≤ created.length
  nextPid : s.nextPid = created.length + 1
  bounded : created.length + 1 ≤ maxProcesses
  holds : ∀ (i : Slot) (c : Creation), 1 ≤ i.val → created[i.val - 1]? = some c →
    recordOf (s.table i) = c.record i.val
  full : ∀ c : Creation, (c.apply s).1 = none ↔ created.length = maxProcesses - 1
  rejected : ∀ c : Creation, (c.apply s).1 = none → (c.apply s).2 = s

/-- What a run keeps: the slots in use, the records in them, and empty names
behind them. -/
structure Recorded (s : Scheduler) (created : List Creation) : Prop where
  filled : Filled s (created.length + 1)
  holds : ∀ (i : Slot) (c : Creation), 1 ≤ i.val → created[i.val - 1]? = some c →
    recordOf (s.table i) = c.record i.val
  fresh : ∀ i : Slot, created.length < i.val → (s.table i).name = List.replicate 16 0

theorem recordOf_newProcess (s : Scheduler) (i : Slot) (c : Creation) :
    recordOf (newProcess s i c.entry c.stack c.stackSize c.name) =
      { entry := c.entry
        userSpace := c.stack
        userSpaceSize := c.stackSize
        name := copyName (s.table i).name (c.name.getD (defaultName s.nextPid)) } := by
  simp only [newProcess]
  split_ifs <;> rfl

theorem recordOf_schedule {s : Scheduler} (h : Dispatched s) (i : Slot) :
    recordOf ((schedule s).2.table i) = recordOf (s.table i) := by
  rcases schedule_cases h with ⟨-, heq⟩ | ⟨idx, -, -, heq⟩
  · rw [heq]
  · rw [heq]
    by_cases hi : i = s.lastIdx
    · simp [switchedTo, hi, recordOf]
    · rw [switchedTo_table_of_ne hi]

theorem Recorded.schedule {s : Scheduler} {created : List Creation} (h : Recorded s created)
    (hd : Dispatched s) : Recorded (schedule s).2 created := by
  obtain ⟨hnext, hpid⟩ := schedule_pid hd
  have hrecord := recordOf_schedule hd
  refine ⟨?_, ?_, ?_⟩
  · exact ⟨h.filled.pos, h.filled.le, hnext.trans h.filled.nextPid,
      fun i => (hpid i).trans (h.filled.pid i)⟩
  · intro i c hi hc
    rw [hrecord i, h.holds i c hi hc]
  · intro i hi
    have hname := congrArg Record.name (hrecord i)
    exact hname.trans (h.fresh i hi)

theorem Recorded.apply_full {s : Scheduler} {created : List Creation} (h : Recorded s created)
    (hfull : created.length + 1 = maxProcesses) (c : Creation) : c.apply s = (none, s) := by
  have hfree : freeSlot s = none := by
    apply Filled.freeSlot_none
    rw [← hfull]
    exact h.filled
  simp only [Creation.apply, createProcess, hfree]

theorem Recorded.apply_free {s : Scheduler} {created : List Creation} (h : Recorded s created)
    (hlt : created.length + 1 < maxProcesses) (c : Creation) :
    ∃ mem, c.apply s = (some ⟨created.length + 1, hlt⟩,
      { s.setProcess ⟨created.length + 1, hlt⟩
          (newProcess s ⟨created.length + 1, hlt⟩ c.entry c.stack c.stackSize c.name) with
        nextPid := s.nextPid + 1
        mem := mem }) := by
  have hfree := h.filled.freeSlot hlt
  rcases createProcess_cases s c.entry c.stack c.stackSize c.name with
    ⟨hnone, -⟩ | ⟨i, mem, hsome, heq⟩
  · rw [hfree] at hnone
    cases hnone
  · rw [hfree] at hsome
    obtain rfl := Option.some_inj.mp hsome
    exact ⟨mem, heq⟩

theorem Recorded.create {s : Scheduler} {created : List Creation} (h : Recorded s created)
    (hlt : created.length + 1 < maxProcesses) (c : Creation) :
    Recorded (c.apply s).2 (created ++ [c]) := by
  have hfilled := h.filled.createProcess c.entry c.stack c.stackSize c.name
  rw [Nat.min_eq_right hlt] at hfilled
  obtain ⟨mem, heq⟩ := h.apply_free hlt c
  refine ⟨?_, ?_, ?_⟩
  · rw [List.length_append]
    exact hfilled
  · intro i d hi hd
    rw [heq]
    by_cases hnew : i = ⟨created.length + 1, hlt⟩
    · subst hnew
      have hdc : d = c := by
        simpa using hd.symm
      have hname := h.fresh ⟨created.length + 1, hlt⟩ (Nat.lt_succ_self _)
      simp only [Scheduler.setProcess, Function.update_self]
      rw [recordOf_newProcess, hname, h.filled.nextPid, hdc]
      rfl
    · have hval : i.val ≠ created.length + 1 := fun hval => hnew (Fin.ext hval)
      simp only [Scheduler.setProcess, Function.update_of_ne hnew]
      have hlen : i.val - 1 < created.length := by
        have hget := (List.getElem?_eq_some_iff.mp hd).1
        rw [List.length_append, List.length_singleton] at hget
        omega
      rw [List.getElem?_append_left hlen] at hd
      exact h.holds i d hi hd
  · intro i hi
    rw [List.length_append, List.length_singleton] at hi
    have hnew : i ≠ ⟨created.length + 1, hlt⟩ := by
      rintro rfl
      exact absurd hi (Nat.lt_irrefl _)
    rw [heq]
    simp only [Scheduler.setProcess, Function.update_of_ne hnew]
    exact h.fresh i (by omega)

theorem Recorded.lt_or_eq {s : Scheduler} {created : List Creation} (h : Recorded s created) :
    created.length + 1 < maxProcesses ∨ created.length + 1 = maxProcesses :=
  Nat.lt_or_eq_of_le h.filled.le

theorem Recorded.step {t : Traced} (h : Recorded t.sched t.created) (hd : Dispatched t.sched)
    (call : Call) : Recorded (tracedStep t call).sched (tracedStep t call).created := by
  cases call with
  | create entry stack stackSize name =>
      simp only [tracedStep]
      rcases h.lt_or_eq with hlt | hfull
      · obtain ⟨mem, heq⟩ := h.apply_free hlt ⟨entry, stack, stackSize, name⟩
        rw [if_pos (by rw [heq]; rfl)]
        exact h.create hlt _
      · rw [h.apply_full hfull]
        exact h
  | schedule cpu =>
      have hcpu : Recorded { t.sched with cpu := cpu } t.created :=
        ⟨⟨h.filled.pos, h.filled.le, h.filled.nextPid, h.filled.pid⟩, h.holds, h.fresh⟩
      exact hcpu.schedule (hd.with_cpu cpu)

theorem tracedStep_sched (t : Traced) (call : Call) :
    (tracedStep t call).sched = step t.sched call := by
  cases call with
  | create entry stack stackSize name => rfl
  | schedule cpu => rfl

theorem recorded_initialized (image : Image) (mem : Memory) (cpu : Regs) :
    Recorded (initialized image mem cpu) [] := by
  refine ⟨filled_initialized image mem cpu, ?_, ?_⟩
  · intro i c _ hc
    cases hc
  · intro i hi
    have hzero : i ≠ 0 := by
      rintro rfl
      exact absurd hi (Nat.lt_irrefl 0)
    simp [initialized, setupContext, Scheduler.setProcess, initRecord, boot, Process.zero, hzero]

theorem recorded_traced (image : Image) (mem : Memory) (cpu : Regs) (calls : List Call) :
    Recorded (traced image mem cpu calls).sched (traced image mem cpu calls).created ∧
      Dispatched (traced image mem cpu calls).sched := by
  rw [traced, initProcess_boot]
  refine List.foldlRecOn (motive := fun t => Recorded t.sched t.created ∧ Dispatched t.sched)
    calls tracedStep ?_ ?_
  · exact ⟨recorded_initialized image mem cpu, dispatched_initialized image mem cpu⟩
  · rintro t ⟨hrec, hd⟩ call -
    refine ⟨hrec.step hd call, ?_⟩
    rw [tracedStep_sched]
    exact dispatched_step hd call

theorem traced_sched (image : Image) (mem : Memory) (cpu : Regs) (calls : List Call) :
    (traced image mem cpu calls).sched = reached image mem cpu calls := by
  rw [traced, reached]
  generalize initProcess (boot image mem cpu) = s
  generalize hcreated : ([] : List Creation) = created
  clear hcreated
  induction calls generalizing s created with
  | nil => rfl
  | cons call calls ih =>
      rw [List.foldl_cons, List.foldl_cons, ← tracedStep_sched ⟨s, created⟩ call]
      exact ih _ _

theorem Recorded.occupancy {s : Scheduler} {created : List Creation} (h : Recorded s created) :
    Occupancy s created := by
  have hnone : ∀ c : Creation, (c.apply s).1 = none → created.length + 1 = maxProcesses := by
    intro c hc
    rcases h.lt_or_eq with hlt | hfull
    · obtain ⟨mem, heq⟩ := h.apply_free hlt c
      rw [heq] at hc
      cases hc
    · exact hfull
  constructor
  · intro i
    rw [h.filled.occupied_iff i]
    exact Nat.lt_succ_iff
  · rw [h.filled.nextPid]
    push_cast
    rfl
  · exact h.filled.le
  · exact h.holds
  · intro c
    constructor
    · intro hc
      have hfull := hnone c hc
      omega
    · intro hlen
      have hmax : 1 ≤ maxProcesses := by decide
      rw [h.apply_full (by omega) c]
  · intro c hc
    rw [h.apply_full (hnone c hc) c]

end ShlteOs.ProcessOccupancy
