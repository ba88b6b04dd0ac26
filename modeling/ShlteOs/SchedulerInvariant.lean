import Mathlib.Logic.Function.Iterate
import ShlteOs.ProcessTable

/-!
Runs of the scheduler: `init_process`, followed by any interleaving of
`create_process` and `schedule`.  The registers at a call of `schedule` are
whatever the running process left in them.
-/

namespace ShlteOs.SchedulerInvariant

open ShlteOs.ByteMemory
open ShlteOs.CircularScan
open ShlteOs.ProcessTable

/-- The calls of the kernel; each `schedule` happens with the registers of that moment. -/
inductive Call where
  | create (entry stack stackSize : Word) (name : Option (List Byte))
  | schedule (cpu : Regs)

def step (s : Scheduler) : Call → Scheduler
  | .create entry stack stackSize name => (createProcess s entry stack stackSize name).2
  | .schedule cpu => (schedule { s with cpu := cpu }).2

/-- The state after `init_process` and the calls. -/
def reached (image : Image) (mem : Memory) (cpu : Regs) (calls : List Call) : Scheduler :=
  calls.foldl step (initProcess (boot image mem cpu))

/-- The current process is the one `schedule` found last, and it can run. -/
structure Dispatched (s : Scheduler) : Prop where
  current : s.current = some s.lastIdx
  pid : (s.table s.lastIdx).pid ≠ 0
  state : (s.table s.lastIdx).state = .running

theorem runnable_iff {s : Scheduler} {i : Slot} :
    runnable s i = true ↔ (s.table i).pid ≠ 0 ∧ (s.table i).state = .running := by
  simp [runnable]

theorem Dispatched.runnable {s : Scheduler} (h : Dispatched s) :
    runnable s s.lastIdx = true :=
  runnable_iff.mpr ⟨h.pid, h.state⟩

theorem contextSwitch_running {s : Scheduler} {prev next : Slot} (hne : next ≠ prev)
    (hstate : (s.table next).state = .running) :
    contextSwitch s (some prev) (some next) =
      { s with
        table := Function.update s.table prev
          { s.table prev with regs := s.cpu, state := .sleeping }
        cpu := (s.table next).regs
        current := some next } := by
  have hself : ∀ p : Process, p.state = .running → { p with state := .running } = p := by
    rintro ⟨⟩ rfl
    rfl
  simp [contextSwitch, saveContext, restoreContext, Scheduler.setState, Scheduler.setProcess,
    hne, hstate, hself]

/-- All that a switch changes. -/
def switchedTo (s : Scheduler) (idx : Slot) : Scheduler :=
  { s with
    table := Function.update s.table s.lastIdx
      { s.table s.lastIdx with regs := s.cpu, state := .sleeping }
    cpu := (s.table idx).regs
    current := some idx
    lastIdx := idx }

/-- All that `schedule` does when the current process can run: it stays, because
nothing else can run, or it moves to the next slot that can. -/
theorem schedule_cases {s : Scheduler} (h : Dispatched s) :
    (scan (runnable s) s.lastIdx = some s.lastIdx ∧ schedule s = (.same, s)) ∨
      ∃ idx, scan (runnable s) s.lastIdx = some idx ∧ idx ≠ s.lastIdx ∧
        schedule s = (.switched, switchedTo s idx) := by
  obtain ⟨idx, hscan⟩ := scan_isSome s.lastIdx h.runnable
  by_cases hidx : idx = s.lastIdx
  · subst hidx
    left
    refine ⟨hscan, ?_⟩
    simp only [schedule, h.current, hscan, if_true]
    rw [← h.current]
  · right
    refine ⟨idx, hscan, hidx, ?_⟩
    have hstate := (runnable_iff.mp (scan_nearest hscan).1).2
    simp only [schedule, h.current, hscan, if_neg hidx]
    refine congrArg (Prod.mk Outcome.switched) ?_
    exact contextSwitch_running hidx hstate

theorem switchedTo_table_of_ne {s : Scheduler} {idx i : Slot} (h : i ≠ s.lastIdx) :
    (switchedTo s idx).table i = s.table i := by
  simp [switchedTo, h]

theorem freeSlot_pid {s : Scheduler} {i : Slot} (h : freeSlot s = some i) :
    (s.table i).pid = 0 := by
  simpa using List.find?_some h

theorem createProcess_cases (s : Scheduler) (entry stack stackSize : Word)
    (name : Option (List Byte)) :
    (freeSlot s = none ∧ createProcess s entry stack stackSize name = (none, s)) ∨
      ∃ i mem, freeSlot s = some i ∧
        createProcess s entry stack stackSize name = (some i,
          { s.setProcess i (newProcess s i entry stack stackSize name) with
            nextPid := s.nextPid + 1
            mem := mem }) := by
  rcases hfree : freeSlot s with _ | i
  · left
    simp [createProcess, hfree]
  · right
    refine ⟨i, if stack ≠ 0 ∧ 0 < stackSize then
      writeFrame s.mem (stack + stackSize) entry else s.mem, rfl, ?_⟩
    simp only [createProcess, hfree]

theorem dispatched_schedule {s : Scheduler} (h : Dispatched s) :
    Dispatched (schedule s).2 := by
  rcases schedule_cases h with ⟨-, heq⟩ | ⟨idx, hscan, hne, heq⟩
  · rw [heq]
    exact h
  · obtain ⟨hpid, hstate⟩ := runnable_iff.mp (scan_nearest hscan).1
    rw [heq]
    constructor
    · rfl
    · change ((switchedTo s idx).table idx).pid ≠ 0
      rwa [switchedTo_table_of_ne hne]
    · change ((switchedTo s idx).table idx).state = .running
      rwa [switchedTo_table_of_ne hne]

theorem dispatched_createProcess {s : Scheduler} (h : Dispatched s) (entry stack stackSize : Word)
    (name : Option (List Byte)) :
    Dispatched (createProcess s entry stack stackSize name).2 := by
  rcases createProcess_cases s entry stack stackSize name with ⟨-, heq⟩ | ⟨i, mem, hfree, heq⟩
  · rw [heq]
    exact h
  · have hne : s.lastIdx ≠ i := by
      intro hi
      exact h.pid (hi ▸ freeSlot_pid hfree)
    rw [heq]
    constructor
    · exact h.current
    · simpa [Scheduler.setProcess, hne] using h.pid
    · simpa [Scheduler.setProcess, hne] using h.state

theorem Dispatched.with_cpu {s : Scheduler} (h : Dispatched s) (cpu : Regs) :
    Dispatched { s with cpu := cpu } :=
  ⟨h.current, h.pid, h.state⟩

theorem dispatched_step {s : Scheduler} (h : Dispatched s) (call : Call) :
    Dispatched (step s call) := by
  cases call with
  | create entry stack stackSize name => exact dispatched_createProcess h _ _ _ _
  | schedule cpu => exact dispatched_schedule (h.with_cpu cpu)

def initialized (image : Image) (mem : Memory) (cpu : Regs) : Scheduler :=
  let s := boot image mem cpu
  { setupContext (s.setProcess 0 (initRecord s)) 0 with current := some 0 }

theorem initialized_table (image : Image) (mem : Memory) (cpu : Regs) (i : Slot) :
    ((initialized image mem cpu).table i).pid = (if i = 0 then 1 else 0) ∧
      ((initialized image mem cpu).table i).state = .running := by
  by_cases hi : i = 0
  · simp [initialized, setupContext, Scheduler.setProcess, initRecord, hi]
  · simp [initialized, setupContext, Scheduler.setProcess, initRecord, boot, Process.zero, hi]

theorem initialized_lastIdx (image : Image) (mem : Memory) (cpu : Regs) :
    (initialized image mem cpu).lastIdx = 0 := by
  simp [initialized, setupContext, Scheduler.setProcess, initRecord, boot]

theorem dispatched_initialized (image : Image) (mem : Memory) (cpu : Regs) :
    Dispatched (initialized image mem cpu) := by
  have htable := initialized_table image mem cpu 0
  constructor
  · rw [initialized_lastIdx]
    rfl
  · rw [initialized_lastIdx, htable.1]
    decide
  · rw [initialized_lastIdx, htable.2]

theorem initProcess_boot (image : Image) (mem : Memory) (cpu : Regs) :
    initProcess (boot image mem cpu) = initialized image mem cpu := by
  have hd := dispatched_initialized image mem cpu
  apply @Function.iterate_fixed _ (fun s => (schedule s).2) (initialized image mem cpu)
  rcases schedule_cases hd with ⟨-, heq⟩ | ⟨idx, hscan, hne, -⟩
  · exact congrArg Prod.snd heq
  · have hpid := (runnable_iff.mp (scan_nearest hscan).1).1
    rw [(initialized_table image mem cpu idx).1] at hpid
    rw [initialized_lastIdx] at hne
    simp [hne] at hpid

theorem dispatched_reached (image : Image) (mem : Memory) (cpu : Regs) (calls : List Call) :
    Dispatched (reached image mem cpu calls) := by
  apply List.foldlRecOn calls step
  · rw [initProcess_boot]
    exact dispatched_initialized image mem cpu
  · intro s hs call _
    exact dispatched_step hs call

/-- What `schedule` promises: it comes to a decision, takes the first slot behind
the current one that can run, and keeps the current process only when no other
slot can run. -/
structure SelectsNext (s : Scheduler) (r : Outcome × Scheduler) : Prop where
  decides : r.1 ≠ .noCurrent ∧ r.1 ≠ .noRunnable
  nearest : ∃ cur idx, s.current = some cur ∧ r.2.current = some idx ∧ runnable s idx = true ∧
    ∀ k, runnable s k = true → gap cur idx ≤ gap cur k
  keeps : r.2.current = s.current → ∀ k, runnable s k = true → s.current = some k

theorem selectsNext_schedule {s : Scheduler} (h : Dispatched s) : SelectsNext s (schedule s) := by
  rcases schedule_cases h with ⟨hscan, heq⟩ | ⟨idx, hscan, hne, heq⟩
  · obtain ⟨hrun, hnear⟩ := scan_nearest hscan
    rw [heq]
    refine ⟨by simp, ⟨s.lastIdx, s.lastIdx, h.current, h.current, hrun, hnear⟩, ?_⟩
    intro _ k hk
    rw [h.current, (scan_eq_self_iff h.runnable).mp hscan k hk]
  · obtain ⟨hrun, hnear⟩ := scan_nearest hscan
    rw [heq]
    refine ⟨by simp, ⟨s.lastIdx, idx, h.current, rfl, hrun, hnear⟩, ?_⟩
    intro hkeep
    rw [h.current] at hkeep
    exact absurd (Option.some_inj.mp hkeep) hne

/-- In every state reached after `init_process`, the current process is the one
found last and can run, and `schedule` moves to the first slot behind it that
can run. -/
theorem dispatched_selectsNext (image : Image) (mem : Memory) (cpu : Regs) (calls : List Call)
    (regs : Regs) :
    Dispatched (reached image mem cpu calls) ∧
      SelectsNext (reached image mem cpu calls)
        (schedule { reached image mem cpu calls with cpu := regs }) := by
  have h := dispatched_reached image mem cpu calls
  refine ⟨h, ?_⟩
  obtain ⟨hdecides, hnearest, hkeeps⟩ := selectsNext_schedule (h.with_cpu regs)
  exact ⟨hdecides, hnearest, hkeeps⟩

end ShlteOs.SchedulerInvariant
