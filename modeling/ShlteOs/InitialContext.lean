import ShlteOs.ProcessOccupancy
import ShlteOs.ContextPreservation

/-!
The first context of a process.  `create_process` fills in a frame and two
registers, and leaves the process in the state `PROC_RUNNING`, which
`context_switch` takes for a process that has run before; `setup_context`,
which would prepare the same process in another way, is then never called for
it.
-/

namespace ShlteOs.InitialContext

open ShlteOs.ByteMemory
open ShlteOs.CircularScan
open ShlteOs.ProcessTable
open ShlteOs.SchedulerInvariant
open ShlteOs.ProcessIdentity
open ShlteOs.ProcessOccupancy

/-- The process in slot `i` is not entered while these calls are made. -/
def Unselected (i : Slot) : Scheduler → List Call → Prop
  | s, [] => s.current ≠ some i
  | s, call :: calls => s.current ≠ some i ∧ Unselected i (step s call) calls

/-- The control block `restore_context` reads holds the entry point in `x0` and
`x30`, and its user stack pointer is the address of a word inside the stack that
was passed in which holds the entry point. -/
structure StartsAtEntry (c : Creation) (i : Slot) (s : Scheduler) : Prop where
  link : (s.table i).regs 30 = c.entry
  argument : (s.table i).regs 0 = c.entry
  frame : c.stack ≠ 0 →
    (∀ x, Covers (s.table i).userStack 8 x → Covers c.stack c.stackSize.toNat x) ∧
      load s.mem (s.table i).userStack = c.entry

/-- What `create_process` leaves in the registers and the stack pointer of a
slot whose registers are zero. -/
structure Created (c : Creation) (p : Process) : Prop where
  pid : p.pid ≠ 0
  state : p.state = .running
  given : c.stack ≠ 0 ∧ 0 < c.stackSize →
    p.regs = Function.update (Function.update (fun _ => 0) 0 c.entry) 30 0 ∧
      p.userStack = c.stack + c.stackSize
  missing : ¬ (c.stack ≠ 0 ∧ 0 < c.stackSize) → p.regs = fun _ => 0

/-- Free slots have no registers left in them. -/
def FreshRegs (s : Scheduler) : Prop := ∀ i, (s.table i).pid = 0 → (s.table i).regs = fun _ => 0

section Fresh

variable {s : Scheduler}

theorem nextPid_ne_zero {n : Nat} (h : Filled s n) : s.nextPid ≠ 0 := by
  have hpos := h.pos
  rw [h.nextPid]
  omega

theorem freshRegs_create (h : FreshRegs s) (hnext : s.nextPid ≠ 0) (c : Creation) :
    FreshRegs (c.apply s).2 := by
  rcases createProcess_cases s c.entry c.stack c.stackSize c.name with
    ⟨-, heq⟩ | ⟨i, mem, -, heq⟩
  · rw [Creation.apply, heq]
    exact h
  · rw [Creation.apply, heq]
    intro j hj
    by_cases hji : j = i
    · subst hji
      simp [Scheduler.setProcess, newProcess_pid, hnext] at hj
    · simp only [Scheduler.setProcess, Function.update_of_ne hji] at hj ⊢
      exact h j hj

theorem freshRegs_schedule (h : FreshRegs s) (hd : Dispatched s) : FreshRegs (schedule s).2 := by
  rcases schedule_cases hd with ⟨-, heq⟩ | ⟨idx, -, -, heq⟩
  · rw [heq]
    exact h
  · rw [heq]
    intro j hj
    by_cases hjs : j = s.lastIdx
    · subst hjs
      simp [switchedTo, hd.pid] at hj
    · rw [switchedTo_table_of_ne hjs] at hj ⊢
      exact h j hj

theorem freshRegs_reached (image : Image) (mem : Memory) (cpu : Regs) (calls : List Call) :
    FreshRegs (reached image mem cpu calls) := by
  induction calls using List.reverseRecOn with
  | nil =>
      show FreshRegs (initProcess (boot image mem cpu))
      rw [initProcess_boot]
      intro i hi
      rw [(initialized_table image mem cpu i).1] at hi
      have hzero : i ≠ 0 := by
        rintro rfl
        exact absurd hi (by decide)
      simp [initialized, setupContext, Scheduler.setProcess, initRecord, boot, Process.zero, hzero]
  | append_singleton calls call ih =>
      have hd := dispatched_reached image mem cpu calls
      have hnext := nextPid_ne_zero (filled_reached image mem cpu calls)
      rw [reached, List.foldl_append]
      show FreshRegs (step (reached image mem cpu calls) call)
      cases call with
      | create entry stack stackSize name =>
          exact freshRegs_create ih hnext ⟨entry, stack, stackSize, name⟩
      | schedule cpu' => exact freshRegs_schedule ih (hd.with_cpu cpu')

end Fresh

section Selection

variable {s : Scheduler} {c : Creation} {i : Slot}

theorem created_apply (hfresh : FreshRegs s) (hnext : s.nextPid ≠ 0)
    (h : (c.apply s).1 = some i) : Created c ((c.apply s).2.table i) := by
  rcases createProcess_cases s c.entry c.stack c.stackSize c.name with
    ⟨-, heq⟩ | ⟨j, mem, hfree, heq⟩
  · rw [Creation.apply, heq] at h
    cases h
  · rw [Creation.apply, heq] at h ⊢
    obtain rfl : j = i := Option.some.inj h
    have hregs := hfresh j (freeSlot_pid hfree)
    simp only [Scheduler.setProcess, Function.update_self]
    refine ⟨?_, newProcess_state _ _ _ _ _ _, ?_, ?_⟩
    · rwa [newProcess_pid]
    · intro hgiven
      refine ⟨?_, ?_⟩
      · simp only [newProcess, if_pos hgiven, hregs]
      · simp only [newProcess, if_pos hgiven]
    · intro hmissing
      simp only [newProcess, if_neg hmissing, hregs]

/-- A call changes nothing in the slot of a process that is not the current
one. -/
theorem step_table_of_unselected (hd : Dispatched s) (hpid : (s.table i).pid ≠ 0)
    (hcur : s.current ≠ some i) (call : Call) : (step s call).table i = s.table i := by
  have hlast : i ≠ s.lastIdx := fun hi => hcur (hi ▸ hd.current)
  cases call with
  | create entry stack stackSize name =>
      simp only [step]
      rcases createProcess_cases s entry stack stackSize name with ⟨-, heq⟩ | ⟨j, mem, hfree, heq⟩
      · rw [heq]
      · have hij : i ≠ j := fun hij => hpid (hij ▸ freeSlot_pid hfree)
        rw [heq]
        simp only [Scheduler.setProcess, Function.update_of_ne hij]
  | schedule cpu =>
      simp only [step]
      rcases schedule_cases (hd.with_cpu cpu) with ⟨-, heq⟩ | ⟨idx, -, -, heq⟩
      · rw [heq]
      · have hkept : (switchedTo { s with cpu := cpu } idx).table i = s.table i :=
          switchedTo_table_of_ne hlast
        rw [heq, hkept]

theorem run_table_of_unselected (hd : Dispatched s) (hpid : (s.table i).pid ≠ 0)
    {calls : List Call} (h : Unselected i s calls) :
    (calls.foldl step s).table i = s.table i ∧ Dispatched (calls.foldl step s) ∧
      (calls.foldl step s).current ≠ some i := by
  induction calls generalizing s with
  | nil => exact ⟨rfl, hd, h⟩
  | cons call calls ih =>
      have hstep := step_table_of_unselected hd hpid h.1 call
      obtain ⟨htable, hrest⟩ := ih (dispatched_step hd call) (by rwa [hstep]) h.2
      exact ⟨htable.trans hstep, hrest⟩

theorem schedule_table_of_selected (hd : Dispatched s) (hcur : s.current ≠ some i) {cpu : Regs}
    (h : (step s (.schedule cpu)).current = some i) :
    (step s (.schedule cpu)).table i = s.table i := by
  simp only [step] at h ⊢
  rcases schedule_cases (hd.with_cpu cpu) with ⟨-, heq⟩ | ⟨idx, -, hne, heq⟩
  · rw [heq] at h
    exact absurd h hcur
  · rw [heq] at h ⊢
    obtain rfl : idx = i := Option.some.inj h
    exact switchedTo_table_of_ne hne

theorem Created.startsAtEntry_iff (h : Created c (s.table i)) :
    StartsAtEntry c i s ↔ c.entry = 0 ∧ c.stack = 0 := by
  constructor
  · intro hstarts
    have hstack : c.stack = 0 := by
      by_contra hne
      obtain ⟨hinside, -⟩ := hstarts.frame hne
      have hself := hinside _ (covers_self (by decide))
      rcases Nat.eq_zero_or_pos c.stackSize.toNat with hzero | hpos
      · rw [hzero] at hself
        exact absurd hself (Nat.not_lt_zero _)
      · rw [(h.given ⟨hne, hpos⟩).2, Covers, BitVec.add_comm, BitVec.add_sub_cancel] at hself
        exact absurd hself (Nat.lt_irrefl _)
    refine ⟨?_, hstack⟩
    rw [← hstarts.link, h.missing fun hgiven => hgiven.1 hstack]
  · rintro ⟨hentry, hstack⟩
    have hregs := h.missing fun hgiven => hgiven.1 hstack
    refine ⟨?_, ?_, fun hne => absurd hstack hne⟩
    · rw [hregs, hentry]
    · rw [hregs, hentry]

/-- The first time a created process is entered, it starts at its entry point
exactly when the entry point is the null pointer and no stack was given. -/
theorem startsAtEntry_first_schedule_iff (image : Image) (mem : Memory) (cpu : Regs)
    (calls : List Call) (c : Creation) (i : Slot) (later : List Call) (cpu' : Regs)
    (hcreated : (c.apply (reached image mem cpu calls)).1 = some i)
    (hlater : Unselected i (c.apply (reached image mem cpu calls)).2 later)
    (hselected : (step (later.foldl step (c.apply (reached image mem cpu calls)).2)
      (.schedule cpu')).current = some i) :
    StartsAtEntry c i (step (later.foldl step (c.apply (reached image mem cpu calls)).2)
      (.schedule cpu')) ↔ c.entry = 0 ∧ c.stack = 0 := by
  have hnext := nextPid_ne_zero (filled_reached image mem cpu calls)
  have hnew := created_apply (freshRegs_reached image mem cpu calls) hnext hcreated
  have hd : Dispatched (c.apply (reached image mem cpu calls)).2 :=
    dispatched_createProcess (dispatched_reached image mem cpu calls) _ _ _ _
  obtain ⟨htable, hdrun, hcur⟩ := run_table_of_unselected hd hnew.pid hlater
  have hkept := (schedule_table_of_selected hdrun hcur hselected).trans htable
  rw [← hkept] at hnew
  exact hnew.startsAtEntry_iff

/-- One process with a stack of a page, created right after `init_process`. -/
def pageProcess : Creation := ⟨0xa0000, 0x400000, 0x1000, none⟩

/-- The scheduler right behind `init_process`. -/
def afterInit : Scheduler := reached ⟨0x80000, 0x90000⟩ (fun _ => 0) (fun _ => 0) []

theorem pageProcess_created : (pageProcess.apply afterInit).1 = some 1 := by
  have hfree : freeSlot afterInit = some 1 :=
    (filled_reached _ _ _ []).freeSlot (by decide)
  rcases createProcess_cases afterInit pageProcess.entry pageProcess.stack pageProcess.stackSize
    pageProcess.name with ⟨hnone, -⟩ | ⟨i, mem, hsome, heq⟩
  · rw [hfree] at hnone
    cases hnone
  · rw [hfree] at hsome
    rw [Creation.apply, heq, hsome]

theorem pageProcess_current : (pageProcess.apply afterInit).2.current = some 0 := by
  rw [Creation.apply, ContextPreservation.createProcess_current, afterInit, reached]
  show (initProcess _).current = _
  rw [initProcess_boot]
  rfl

theorem pageProcess_not_current : (pageProcess.apply afterInit).2.current ≠ some 1 := by
  rw [pageProcess_current]
  decide

theorem pageProcess_dispatched : Dispatched (pageProcess.apply afterInit).2 :=
  dispatched_createProcess (dispatched_reached _ _ _ []) _ _ _ _

theorem pageProcess_new : Created pageProcess ((pageProcess.apply afterInit).2.table 1) :=
  created_apply (freshRegs_reached _ _ _ []) (nextPid_ne_zero (filled_reached _ _ _ []))
    pageProcess_created

theorem pageProcess_selected :
    (step (pageProcess.apply afterInit).2 (.schedule fun _ => 0)).current = some 1 := by
  have hd := pageProcess_dispatched
  have hfilled : Filled (pageProcess.apply afterInit).2 2 :=
    (filled_reached _ _ _ []).createProcess _ _ _ _
  have hlast : (pageProcess.apply afterInit).2.lastIdx = 0 :=
    Option.some.inj (hd.current.symm.trans pageProcess_current)
  have hrun : runnable (pageProcess.apply afterInit).2 1 = true :=
    runnable_iff.mpr ⟨pageProcess_new.pid, pageProcess_new.state⟩
  simp only [step]
  rcases schedule_cases (hd.with_cpu fun _ => 0) with ⟨hscan, -⟩ | ⟨idx, hscan, hne, heq⟩
  · have hone : (1 : Slot) = (pageProcess.apply afterInit).2.lastIdx :=
      (scan_eq_self_iff (hd.with_cpu fun _ => 0).runnable).mp hscan 1 hrun
    rw [hlast] at hone
    exact absurd hone (by decide)
  · have hocc : (idx : Nat) < 2 :=
      (hfilled.occupied_iff idx).mp (runnable_iff.mp (scan_nearest hscan).1).1
    have hzero : (idx : Nat) ≠ 0 := fun h0 => hne ((Fin.ext h0).trans hlast.symm)
    have hidx : idx = 1 := by
      apply Fin.ext
      show (idx : Nat) = 1
      omega
    rw [heq, hidx]
    rfl

theorem startsAtEntry_first_schedule_iff_page :
    StartsAtEntry pageProcess 1 (step (pageProcess.apply afterInit).2 (.schedule fun _ => 0)) ↔
      pageProcess.entry = 0 ∧ pageProcess.stack = 0 :=
  startsAtEntry_first_schedule_iff _ _ _ [] pageProcess 1 [] _ pageProcess_created
    pageProcess_not_current pageProcess_selected

/-- A process with a stack of a page is entered with a null link register and a
stack pointer at the end of its stack. -/
theorem pageProcess_not_startsAtEntry :
    (pageProcess.apply afterInit).1 = some 1 ∧
      (step (pageProcess.apply afterInit).2 (.schedule fun _ => 0)).current = some 1 ∧
      ¬ StartsAtEntry pageProcess 1
        (step (pageProcess.apply afterInit).2 (.schedule fun _ => 0)) := by
  have hnew := pageProcess_new
  rw [← schedule_table_of_selected pageProcess_dispatched pageProcess_not_current
    pageProcess_selected] at hnew
  refine ⟨pageProcess_created, pageProcess_selected, ?_⟩
  rw [hnew.startsAtEntry_iff]
  decide

end Selection

section Frames

/-- The operation stores to the byte at `a`: some memory is different there
afterwards. -/
def Writes (f : Memory → Memory) (a : Word) : Prop := ∃ m, f m a ≠ m a

/-- Every byte of the initial frames of `create_process` and `setup_context` lies
in the stack that was passed in. -/
structure FramesInside (stack stackSize : Word) : Prop where
  create : ∀ (s : Scheduler) entry name a,
    Writes (fun m => (createProcess { s with mem := m } entry stack stackSize name).2.mem) a →
      Covers stack stackSize.toNat a
  setup : ∀ (s : Scheduler) i a, (s.table i).userSpace = stack →
    (s.table i).userSpaceSize = stackSize →
    Writes (fun m => (setupContext { s with mem := m } i).mem) a →
      Covers stack stackSize.toNat a

theorem clearWords_of_not_covers (m : Memory) {stk a : Word} {n : Nat} (hn : 8 * n + 8 ≤ 2 ^ 64)
    (h : ¬ Covers (stk - BitVec.ofNat 64 (8 * n)) (8 * n) a) :
    (List.range n).foldl (fun m i => store m (stk - BitVec.ofNat 64 (8 * (i + 1))) 0) m a =
      m a := by
  induction n with
  | zero => rfl
  | succ n ih =>
      have hlast : ¬ Covers (stk - BitVec.ofNat 64 (8 * (n + 1))) 8 a := fun hc =>
        h (lt_of_lt_of_le hc (by omega))
      have hdistance : (stk - BitVec.ofNat 64 (8 * n) -
          (stk - BitVec.ofNat 64 (8 * (n + 1)))).toNat = 8 := by
        rw [Nat.mul_succ, BitVec.ofNat_add]
        have hword : stk - BitVec.ofNat 64 (8 * n) -
            (stk - (BitVec.ofNat 64 (8 * n) + BitVec.ofNat 64 8)) = BitVec.ofNat 64 8 := by ring
        rw [hword]
        rfl
      rw [List.range_succ, List.foldl_append, List.foldl_cons, List.foldl_nil,
        store_of_not_covers hlast]
      exact ih (by omega) fun hc => h (hc.mono hdistance (by omega))

/-- The frame of `create_process` is the 31 words that end 248 bytes below the
top of the stack. -/
theorem writeFrame_of_not_covers (m : Memory) {top a : Word} (entry : Word)
    (h : ¬ Covers (top - 496) 248 a) : writeFrame m top entry a = m a := by
  have hstk : top - 256 - BitVec.ofNat 64 (8 * 30) = top - 496 := by
    bv_omega
  have hfirst : ¬ Covers (top - 256) 8 a := fun hc => by
    have hdistance : (top - 256 - (top - 496)).toNat = 240 := by
      rw [show top - 256 - (top - 496) = 240 by ring]
      rfl
    exact h (hc.mono hdistance (by decide))
  rw [writeFrame, clearWords_of_not_covers _ (by decide) (fun hc => ?_),
    store_of_not_covers hfirst]
  rw [hstk] at hc
  exact h (lt_of_lt_of_le hc (by decide))

theorem writeFrame_lowest (m : Memory) (top entry : Word) :
    writeFrame m top entry (top - 496) = 0 := by
  have hstk : top - 256 - BitVec.ofNat 64 (8 * (29 + 1)) = top - 496 := by
    bv_omega
  rw [writeFrame, List.range_succ, List.foldl_append, List.foldl_cons, List.foldl_nil, hstk]
  have hbyte := store_add (m := (List.range 29).foldl
    (fun m i => store m (top - 256 - BitVec.ofNat 64 (8 * (i + 1))) 0)
    (store m (top - 256) entry)) (a := top - 496) (v := 0) (i := 0) (by decide)
  rw [BitVec.ofNat_eq_ofNat, BitVec.add_zero] at hbyte
  exact hbyte.trans rfl

theorem createProcess_mem (s : Scheduler) {entry stack stackSize : Word}
    (hgiven : stack ≠ 0 ∧ 0 < stackSize) (name : Option (List Byte)) :
    (createProcess s entry stack stackSize name).2.mem =
      if freeSlot s = none then s.mem else writeFrame s.mem (stack + stackSize) entry := by
  cases hfree : freeSlot s with
  | none => simp only [createProcess, hfree, if_true]
  | some i => simp only [createProcess, hfree, if_pos hgiven, reduceCtorEq, if_false]

theorem setupContext_mem {s : Scheduler} {i : Slot} (h : (s.table i).userSpace ≠ 0) :
    (setupContext s i).mem =
      store (store s.mem
        ((((s.table i).userSpace + (s.table i).userSpaceSize) &&& ~~~7) - 16 + 8) 0)
        ((((s.table i).userSpace + (s.table i).userSpaceSize) &&& ~~~7) - 16)
        (s.table i).entry := by
  simp only [setupContext, if_pos h]

theorem setup_words_inside {stack stackSize a : Word} (hsize : 23 ≤ stackSize.toNat)
    (h : Covers (((stack + stackSize) &&& ~~~7) - 16) 16 a) :
    Covers stack stackSize.toNat a := by
  have hround := toNat_and_not_mask (stack + stackSize) (show 3 < 64 by decide)
  have hdistance : (((stack + stackSize) &&& ~~~7) - 16 - stack).toNat =
      stackSize.toNat - 16 - (stack + stackSize).toNat % 8 := by
    have hmask : ((stack + stackSize) &&& ~~~7).toNat =
        (stack + stackSize).toNat / 8 * 8 := hround
    have hlt := stackSize.isLt
    rw [BitVec.toNat_sub, BitVec.toNat_sub, hmask, BitVec.toNat_add]
    show (2 ^ 64 - stack.toNat + (2 ^ 64 - 16 + (stack.toNat + stackSize.toNat) % 2 ^ 64 / 8 * 8) %
      2 ^ 64) % 2 ^ 64 = _
    omega
  exact h.mono hdistance (by omega)

theorem create_writes_inside {stack stackSize : Word} (hstack : stack ≠ 0) (hpos : 0 < stackSize)
    (hsize : 496 ≤ stackSize.toNat) (s : Scheduler) (entry : Word) (name : Option (List Byte))
    {a : Word}
    (h : Writes (fun m => (createProcess { s with mem := m } entry stack stackSize name).2.mem) a) :
    Covers stack stackSize.toNat a := by
  obtain ⟨m, hm⟩ := h
  by_contra hout
  apply hm
  dsimp only
  rw [createProcess_mem _ ⟨hstack, hpos⟩]
  split
  · rfl
  · apply writeFrame_of_not_covers
    intro hc
    have hdistance : (stack + stackSize - 496 - stack).toNat = stackSize.toNat - 496 := by
      bv_omega
    exact hout (hc.mono hdistance (by omega))

theorem setup_writes_inside {s : Scheduler} {i : Slot} (hstack : (s.table i).userSpace ≠ 0)
    (hsize : 23 ≤ (s.table i).userSpaceSize.toNat) {a : Word}
    (h : Writes (fun m => (setupContext { s with mem := m } i).mem) a) :
    Covers (s.table i).userSpace (s.table i).userSpaceSize.toNat a := by
  obtain ⟨m, hm⟩ := h
  by_contra hout
  have hwords : ¬ Covers ((((s.table i).userSpace + (s.table i).userSpaceSize) &&& ~~~7) - 16)
      16 a := fun hc => hout (setup_words_inside hsize hc)
  generalize hw : (((s.table i).userSpace + (s.table i).userSpaceSize) &&& ~~~7) - 16 = w
    at hwords
  have hhigh : ¬ Covers (w + 8) 8 a := by
    intro hc
    have hdistance : (w + 8 - w).toNat = 8 := by
      rw [BitVec.add_comm, BitVec.add_sub_cancel]
      rfl
    exact hwords (hc.mono hdistance (by decide))
  have hlow : ¬ Covers w 8 a := fun hc => hwords (lt_of_lt_of_le hc (by decide))
  apply hm
  dsimp only
  rw [setupContext_mem (s := { s with mem := m }) hstack]
  dsimp only
  rw [hw, store_of_not_covers hlow, store_of_not_covers hhigh]

theorem framesInside_of_le {stack stackSize : Word} (hstack : stack ≠ 0) (hpos : 0 < stackSize)
    (hsize : 496 ≤ stackSize.toNat) : FramesInside stack stackSize := by
  refine ⟨fun s entry name a => create_writes_inside hstack hpos hsize s entry name, ?_⟩
  rintro s i a rfl rfl hwrites
  exact setup_writes_inside hstack (by omega) hwrites

theorem create_writes_lowest {stack stackSize : Word} (hstack : stack ≠ 0)
    (hpos : 0 < stackSize) :
    Writes (fun m => (createProcess { boot ⟨0, 0⟩ (fun _ => 0) (fun _ => 0) with mem := m } 0 stack
      stackSize none).2.mem) (stack + stackSize - 496) := by
  have hfree : freeSlot (boot ⟨0, 0⟩ (fun _ => 1) (fun _ => 0)) ≠ none := by
    decide
  refine ⟨fun _ => 1, ?_⟩
  show (createProcess (boot ⟨0, 0⟩ (fun _ => 1) fun _ => 0) 0 stack stackSize none).2.mem _ ≠ _
  rw [createProcess_mem _ ⟨hstack, hpos⟩, if_neg hfree, writeFrame_lowest]
  show (0 : Byte) ≠ 1
  decide

theorem FramesInside.le_size {stack stackSize : Word} (h : FramesInside stack stackSize)
    (hstack : stack ≠ 0) (hpos : 0 < stackSize) : 496 ≤ stackSize.toNat := by
  by_contra hsmall
  have hlowest := h.create _ 0 none _ (create_writes_lowest hstack hpos)
  rw [Covers] at hlowest
  bv_omega

/-- The frames stay inside the stack exactly when it has room for the 62 words
`create_process` goes down. -/
theorem framesInside_iff (stack stackSize : Word) (hstack : stack ≠ 0) (hpos : 0 < stackSize) :
    FramesInside stack stackSize ↔ 496 ≤ stackSize.toNat :=
  ⟨fun h => h.le_size hstack hpos, framesInside_of_le hstack hpos⟩

theorem framesInside_iff_page :
    FramesInside 0x400000 0x1000 ↔ 496 ≤ (0x1000 : Word).toNat :=
  framesInside_iff 0x400000 0x1000 (by decide) (by decide)

/-- On a stack of 256 bytes the frame lies below the stack. -/
theorem small_stack_not_framesInside :
    ¬ ∀ stack stackSize : Word, stack ≠ 0 → 0 < stackSize →
      stack.toNat + stackSize.toNat ≤ 2 ^ 64 → FramesInside stack stackSize := by
  intro hall
  have hinside := hall 0x400000 0x100 (by decide) (by decide) (by decide)
  exact absurd (hinside.le_size (by decide) (by decide)) (by decide)

end Frames

end ShlteOs.InitialContext
