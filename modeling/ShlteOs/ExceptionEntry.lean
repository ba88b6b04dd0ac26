import ShlteOs.ArmInstructions

/-!
The AArch64 exception path of `boot.S`: the eight vector stubs, the common
`exception_handler` around the call of `handle_exception`, and when the
interrupted code finds its registers again.
-/

namespace ShlteOs.ExceptionEntry

open ShlteOs.ByteMemory
open ShlteOs.ArmInstructions
open ShlteOs.ArmInstructions.Gpr
open ShlteOs.ArmInstructions.Reg (xzr)

/-- The entries of the vector table. -/
inductive Vector
  | el1Sync
  | el1Irq
  | el1Fiq
  | el1Error
  | el0Sync
  | el0Irq
  | el0Fiq
  | el0Error
  deriving DecidableEq, Repr

/-- What a synchronous entry reads before anything is saved. -/
def readSyndrome : List Instr :=
  [.mrs x0 .esrEl1, .mrs x1 .farEl1, .mrs x2 .spEl0]

/-- The instructions of a stub before its branch to `exception_handler`. -/
def stub : Vector → List Instr
  | .el1Sync | .el1Irq | .el0Sync | .el0Irq => readSyndrome
  | .el1Fiq | .el0Fiq | .el1Error | .el0Error => []

/-- The frame of 256 bytes the stubs push. -/
def save : List Instr :=
  [.subSp 256,
    .stp x0 x1 0,
    .stp x2 x3 16,
    .stp x4 x5 32,
    .stp x6 x7 48,
    .stp x8 x9 64,
    .stp x10 x11 80,
    .stp x12 x13 96,
    .stp x14 x15 112,
    .stp x16 x17 128,
    .movSp x18,
    .stp x18 xzr 144]

/-- The loads in front of `eret`; `x10` and `x11` are not among them. -/
def restore : List Instr :=
  [.ldp x18 xzr 144,
    .ldp x16 x17 128,
    .ldp x12 x13 96,
    .ldp x14 x15 112,
    .ldp x8 x9 64,
    .ldp x4 x5 32,
    .ldp x6 x7 48,
    .ldp x2 x3 16,
    .ldp x0 x1 0,
    .addSp 256]

/-- The machine when `handle_exception` is called. -/
def atCall (v : Vector) (m : Machine) : Machine :=
  run (run m (stub v)) save

/-- The field of the syndrome that tells the kinds of exceptions apart. -/
def exceptionClass (esr : Word) : Word := (esr >>> 26) &&& 0x3F

/-- Whether `handle_exception` returns: the abort classes end in `panic`. -/
def handleExceptionReturns (esr : Word) : Bool :=
  match exceptionClass esr with
  | 0x15 | 0x16 => false
  | 0x22 | 0x23 => false
  | _ => true

/-- `handle_exception` gets the syndrome in `x0`. -/
def Recoverable (v : Vector) (m : Machine) : Prop :=
  handleExceptionReturns ((atCall v m).x x0) = true

instance (v : Vector) (m : Machine) : Decidable (Recoverable v m) :=
  inferInstanceAs (Decidable (_ = _))

/-- The state in front of `eret`, when the callee has returned. -/
def atEret (callee : Callee 256) (ret : Word) (v : Vector) (m : Machine) : Machine :=
  run (call callee ret (atCall v m)) restore

/-- The machine when the `eret` of `exception_handler` executes; a panic never
gets there. -/
def exceptionHandler (callee : Callee 256) (ret : Word) (v : Vector) (m : Machine) :
    Option Machine :=
  if Recoverable v m then some (atEret callee ret v m) else none

/-- The `eret` executes with the registers the exception was taken with. -/
def Transparent (callee : Callee 256) (ret : Word) (v : Vector) (m : Machine) : Prop :=
  ∃ m', exceptionHandler callee ret v m = some m' ∧ (∀ r, m'.x r = m.x r) ∧ m'.sp = m.sp

theorem exceptionHandler_of_recoverable (callee : Callee 256) (ret : Word) {v : Vector}
    {m : Machine} (h : Recoverable v m) :
    exceptionHandler callee ret v m = some (atEret callee ret v m) :=
  if_pos h

/-- The stub overwrites nothing of the interrupted code. -/
def StubSilent : Vector → Machine → Prop
  | .el1Sync, m | .el1Irq, m | .el0Sync, m | .el0Irq, m =>
      m.sys .esrEl1 = m.x x0 ∧ m.sys .farEl1 = m.x x1 ∧ m.sys .spEl0 = m.x x2
  | .el1Fiq, _ | .el0Fiq, _ | .el1Error, _ | .el0Error, _ => True

/-- The words of the frame, from `sp` up. -/
def frame (m : Machine) : List Word :=
  [m.x x0, m.x x1, m.x x2, m.x x3, m.x x4, m.x x5, m.x x6, m.x x7, m.x x8, m.x x9,
    m.x x10, m.x x11, m.x x12, m.x x13, m.x x14, m.x x15, m.x x16, m.x x17, m.sp - 256, 0]

def frameWord (m : Machine) (i : Nat) : Word := (frame m).getD i 0

theorem frameWord_of_lt (m : Machine) {r : Gpr} (hr : r.index < 18) :
    frameWord m r.index = m.x r := by
  cases r <;> first | rfl | exact absurd hr (by decide)

theorem run_save_mem (m : Machine) :
    (run m save).mem = storeArray m.mem (m.sp - 256) (frameWord m) 20 := by
  simp only [storeArray_succ]
  simp only [save, run_cons, run_nil, exec, Machine.write, Machine.read, BitVec.add_assoc]
  rfl

theorem run_save_x (m : Machine) (r : Gpr) :
    (run m save).x r = if r = x18 then m.sp - 256 else m.x r := by
  have hx : (run m save).x = Function.update m.x x18 (m.sp - 256) := rfl
  rw [hx, Function.update_apply]

theorem run_save_sp (m : Machine) : (run m save).sp = m.sp - 256 := rfl

/-- The registers that are loaded from the frame. -/
def Restored (r : Gpr) : Prop := r.index < 19 ∧ r ≠ x10 ∧ r ≠ x11

instance (r : Gpr) : Decidable (Restored r) := inferInstanceAs (Decidable (_ ∧ _))

theorem eq_x18 {r : Gpr} (hlt : r.index < 19) (hge : 18 ≤ r.index) : r = x18 := by
  cases r <;> first | rfl | exact absurd hge (by decide) | exact absurd hlt (by decide)

theorem mem_unsaved {r : Gpr} (hr : ¬ Restored r) (hsaved : ¬ CalleeSaved r) :
    r ∈ [x10, x11, x30] := by
  cases r <;>
    first | decide | exact absurd (by decide) hr | exact absurd ⟨by decide, by decide⟩ hsaved

theorem run_restore_x (m : Machine) (r : Gpr) :
    (run m restore).x r =
      if Restored r then load m.mem (m.sp + BitVec.ofNat 64 r.index * 8) else m.x r := by
  simp only [restore, run_cons, run_nil, exec, Machine.write, BitVec.add_assoc]
  cases r <;> rfl

theorem run_stub_sp (v : Vector) (m : Machine) : (run m (stub v)).sp = m.sp := by
  cases v <;> rfl

theorem run_readSyndrome_x (m : Machine) :
    (run m readSyndrome).x =
      Function.update (Function.update (Function.update m.x x0 (m.sys .esrEl1))
        x1 (m.sys .farEl1)) x2 (m.sys .spEl0) := rfl

theorem run_readSyndrome_x_of_three_le (m : Machine) {r : Gpr} (hr : 3 ≤ r.index) :
    (run m readSyndrome).x r = m.x r := by
  have h0 : r ≠ x0 := by rintro rfl; exact absurd hr (by decide)
  have h1 : r ≠ x1 := by rintro rfl; exact absurd hr (by decide)
  have h2 : r ≠ x2 := by rintro rfl; exact absurd hr (by decide)
  rw [run_readSyndrome_x, Function.update_of_ne h2, Function.update_of_ne h1,
    Function.update_of_ne h0]

theorem run_stub_x_of_three_le (v : Vector) (m : Machine) {r : Gpr} (hr : 3 ≤ r.index) :
    (run m (stub v)).x r = m.x r := by
  cases v with
  | el1Sync | el1Irq | el0Sync | el0Irq => exact run_readSyndrome_x_of_three_le m hr
  | el1Fiq | el1Error | el0Fiq | el0Error => rfl

theorem readSyndrome_silent_iff (m : Machine) :
    (m.sys .esrEl1 = m.x x0 ∧ m.sys .farEl1 = m.x x1 ∧ m.sys .spEl0 = m.x x2) ↔
      ∀ r, (run m readSyndrome).x r = m.x r := by
  constructor
  · rintro ⟨hesr, hfar, hsp⟩ r
    rw [run_readSyndrome_x, hesr, hfar, hsp]
    simp only [Function.update_eq_self]
  · intro h
    exact ⟨h x0, h x1, h x2⟩

theorem stubSilent_iff (v : Vector) (m : Machine) :
    StubSilent v m ↔ ∀ r, (run m (stub v)).x r = m.x r := by
  cases v with
  | el1Sync | el1Irq | el0Sync | el0Irq => exact readSyndrome_silent_iff m
  | el1Fiq | el1Error | el0Fiq | el0Error => exact iff_of_true trivial fun _ => rfl

section Handler

variable (callee : Callee 256) (ret : Word) (v : Vector) (m : Machine)

theorem atEret_sp : (atEret callee ret v m).sp = m.sp := by
  have hrestore : ∀ c : Machine, (run c restore).sp = c.sp + 256 := fun _ => rfl
  rw [atEret, hrestore, call_sp, atCall, run_save_sp, run_stub_sp,
    BitVec.sub_add_cancel]

theorem load_frame {i : Nat} (hi : i < 20) :
    load (call callee ret (atCall v m)).mem ((atCall v m).sp + BitVec.ofNat 64 i * 8) =
      frameWord (run m (stub v)) i := by
  rw [load_call callee ret _ (by omega) (by omega), atCall, run_save_sp, run_save_mem]
  exact load_storeArray hi (by omega)

theorem atEret_x_of_restored {r : Gpr} (hr : Restored r) :
    (atEret callee ret v m).x r = frameWord (run m (stub v)) r.index := by
  rw [atEret, run_restore_x, if_pos hr, call_sp]
  exact load_frame callee ret v m (by have := hr.1; omega)

theorem atEret_x_of_not_restored {r : Gpr} (hr : ¬ Restored r) :
    (atEret callee ret v m).x r = (call callee ret (atCall v m)).x r := by
  rw [atEret, run_restore_x, if_neg hr]

theorem atEret_x_calleeSaved {r : Gpr} (hr : CalleeSaved r) :
    (atEret callee ret v m).x r = m.x r := by
  have hlow := hr.1
  have hnot : ¬ Restored r := fun h => absurd h.1 (by omega)
  have hne : r ≠ x18 := by rintro rfl; exact absurd hr.1 (by decide)
  rw [atEret_x_of_not_restored callee ret v m hnot,
    call_calleeSaved callee ret _ hr, atCall, run_save_x, if_neg hne]
  exact run_stub_x_of_three_le v m (by omega)

/-- `handle_exception` happens to leave the registers that are not reloaded as
the interrupted code had them. -/
def CalleeKeeps : Prop :=
  ∀ r ∈ [x10, x11, x30], (call callee ret (atCall v m)).x r = m.x r

theorem atEret_x_iff :
    (∀ r, (atEret callee ret v m).x r = m.x r) ↔
      StubSilent v m ∧ m.x x18 = m.sp - 256 ∧ CalleeKeeps callee ret v m := by
  have hstub : ∀ {r : Gpr}, Restored r → r.index < 18 →
      (atEret callee ret v m).x r = (run m (stub v)).x r := by
    intro r hr hlt
    rw [atEret_x_of_restored callee ret v m hr, frameWord_of_lt _ hlt]
  have hframe : (atEret callee ret v m).x x18 = m.sp - 256 := by
    rw [atEret_x_of_restored callee ret v m (by decide), ← run_stub_sp v m]
    rfl
  have hkept : ∀ r ∈ [x10, x11, x30], ¬ Restored r := by decide
  constructor
  · intro h
    refine ⟨(stubSilent_iff v m).mpr ?_, ?_, ?_⟩
    · intro r
      by_cases hr : 3 ≤ r.index
      · exact run_stub_x_of_three_le v m hr
      · have hres : Restored r := by
          refine ⟨by omega, ?_, ?_⟩ <;> rintro rfl <;> exact hr (by decide)
        rw [← hstub hres (by omega), h r]
    · rw [← h x18, hframe]
    · intro r hr
      rw [← atEret_x_of_not_restored callee ret v m (hkept r hr), h r]
  · rintro ⟨hsilent, h18, hkeeps⟩ r
    by_cases hr : Restored r
    · by_cases hlt : r.index < 18
      · rw [hstub hr hlt]
        exact (stubSilent_iff v m).mp hsilent r
      · obtain rfl : r = x18 := eq_x18 hr.1 (Nat.not_lt.mp hlt)
        rw [hframe, h18]
    · by_cases hsaved : CalleeSaved r
      · exact atEret_x_calleeSaved callee ret v m hsaved
      · rw [atEret_x_of_not_restored callee ret v m hr]
        exact hkeeps r (mem_unsaved hr hsaved)

/-- The interrupted code finds all its registers again exactly when the stub
overwrote nothing, `x18` held the address of the new frame, and the callee left
the three registers that are never reloaded as they were. -/
theorem transparent_iff (h : Recoverable v m) :
    Transparent callee ret v m ↔
      StubSilent v m ∧ m.x x18 = m.sp - 256 ∧ CalleeKeeps callee ret v m := by
  rw [← atEret_x_iff, Transparent]
  rw [exceptionHandler_of_recoverable callee ret h]
  constructor
  · rintro ⟨m', hm', hx, -⟩
    rw [Option.some.inj hm']
    exact hx
  · intro hx
    exact ⟨_, rfl, hx, atEret_sp callee ret v m⟩

end Handler

/-- A callee that returns at once. -/
def returning : Callee 256 where
  body := fun m => m
  calleeSaved := fun _ _ _ => rfl
  sp := fun _ => rfl
  callerFrame := fun _ _ _ => rfl

def machineOf (x : Gpr → Word) : Machine where
  x := x
  sp := 0x80000
  mem := fun _ => 0
  sys := fun _ => 0

theorem transparent_el1Fiq :
    Transparent returning 7 .el1Fiq
      (machineOf (Function.update (fun _ => 7) x18 (0x80000 - 256))) :=
  (transparent_iff returning 7 .el1Fiq _ (by decide)).mpr
    ⟨trivial, rfl, by unfold CalleeKeeps; decide⟩

/-- A synchronous exception loses `x0`: the syndrome is what gets saved and
reloaded. -/
theorem not_transparent_el1Sync :
    Recoverable .el1Sync (machineOf fun _ => 7) ∧
      ¬ Transparent returning 7 .el1Sync (machineOf fun _ => 7) := by
  have hrec : Recoverable .el1Sync (machineOf fun _ => 7) := by decide
  refine ⟨hrec, ?_⟩
  rintro ⟨m', hm', hx, -⟩
  rw [exceptionHandler_of_recoverable returning 7 hrec] at hm'
  have h0 := hx x0
  rw [← Option.some.inj hm', atEret_x_of_restored _ _ _ _ (by decide)] at h0
  exact absurd h0 (by decide)

end ShlteOs.ExceptionEntry
