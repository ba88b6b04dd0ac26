import ShlteOs.ByteMemory

/-!
The integer instructions of AArch64 that entry and exit code is written in:
system register reads, stack adjustment, register pairs moved to and from the
stack, and a call.  A callee is known only by what the procedure call standard
promises of it.
-/

namespace ShlteOs.ArmInstructions

open ShlteOs.ByteMemory

/-- The system registers that entry code reads. -/
inductive SysReg
  | esrEl1
  | farEl1
  | spEl0
  deriving DecidableEq, Repr

/-- The general-purpose registers. -/
inductive Gpr
  | x0 | x1 | x2 | x3 | x4 | x5 | x6 | x7
  | x8 | x9 | x10 | x11 | x12 | x13 | x14 | x15
  | x16 | x17 | x18 | x19 | x20 | x21 | x22 | x23
  | x24 | x25 | x26 | x27 | x28 | x29 | x30
  deriving DecidableEq, Repr

def Gpr.index (r : Gpr) : Nat := r.ctorIdx

/-- A register operand: one of the registers, or the one that reads as zero. -/
inductive Reg
  | gpr (r : Gpr)
  | xzr
  deriving DecidableEq, Repr

instance : Coe Gpr Reg := ⟨.gpr⟩

/-- The general registers, the stack pointer, the memory and the system registers. -/
structure Machine where
  x : Gpr → Word
  sp : Word
  mem : Memory
  sys : SysReg → Word

def Machine.read (m : Machine) : Reg → Word
  | .gpr r => m.x r
  | .xzr => 0

def Machine.write (m : Machine) (r : Reg) (v : Word) : Machine :=
  match r with
  | .gpr r => { m with x := Function.update m.x r v }
  | .xzr => m

/-- Straight-line code: moves, loads and stores of pairs, and the stack pointer. -/
inductive Instr
  | mrs (rt : Reg) (s : SysReg)
  | subSp (imm : Nat)
  | addSp (imm : Nat)
  | movSp (rd : Reg)
  | stp (rt rt2 : Reg) (offset : Nat)
  | ldp (rt rt2 : Reg) (offset : Nat)
  deriving DecidableEq, Repr

def exec (m : Machine) : Instr → Machine
  | .mrs rt s => m.write rt (m.sys s)
  | .subSp imm => { m with sp := m.sp - BitVec.ofNat 64 imm }
  | .addSp imm => { m with sp := m.sp + BitVec.ofNat 64 imm }
  | .movSp rd => m.write rd m.sp
  | .stp rt rt2 offset =>
      let a := m.sp + BitVec.ofNat 64 offset
      { m with mem := store (store m.mem a (m.read rt)) (a + 8) (m.read rt2) }
  | .ldp rt rt2 offset =>
      let a := m.sp + BitVec.ofNat 64 offset
      (m.write rt (load m.mem a)).write rt2 (load m.mem (a + 8))

def run (m : Machine) (code : List Instr) : Machine :=
  code.foldl exec m

@[simp] theorem run_nil (m : Machine) : run m [] = m := rfl

@[simp] theorem run_cons (m : Machine) (i : Instr) (code : List Instr) :
    run m (i :: code) = run (exec m i) code := rfl

/-- The registers the calling standard makes a callee keep. -/
def CalleeSaved (r : Gpr) : Prop := 19 ≤ r.index ∧ r.index ≤ 29

/-- What AAPCS64 promises of a callee: `x19` to `x29` and `sp` come back, and
the `frame` bytes its caller keeps above `sp` are not written.  Nothing is said
about the other registers. -/
structure Callee (frame : Nat) where
  body : Machine → Machine
  calleeSaved : ∀ m r, CalleeSaved r → (body m).x r = m.x r
  sp : ∀ m, (body m).sp = m.sp
  callerFrame : ∀ m a, Covers m.sp frame a → (body m).mem a = m.mem a

/-- `bl`: the return address goes to `x30` before the callee runs. -/
def call {frame : Nat} (callee : Callee frame) (ret : Word) (m : Machine) : Machine :=
  callee.body { m with x := Function.update m.x .x30 ret }

variable {frame : Nat} (callee : Callee frame) (ret : Word) (m : Machine)

@[simp] theorem call_sp : (call callee ret m).sp = m.sp :=
  callee.sp _

theorem call_calleeSaved {r : Gpr} (hr : CalleeSaved r) :
    (call callee ret m).x r = m.x r := by
  have hlink : r ≠ .x30 := by
    rintro rfl
    exact absurd hr.2 (by decide)
  rw [call, callee.calleeSaved _ r hr]
  exact Function.update_of_ne hlink _ _

theorem load_call {i : Nat} (hi : i * 8 + 8 ≤ frame) (hframe : frame ≤ 2 ^ 64) :
    load (call callee ret m).mem (m.sp + BitVec.ofNat 64 i * 8) =
      load m.mem (m.sp + BitVec.ofNat 64 i * 8) := by
  apply load_congr
  intro a ha
  apply callee.callerFrame
  exact covers_slot hi hframe ha

end ShlteOs.ArmInstructions
