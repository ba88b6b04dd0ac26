import Mathlib.Data.List.FinRange
import Mathlib.Logic.Function.Basic
import ShlteOs.ByteMemory
import ShlteOs.CircularScan
import ShlteOs.FieldCopy

/-!
The process table of `process.c`.  A process is named by its slot, a null
pointer is `none`, and the registers of the CPU are part of the state, so that
`save_context` and `restore_context` move the register file between the CPU and
the `regs` array of a slot.  User stacks live in the memory and the table does
not: the stacks that are passed in are assumed to lie outside of it.
-/

namespace ShlteOs.ProcessTable

open ShlteOs.ByteMemory
open ShlteOs.CircularScan

def maxProcesses : Nat := 64

instance : NeZero maxProcesses := ⟨by decide⟩

abbrev Slot := Fin maxProcesses

/-- The states of a process.  Nothing in the source sets the last two. -/
inductive ProcState where
  | running
  | sleeping
  | zombie
  | stopped
  deriving DecidableEq, Repr

abbrev Regs := Fin 31 → Word

structure Process where
  pid : Int
  ppid : Int
  state : ProcState
  name : List Byte
  userStack : Word
  regs : Regs
  entry : Word
  userSpace : Word
  userSpaceSize : Word
  exitCode : Int

/-- A control block in the cleared table; the state zero is `PROC_RUNNING`. -/
def Process.zero : Process where
  pid := 0
  ppid := 0
  state := .running
  name := List.replicate 16 0
  userStack := 0
  regs := fun _ => 0
  entry := 0
  userSpace := 0
  userSpaceSize := 0
  exitCode := 0

/-- The addresses fixed when the kernel is linked. -/
structure Image where
  processTable : Word
  initProcess : Word

/-- The process table and the variables of `process.c`, with the memory and the registers
of the CPU. -/
structure Scheduler where
  image : Image
  table : Slot → Process
  current : Option Slot
  nextPid : Int
  lastIdx : Slot
  mem : Memory
  cpu : Regs

def boot (image : Image) (mem : Memory) (cpu : Regs) : Scheduler where
  image := image
  table := fun _ => .zero
  current := none
  nextPid := 1
  lastIdx := 0
  mem := mem
  cpu := cpu

def Scheduler.setProcess (s : Scheduler) (i : Slot) (p : Process) : Scheduler :=
  { s with table := Function.update s.table i p }

def Scheduler.setState (s : Scheduler) (i : Slot) (state : ProcState) : Scheduler :=
  s.setProcess i { s.table i with state := state }

/-- `sizeof(process_t)`. -/
def processSize : Word := 8520

/-- The offset of the end of the kernel stack in a control block. -/
def stackEnd : Word := 8224

def Scheduler.address (s : Scheduler) (i : Slot) : Word :=
  s.image.processTable + BitVec.ofNat 64 i * processSize

def saveContext (s : Scheduler) (i : Slot) : Scheduler :=
  s.setProcess i { s.table i with regs := s.cpu }

def restoreContext (s : Scheduler) (i : Slot) : Scheduler :=
  { s with cpu := (s.table i).regs }

/-- The entry point in the first register and in the link register. -/
def startRegs (entry : Word) : Regs :=
  Function.update (Function.update (fun _ => 0) 0 entry) 30 entry

/-- `setup_context`: fresh registers, and a frame of two words on a stack that was
given. -/
def setupContext (s : Scheduler) (i : Slot) : Scheduler :=
  let p := s.table i
  let regs := startRegs p.entry
  if p.userSpace ≠ 0 then
    let top := (p.userSpace + p.userSpaceSize) &&& ~~~7
    let userStack := top - 16
    let mem := store (store s.mem (userStack + 8) 0) userStack p.entry
    { s.setProcess i { p with regs := regs, userStack := userStack } with mem := mem }
  else
    s.setProcess i { p with regs := regs, userStack := s.address i + stackEnd }

/-- `strncpy` into a field of a record.  The list `src` ends where the terminating NUL
stands. -/
def strncpy (field src : List Byte) (n : Nat) : List Byte :=
  FieldCopy.strncpy ⟨fun _ i => src.getD i 0, List.set⟩ n field

/-- The digits of a pid from the last one on, at most as many as there is room for. -/
def reverseDigits : Nat → Int → List Byte
  | 0, _ => []
  | room + 1, pid =>
      if 0 < pid then
        BitVec.ofInt 8 (48 + pid % 10) :: reverseDigits room (pid / 10)
      else []

def procText : List Byte := [112, 114, 111, 99]

def defaultName (pid : Int) : List Byte :=
  let digits := (reverseDigits 15 pid).reverse
  digits ++ procText.take (15 - digits.length)

/-- The name field after `strncpy(p->name, name, 15)` and `p->name[15] = 0`. -/
def copyName (field name : List Byte) : List Byte :=
  (strncpy field name 15).set 15 0

/-- The initial frame: the entry point 32 words below the top of the stack and
thirty zero words under it. -/
def writeFrame (mem : Memory) (top entry : Word) : Memory :=
  let stk := top - 256
  (List.range 30).foldl (fun m i => store m (stk - BitVec.ofNat 64 (8 * (i + 1))) 0)
    (store mem stk entry)

/-- The first slot whose pid is zero. -/
def freeSlot (s : Scheduler) : Option Slot :=
  (List.finRange maxProcesses).find? fun i => (s.table i).pid = 0

/-- The control block `create_process` fills in. -/
def newProcess (s : Scheduler) (i : Slot) (entry stack stackSize : Word)
    (name : Option (List Byte)) : Process :=
  let p := { s.table i with
    pid := s.nextPid
    ppid := match s.current with
      | some c => if c = i then s.nextPid else (s.table c).pid
      | none => 0
    state := .running
    entry := entry
    userSpace := stack
    userSpaceSize := stackSize
    exitCode := 0
    name := copyName (s.table i).name (name.getD (defaultName s.nextPid)) }
  if stack ≠ 0 ∧ 0 < stackSize then
    { p with
      userStack := stack + stackSize
      regs := Function.update (Function.update p.regs 0 entry) 30 0 }
  else p

/-- `create_process`: the slot, or none for NULL. -/
def createProcess (s : Scheduler) (entry stack stackSize : Word)
    (name : Option (List Byte)) : Option Slot × Scheduler :=
  match freeSlot s with
  | none => (none, s)
  | some i =>
      let mem := if stack ≠ 0 ∧ 0 < stackSize then
          writeFrame s.mem (stack + stackSize) entry
        else s.mem
      (some i, { s.setProcess i (newProcess s i entry stack stackSize name) with
        nextPid := s.nextPid + 1
        mem := mem })

/-- `context_switch`, where either side may be NULL. -/
def contextSwitch (s : Scheduler) (prev next : Option Slot) : Scheduler :=
  if prev = none ∧ next = none then s
  else
    let saved : Scheduler := match prev with
      | none => s
      | some p => (saveContext s p).setState p .sleeping
    let restored : Scheduler := match next with
      | none => saved
      | some i =>
          let ready :=
            if (saved.table i).state = .running then saved else setupContext saved i
          restoreContext (ready.setState i .running) i
    { restored with current := next }

/-- The test `schedule` makes of a slot. -/
def runnable (s : Scheduler) (i : Slot) : Bool :=
  (s.table i).pid ≠ 0 ∧ (s.table i).state = .running

/-- The branch on which `schedule` returns. -/
inductive Outcome where
  | noCurrent
  | noRunnable
  | same
  | switched
  deriving DecidableEq, Repr

/-- `schedule`, from the slot behind the last one it chose. -/
def schedule (s : Scheduler) : Outcome × Scheduler :=
  match s.current with
  | none => (.noCurrent, s)
  | some cur =>
      match scan (runnable s) s.lastIdx with
      | none => (.noRunnable, s)
      | some idx =>
          -- `last_idx` moves before the early return.
          let s := { s with lastIdx := idx }
          if idx = cur then (.same, s)
          else (.switched, contextSwitch s (some cur) (some idx))

def initText : List Byte := [105, 110, 105, 116]

def initRecord (s : Scheduler) : Process :=
  { s.table 0 with
    pid := 1
    ppid := 0
    state := .running
    entry := s.image.initProcess
    userSpace := 0
    userSpaceSize := 0
    exitCode := 0
    name := strncpy (s.table 0).name initText 15 }

/-- `init_process` makes the first process current and calls `schedule` ten times. -/
def initProcess (s : Scheduler) : Scheduler :=
  let s := { setupContext (s.setProcess 0 (initRecord s)) 0 with current := some 0 }
  (fun s => (schedule s).2)^[10] s

end ShlteOs.ProcessTable
