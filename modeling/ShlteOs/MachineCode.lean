import Mathlib.Data.List.Range
import Mathlib.Logic.Relation

/-!
Machine code as a list of instructions, each at an address of its own, and the runs
of a machine that executes it.  The code is not part of the data memory.  A machine
whose program counter leaves the code has returned to whoever called it.
-/

namespace ShlteOs.MachineCode

variable {Addr Instr State : Type*} [DecidableEq Addr]

/-- Instructions with their addresses. -/
structure Code (Addr Instr : Type*) where
  instrs : List Instr
  addr : Nat → Addr
  injective : ∀ i < instrs.length, ∀ j < instrs.length, addr i = addr j → i = j

def Code.index (c : Code Addr Instr) (pc : Addr) : Option Nat :=
  (List.range c.instrs.length).find? fun i => c.addr i = pc

/-- No instruction has this address. -/
def Code.Outside (c : Code Addr Instr) (pc : Addr) : Prop :=
  ∀ i < c.instrs.length, c.addr i ≠ pc

theorem Code.index_addr (c : Code Addr Instr) {i : Nat} (hi : i < c.instrs.length) :
    c.index (c.addr i) = some i := by
  rw [Code.index, List.find?_range_eq_some]
  refine ⟨decide_eq_true rfl, List.mem_range.mpr hi, fun j hj => ?_⟩
  have hne : c.addr j ≠ c.addr i := fun h =>
    Nat.ne_of_lt hj (c.injective j (hj.trans hi) i hi h)
  simpa using hne

/-- One step, for what each instruction does at its place; outside of the code
nothing happens. -/
def step (c : Code Addr Instr) (pc : State → Addr) (exec : Nat → Instr → State → State)
    (s : State) : State :=
  match c.index (pc s) with
  | none => s
  | some i =>
      match c.instrs[i]? with
      | none => s
      | some instr => exec i instr s

variable {c : Code Addr Instr} {pc : State → Addr} {exec : Nat → Instr → State → State}

theorem step_eq {s : State} {i : Nat} {instr : Instr} (hpc : pc s = c.addr i)
    (hi : c.instrs[i]? = some instr) : step c pc exec s = exec i instr s := by
  have hlt : i < c.instrs.length := (List.getElem?_eq_some_iff.mp hi).1
  rw [step, hpc, c.index_addr hlt]
  simp only [hi]

/-- The second state comes out of the first by some number of steps. -/
def Reaches (c : Code Addr Instr) (pc : State → Addr) (exec : Nat → Instr → State → State) :
    State → State → Prop :=
  Relation.ReflTransGen fun s t => step c pc exec s = t

theorem Reaches.refl (s : State) : Reaches c pc exec s s := Relation.ReflTransGen.refl

theorem Reaches.trans {s t u : State} (h : Reaches c pc exec s t) (h' : Reaches c pc exec t u) :
    Reaches c pc exec s u :=
  Relation.ReflTransGen.trans h h'

theorem Reaches.head {s t : State} {i : Nat} {instr : Instr} (hpc : pc s = c.addr i)
    (hi : c.instrs[i]? = some instr) (h : Reaches c pc exec (exec i instr s) t) :
    Reaches c pc exec s t :=
  Relation.ReflTransGen.head (step_eq hpc hi) h

/-- What a step keeps holds along every run. -/
theorem Reaches.invariant {I : State → Prop} (hstep : ∀ s, I s → I (step c pc exec s)) {s t : State}
    (h : Reaches c pc exec s t) (hs : I s) : I t := by
  induction h with
  | refl => exact hs
  | tail _ hlast ih => exact hlast ▸ hstep _ ih

end ShlteOs.MachineCode
