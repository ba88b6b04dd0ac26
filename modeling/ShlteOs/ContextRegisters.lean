import Mathlib.Data.List.Nodup
import ShlteOs.ArmInstructions
import ShlteOs.ProcessTable

/-!
The instruction sequences of `save_context` and `restore_context` in
`lib/process.c`, for both architectures.  The operand `%0` is a register the
compiler picks outside the clobber list and loads with the address of
`p->regs`; it is a parameter of each sequence.  The control block of a process
is the range of bytes at its address, with the array `regs` inside it.
-/

namespace ShlteOs.ContextRegisters

open ShlteOs.ByteMemory
open ShlteOs.ProcessTable (processSize)

/-- The address of `p->regs`: the array follows `user_stack`. -/
def regsArray (p : Word) : Word := p + 8232

/-- The size of the array `regs` of a control block. -/
def regsBytes : Nat := 31 * 8

/-- The bytes of the control block outside `regs`. -/
def OtherField (p x : Word) : Prop :=
  Covers p processSize.toNat x ∧ ¬ Covers (regsArray p) regsBytes x

theorem ofNat_mul_eight (i : Nat) : BitVec.ofNat 64 (8 * i) = BitVec.ofNat 64 i * 8 := by
  rw [BitVec.ofNat_mul, BitVec.mul_comm]
  rfl

namespace Arm

open ShlteOs.ArmInstructions (Gpr SysReg Machine)
open ShlteOs.ArmInstructions.Gpr

/-- The instructions of the two assembly blocks on arm64. -/
inductive Instr
  | str (rt base : Gpr) (offset : Nat)
  | ldrPost (rt base : Gpr) (step : Nat)
  | mov (rd rn : Gpr)
  | mrs (rt : Gpr) (s : SysReg)
  | msr (s : SysReg) (rt : Gpr)
  deriving DecidableEq, Repr

def set (m : Machine) (r : Gpr) (v : Word) : Machine :=
  { m with x := Function.update m.x r v }

def exec (m : Machine) : Instr → Machine
  | .str rt base offset =>
      { m with mem := store m.mem (m.x base + BitVec.ofNat 64 offset) (m.x rt) }
  | .ldrPost rt base step =>
      set (set m base (m.x base + BitVec.ofNat 64 step)) rt (load m.mem (m.x base))
  | .mov rd rn => set m rd (m.x rn)
  | .mrs rt s => set m rt (m.sys s)
  | .msr s rt => { m with sys := Function.update m.sys s (m.x rt) }

def run (m : Machine) (code : List Instr) : Machine := code.foldl exec m

theorem run_append (m : Machine) (a b : List Instr) : run m (a ++ b) = run (run m a) b :=
  List.foldl_append

/-- The stores of `save_context`, with the operand register the compiler chose. -/
def saveContext (r : Gpr) : List Instr :=
  [.str x0 r 0, .str x1 r 8, .str x2 r 16, .str x3 r 24, .str x4 r 32, .str x5 r 40,
    .str x6 r 48, .str x7 r 56, .str x8 r 64, .str x9 r 72, .str x10 r 80, .str x11 r 88,
    .str x12 r 96, .str x13 r 104, .str x14 r 112, .str x15 r 120, .str x16 r 128,
    .str x17 r 136, .str x18 r 144, .str x19 r 152, .str x20 r 160, .str x21 r 168,
    .str x22 r 176, .str x23 r 184, .str x24 r 192, .str x25 r 200, .str x26 r 208,
    .str x27 r 216, .str x28 r 224, .str x29 r 232, .str x30 r 240,
    .mrs x1 .spEl0, .str x1 r 248]

def saveClobbers : List Gpr := [x1]

/-- The loads of `restore_context`: `x22` walks over the array and is itself loaded on the
way. -/
def restoreContext (r : Gpr) : List Instr :=
  [.mov x22 r,
    .ldrPost x0 x22 8, .ldrPost x1 x22 8, .ldrPost x2 x22 8, .ldrPost x3 x22 8,
    .ldrPost x4 x22 8, .ldrPost x5 x22 8, .ldrPost x6 x22 8, .ldrPost x7 x22 8,
    .ldrPost x8 x22 8, .ldrPost x9 x22 8, .ldrPost x10 x22 8, .ldrPost x11 x22 8,
    .ldrPost x12 x22 8, .ldrPost x13 x22 8, .ldrPost x14 x22 8, .ldrPost x15 x22 8,
    .ldrPost x16 x22 8, .ldrPost x17 x22 8, .ldrPost x18 x22 8, .ldrPost x19 x22 8,
    .ldrPost x20 x22 8,
    .ldrPost x23 x22 8, .mov x21 x23,
    .ldrPost x23 x22 8, .mov x22 x23,
    .ldrPost x23 x22 8, .ldrPost x24 x22 8, .ldrPost x25 x22 8, .ldrPost x26 x22 8,
    .ldrPost x27 x22 8, .ldrPost x28 x22 8, .ldrPost x29 x22 8, .ldrPost x30 x22 8,
    .ldrPost x1 x22 8, .msr .spEl0 x1]

def restoreClobbers : List Gpr := [x1, x19, x20, x21, x22, x23]

/-- A save of the process at `p` and a later restore of it. What happens in
between may change every register and all memory but the words saved, the array and
the stack pointer behind it. -/
structure Switch (p : Word) where
  saveOperand : Gpr
  restoreOperand : Gpr
  before : Machine
  after : Machine
  save_free : saveOperand ∉ saveClobbers
  restore_free : restoreOperand ∉ restoreClobbers
  save_regs : before.x saveOperand = regsArray p
  restore_regs : after.x restoreOperand = regsArray p
  kept : ∀ x, Covers (regsArray p) (regsBytes + 8) x →
    after.mem x = (run before (saveContext saveOperand)).mem x

/-- The machine behind `save_context`. -/
def Switch.saved {p : Word} (s : Switch p) : Machine :=
  run s.before (saveContext s.saveOperand)

/-- The machine behind `restore_context`. -/
def Switch.restored {p : Word} (s : Switch p) : Machine :=
  run s.after (restoreContext s.restoreOperand)

/-- All registers come back, and `save_context` writes to no other field. -/
structure Inverse {p : Word} (s : Switch p) : Prop where
  registers : ∀ r, s.restored.x r = s.before.x r
  stackPointer : s.restored.sys .spEl0 = s.before.sys .spEl0
  others : ∀ x, OtherField p x → s.saved.mem x = s.before.mem x

def gprs : List Gpr :=
  [x0, x1, x2, x3, x4, x5, x6, x7, x8, x9, x10, x11, x12, x13, x14, x15, x16, x17, x18, x19,
    x20, x21, x22, x23, x24, x25, x26, x27, x28, x29, x30]

def gprAt (i : Nat) : Gpr := gprs.getD i x0

def storeRegister (r : Gpr) (i : Nat) : Instr := .str (gprAt i) r (8 * i)

theorem saveContext_eq (r : Gpr) :
    saveContext r =
      (List.range 31).map (storeRegister r) ++ [.mrs x1 .spEl0, .str x1 r (8 * 31)] := rfl

theorem run_storeRegisters (m : Machine) (r : Gpr) (n : Nat) :
    run m ((List.range n).map (storeRegister r)) =
      { m with mem := storeArray m.mem (m.x r) (fun i => m.x (gprAt i)) n } := by
  induction n with
  | zero => rfl
  | succ n ih =>
      rw [List.range_succ, List.map_append, run_append, ih, storeArray_succ, ← ofNat_mul_eight]
      rfl

theorem run_saveContext_mem (m : Machine) {r : Gpr} (hr : r ∉ saveClobbers) :
    (run m (saveContext r)).mem =
      store (storeArray m.mem (m.x r) (fun i => m.x (gprAt i)) 31)
        (m.x r + BitVec.ofNat 64 31 * 8) (m.sys .spEl0) := by
  have hne : r ≠ x1 := fun h => hr (h ▸ List.mem_singleton_self x1)
  rw [saveContext_eq, run_append, run_storeRegisters, ← ofNat_mul_eight]
  show store _ (Function.update m.x x1 _ r + _) (Function.update m.x x1 _ x1) = _
  rw [Function.update_of_ne hne]
  rfl

theorem load_saved_register (m : Machine) {r : Gpr} (hr : r ∉ saveClobbers) {i : Nat}
    (hi : i < 31) :
    load (run m (saveContext r)).mem (m.x r + BitVec.ofNat 64 i * 8) = m.x (gprAt i) := by
  rw [run_saveContext_mem m hr,
    load_store_apart (apart_slots (by omega) (Nat.lt_succ_of_lt hi) (Nat.lt_succ_self 31)
      (by decide)),
    load_storeArray hi (by decide)]

theorem run_loads (m : Machine) {rs : List Gpr} (hrs : x22 ∉ rs) :
    (run m (rs.map fun r => .ldrPost r x22 8)).x x22 = m.x x22 + BitVec.ofNat 64 (8 * rs.length) ∧
      (run m (rs.map fun r => .ldrPost r x22 8)).mem = m.mem := by
  induction rs generalizing m with
  | nil => exact ⟨(BitVec.add_zero _).symm, rfl⟩
  | cons r rs ih =>
      rw [List.mem_cons, not_or] at hrs
      obtain ⟨hx, hmem⟩ := ih (exec m (.ldrPost r x22 8)) hrs.2
      have hstep : (exec m (.ldrPost r x22 8)).x x22 = m.x x22 + 8 := by
        show Function.update (Function.update m.x x22 (m.x x22 + 8)) r _ x22 = _
        rw [Function.update_of_ne hrs.1, Function.update_self]
      refine ⟨?_, hmem⟩
      show (run (exec m (.ldrPost r x22 8)) (rs.map fun r => .ldrPost r x22 8)).x x22 = _
      rw [hx, hstep, List.length_cons, Nat.mul_succ, Nat.add_comm (8 * rs.length),
        BitVec.ofNat_add, ← BitVec.add_assoc]
      rfl

theorem run_msr_x (m : Machine) (s : SysReg) (r : Gpr) : (run m [.msr s r]).x = m.x := rfl

theorem run_move_pointer (m : Machine) :
    (run m [.mov x21 x23, .ldrPost x23 x22 8, .mov x22 x23]).x x22 = load m.mem (m.x x22) := rfl

theorem restoreContext_eq (r : Gpr) :
    restoreContext r =
      [Instr.mov x22 r] ++ (gprs.take 21 ++ [x23]).map (fun r => Instr.ldrPost r x22 8) ++
        [Instr.mov x21 x23, Instr.ldrPost x23 x22 8, Instr.mov x22 x23] ++
        ([x23, x24, x25, x26, x27, x28, x29, x30, x1].map fun r => Instr.ldrPost r x22 8) ++
        [Instr.msr .spEl0 x1] := rfl

/-- From the word of `x22` on, the loads go through the restored value instead of
the array, and `x22` ends nine words behind it. -/
theorem restored_x22 (m : Machine) (r : Gpr) :
    (run m (restoreContext r)).x x22 =
      load m.mem (m.x r + BitVec.ofNat 64 22 * 8) + 72 := by
  obtain ⟨hfirst, hmem⟩ := run_loads (run m [.mov x22 r])
    (show x22 ∉ gprs.take 21 ++ [x23] by decide)
  rw [restoreContext_eq, run_append, run_append, run_append, run_append]
  generalize run (run m [.mov x22 r]) ((gprs.take 21 ++ [x23]).map fun r => .ldrPost r x22 8) =
    m₁ at hfirst hmem
  obtain ⟨hlast, -⟩ := run_loads
    (run m₁ [.mov x21 x23, .ldrPost x23 x22 8, .mov x22 x23])
    (show x22 ∉ [x23, x24, x25, x26, x27, x28, x29, x30, x1] by decide)
  have haddr : m₁.x x22 = m.x r + BitVec.ofNat 64 22 * 8 := hfirst
  rw [run_msr_x, hlast, run_move_pointer, haddr, hmem]
  rfl

theorem not_inverse {p : Word} (s : Switch p) : ¬ Inverse s := by
  intro h
  have hslot : load s.after.mem (regsArray p + BitVec.ofNat 64 22 * 8) = s.before.x x22 := by
    rw [load_congr fun x hx => s.kept x (covers_slot (by decide) (by decide) hx), ← s.save_regs]
    exact load_saved_register s.before s.save_free (show 22 < 31 by decide)
  have hrestored := restored_x22 s.after s.restoreOperand
  rw [s.restore_regs, hslot] at hrestored
  have hsame : s.before.x x22 + 72 = s.before.x x22 := hrestored.symm.trans (h.registers x22)
  have hzero := BitVec.add_right_eq_self.mp hsame
  exact absurd hzero (by decide)

end Arm

/-- The words `vs` lie on the stack whose lowest word is at `sp`. -/
def Stacked (m : Memory) : Word → List Word → Prop
  | _, [] => True
  | sp, v :: vs => load m sp = v ∧ Stacked m (sp + 8) vs

theorem Stacked.congr {m m' : Memory} {sp : Word} {vs : List Word} (hlen : 8 * vs.length ≤ 2 ^ 64)
    (hsame : ∀ x, Covers sp (8 * vs.length) x → m' x = m x) (h : Stacked m sp vs) :
    Stacked m' sp vs := by
  induction vs generalizing sp with
  | nil => trivial
  | cons v vs ih =>
      rw [List.length_cons] at hlen hsame
      have hfirst : ∀ x, Covers sp 8 x → m' x = m x := fun x hx =>
        hsame x (lt_of_lt_of_le hx (by omega))
      refine ⟨(load_congr hfirst).trans h.1, ih (by omega) (fun x hx => hsame x ?_) h.2⟩
      have hoffset : (sp + 8 - sp).toNat = 8 := by
        rw [BitVec.add_comm, BitVec.add_sub_cancel]
        rfl
      exact hx.mono hoffset (by omega)

namespace X86

/-- The general registers in the order of their words in `regs`, and `rsp`. -/
inductive Reg
  | rax | rbx | rcx | rdx | rsi | rdi | rbp
  | r8 | r9 | r10 | r11 | r12 | r13 | r14 | r15
  | rsp
  deriving DecidableEq, Repr

open Reg

def Reg.index (r : Reg) : Nat := r.ctorIdx

structure Machine where
  r : Reg → Word
  mem : Memory

def Machine.set (m : Machine) (r : Reg) (v : Word) : Machine :=
  { m with r := Function.update m.r r v }

inductive Instr
  | movStore (src : Reg) (disp : Nat) (base : Reg)
  | lea (disp : Nat) (base dst : Reg)
  | pushMem (disp : Nat) (base : Reg)
  | pop (dst : Reg)
  deriving DecidableEq, Repr

def exec (m : Machine) : Instr → Machine
  | .movStore src disp base =>
      { m with mem := store m.mem (m.r base + BitVec.ofNat 64 disp) (m.r src) }
  | .lea disp base dst => m.set dst (m.r base + BitVec.ofNat 64 disp)
  | .pushMem disp base =>
      { m.set rsp (m.r rsp - 8) with
        mem := store m.mem (m.r rsp - 8) (load m.mem (m.r base + BitVec.ofNat 64 disp)) }
  | .pop dst => (m.set rsp (m.r rsp + 8)).set dst (load m.mem (m.r rsp))

def run (m : Machine) (code : List Instr) : Machine := code.foldl exec m

theorem run_append (m : Machine) (a b : List Instr) : run m (a ++ b) = run (run m a) b :=
  List.foldl_append

def saveContext (r : Reg) : List Instr :=
  [.movStore rax 0 r, .movStore rbx 8 r, .movStore rcx 16 r, .movStore rdx 24 r,
    .movStore rsi 32 r, .movStore rdi 40 r, .movStore rbp 48 r, .movStore r8 56 r,
    .movStore r9 64 r, .movStore r10 72 r, .movStore r11 80 r, .movStore r12 88 r,
    .movStore r13 96 r, .movStore r14 104 r, .movStore r15 112 r,
    .lea 8 rsp rax, .movStore rax 120 r]

def saveClobbers : List Reg := [rax]

def restoreContext (r : Reg) : List Instr :=
  [.pushMem 112 r, .pushMem 104 r, .pushMem 96 r, .pushMem 88 r, .pushMem 80 r, .pushMem 72 r,
    .pushMem 64 r, .pushMem 56 r, .pushMem 40 r, .pushMem 32 r, .pushMem 48 r, .pushMem 16 r,
    .pushMem 24 r, .pushMem 8 r, .pushMem 0 r,
    .pop rax, .pop rbx, .pop rdx, .pop rcx, .pop rbp, .pop rsi, .pop rdi, .pop r8, .pop r9,
    .pop r10, .pop r11, .pop r12, .pop r13, .pop r14, .pop r15]

/-- A save of the process at `p` and a later restore of it. The stack the
restore runs on is not part of the array it reads; what happens in between may
change every register and all memory but the array. -/
structure Switch (p : Word) where
  saveOperand : Reg
  restoreOperand : Reg
  before : Machine
  after : Machine
  save_free : saveOperand ∉ saveClobbers
  restore_free : restoreOperand ≠ rsp
  save_regs : before.r saveOperand = regsArray p
  restore_regs : after.r restoreOperand = regsArray p
  kept : ∀ x, Covers (regsArray p) regsBytes x →
    after.mem x = (run before (saveContext saveOperand)).mem x
  stack : Apart (after.r rsp - 120) 120 (regsArray p) regsBytes

def Switch.saved {p : Word} (s : Switch p) : Machine :=
  run s.before (saveContext s.saveOperand)

def Switch.restored {p : Word} (s : Switch p) : Machine :=
  run s.after (restoreContext s.restoreOperand)

structure Inverse {p : Word} (s : Switch p) : Prop where
  registers : ∀ r, s.restored.r r = s.before.r r
  others : ∀ x, OtherField p x → s.saved.mem x = s.before.mem x

def regAt (i : Nat) : Reg :=
  [rax, rbx, rcx, rdx, rsi, rdi, rbp, r8, r9, r10, r11, r12, r13, r14, r15].getD i rsp

def storeRegister (r : Reg) (i : Nat) : Instr := .movStore (regAt i) (8 * i) r

theorem saveContext_eq (r : Reg) :
    saveContext r =
      (List.range 15).map (storeRegister r) ++ [.lea 8 rsp rax, .movStore rax (8 * 15) r] := rfl

theorem run_storeRegisters (m : Machine) (r : Reg) (n : Nat) :
    run m ((List.range n).map (storeRegister r)) =
      { m with mem := storeArray m.mem (m.r r) (fun i => m.r (regAt i)) n } := by
  induction n with
  | zero => rfl
  | succ n ih =>
      rw [List.range_succ, List.map_append, run_append, ih, storeArray_succ, ← ofNat_mul_eight]
      rfl

theorem run_saveContext_mem (m : Machine) {r : Reg} (hr : r ∉ saveClobbers) :
    (run m (saveContext r)).mem =
      store (storeArray m.mem (m.r r) (fun i => m.r (regAt i)) 15)
        (m.r r + BitVec.ofNat 64 15 * 8) (m.r rsp + 8) := by
  have hne : r ≠ rax := fun h => hr (h ▸ List.mem_singleton_self rax)
  rw [saveContext_eq, run_append, run_storeRegisters, ← ofNat_mul_eight]
  show store _ (Function.update m.r rax _ r + _) (Function.update m.r rax _ rax) = _
  rw [Function.update_of_ne hne]
  rfl

theorem load_saved_register (m : Machine) {r : Reg} (hr : r ∉ saveClobbers) {i : Nat}
    (hi : i < 15) :
    load (run m (saveContext r)).mem (m.r r + BitVec.ofNat 64 i * 8) = m.r (regAt i) := by
  rw [run_saveContext_mem m hr,
    load_store_apart (apart_slots (by omega) (Nat.lt_succ_of_lt hi) (Nat.lt_succ_self 15)
      (by decide)),
    load_storeArray hi (by decide)]

theorem saved_others {p : Word} (s : Switch p) {x : Word} (hx : OtherField p x) :
    s.saved.mem x = s.before.mem x := by
  have hout : ¬ Covers (regsArray p) (15 * 8) x := fun h =>
    hx.2 (lt_of_lt_of_le h (by decide))
  have hlast : ¬ Covers (regsArray p + BitVec.ofNat 64 15 * 8) 8 x := fun h =>
    hx.2 (covers_slot (by decide) (by decide) h)
  rw [Switch.saved, run_saveContext_mem _ s.save_free, s.save_regs, store_of_not_covers hlast,
    storeArray_of_not_covers (by decide) hout]

theorem stacked_push {base : Reg} (d : Nat) (m : Machine) {vs : List Word}
    (hstack : Stacked m.mem (m.r rsp) vs) (hlen : 8 * (vs.length + 1) ≤ 2 ^ 64) :
    Stacked (exec m (.pushMem d base)).mem (m.r rsp - 8)
      (load m.mem (m.r base + BitVec.ofNat 64 d) :: vs) := by
  have hbelow : Apart (m.r rsp) (8 * vs.length) (m.r rsp - 8) 8 := by
    apply apart_of_le_sub
    · rw [show m.r rsp - (m.r rsp - 8) = 8 by ring]
      rfl
    · rw [show m.r rsp - 8 - m.r rsp = -8 by ring]
      have hval : (-8 : Word).toNat = 2 ^ 64 - 8 := rfl
      omega
  refine ⟨load_store_same _ _ _, ?_⟩
  rw [BitVec.sub_add_cancel]
  exact hstack.congr (by omega) fun x hx => store_of_not_covers (hbelow x hx)

theorem run_pushes {base : Reg} (hbase : base ≠ rsp) (ds : List Nat) (m : Machine) (w : Word)
    (vs : List Word) (hsp : m.r rsp = w + BitVec.ofNat 64 (8 * ds.length))
    (hstack : Stacked m.mem (m.r rsp) vs) (hlen : 8 * (ds.length + vs.length) ≤ 2 ^ 64)
    (hread : ∀ d ∈ ds, Apart w (8 * ds.length) (m.r base + BitVec.ofNat 64 d) 8) :
    (run m (ds.map (.pushMem · base))).r rsp = w ∧
      Stacked (run m (ds.map (.pushMem · base))).mem w
        (ds.reverse.map (fun d => load m.mem (m.r base + BitVec.ofNat 64 d)) ++ vs) := by
  induction ds generalizing m vs with
  | nil =>
      have hw : m.r rsp = w := hsp.trans (BitVec.add_zero w)
      rw [hw] at hstack
      exact ⟨hw, hstack⟩
  | cons d ds ih =>
      rw [List.length_cons] at hsp hlen hread
      have htop : m.r rsp - 8 = w + BitVec.ofNat 64 (8 * ds.length) := by
        rw [hsp, Nat.mul_succ, BitVec.ofNat_add, ← BitVec.add_assoc]
        exact BitVec.add_sub_cancel _ _
      have hnew : ∀ x, Covers (m.r rsp - 8) 8 x → Covers w (8 * (ds.length + 1)) x := by
        intro x hx
        rw [htop, ofNat_mul_eight] at hx
        exact covers_slot (by omega) (by omega) hx
      have hkept : ∀ d' ∈ ds, load (exec m (.pushMem d base)).mem (m.r base + BitVec.ofNat 64 d') =
          load m.mem (m.r base + BitVec.ofNat 64 d') := by
        intro d' hd'
        apply load_store_apart
        intro x hx hx'
        exact hread d' (List.mem_cons_of_mem d hd') x (hnew x hx') hx
      have hbase' : (exec m (.pushMem d base)).r base = m.r base :=
        Function.update_of_ne hbase _ _
      have hsp' : (exec m (.pushMem d base)).r rsp = m.r rsp - 8 := rfl
      have hpushed := @stacked_push base d m vs hstack (by omega)
      have hrest : ∀ d' ∈ ds, Apart w (8 * ds.length)
          ((exec m (.pushMem d base)).r base + BitVec.ofNat 64 d') 8 := by
        intro d' hd' x hx
        rw [hbase']
        exact hread d' (List.mem_cons_of_mem d hd') x (lt_of_lt_of_le hx (by omega))
      obtain ⟨hend, hall⟩ := ih (exec m (.pushMem d base)) _ (hsp'.trans htop) (hsp' ▸ hpushed)
        (by rw [List.length_cons]; omega) hrest
      refine ⟨hend, ?_⟩
      rw [List.reverse_cons, List.map_append, List.append_assoc]
      have hvalues : ds.reverse.map (fun d' => load m.mem (m.r base + BitVec.ofNat 64 d')) =
          ds.reverse.map (fun d' => load (exec m (.pushMem d base)).mem
            ((exec m (.pushMem d base)).r base + BitVec.ofNat 64 d')) := by
        apply List.map_congr_left
        intro d' hd'
        rw [hbase', hkept d' (List.mem_reverse.mp hd')]
      rw [hvalues]
      exact hall

theorem run_pops (f : Reg → Word) (rs : List Reg) (m : Machine) (hnodup : rs.Nodup)
    (hrsp : rsp ∉ rs) (hstack : Stacked m.mem (m.r rsp) (rs.map f)) :
    (run m (rs.map .pop)).r rsp = m.r rsp + BitVec.ofNat 64 (8 * rs.length) ∧
      (∀ r, r ∉ rs → r ≠ rsp → (run m (rs.map .pop)).r r = m.r r) ∧
      ∀ r ∈ rs, (run m (rs.map .pop)).r r = f r := by
  induction rs generalizing m with
  | nil =>
      exact ⟨(BitVec.add_zero _).symm, fun _ _ _ => rfl, fun r hr => absurd hr List.not_mem_nil⟩
  | cons r rs ih =>
      rw [List.nodup_cons] at hnodup
      rw [List.mem_cons, not_or] at hrsp
      have hsp : (exec m (.pop r)).r rsp = m.r rsp + 8 := by
        show Function.update (Function.update m.r rsp (m.r rsp + 8)) r _ rsp = _
        rw [Function.update_of_ne hrsp.1, Function.update_self]
      have hpopped : (exec m (.pop r)).r r = f r := by
        show Function.update (Function.update m.r rsp (m.r rsp + 8)) r _ r = _
        rw [Function.update_self]
        exact hstack.1
      obtain ⟨hend, hframe, hvalues⟩ := ih (exec m (.pop r)) hnodup.2 hrsp.2
        (by rw [hsp]; exact hstack.2)
      refine ⟨?_, ?_, ?_⟩
      · show (run (exec m (.pop r)) (rs.map .pop)).r rsp = _
        rw [hend, hsp, List.length_cons, Nat.mul_succ, Nat.add_comm (8 * rs.length),
          BitVec.ofNat_add, ← BitVec.add_assoc]
        rfl
      · intro r' hr' hne
        rw [List.mem_cons, not_or] at hr'
        have hother : (exec m (.pop r)).r r' = m.r r' := by
          show Function.update (Function.update m.r rsp (m.r rsp + 8)) r _ r' = _
          rw [Function.update_of_ne hr'.1, Function.update_of_ne hne]
        exact (hframe r' hr'.2 hne).trans hother
      · intro r' hr'
        rcases List.mem_cons.mp hr' with rfl | hr'
        · exact (hframe r' hnodup.1 (Ne.symm hrsp.1)).trans hpopped
        · exact hvalues r' hr'

def restoreOrder : List Reg :=
  [rax, rbx, rdx, rcx, rbp, rsi, rdi, r8, r9, r10, r11, r12, r13, r14, r15]

theorem restoreContext_eq (r : Reg) :
    restoreContext r =
      ((restoreOrder.map fun g => 8 * g.index).reverse.map (.pushMem · r)) ++
        restoreOrder.map .pop := rfl

theorem index_lt_of_mem {r : Reg} (h : r ∈ restoreOrder) : r.index < 15 := by
  revert h
  cases r <;> decide

theorem mem_restoreOrder {r : Reg} (h : r ≠ rsp) : r ∈ restoreOrder := by
  revert h
  cases r <;> decide

theorem regAt_index {r : Reg} (h : r ≠ rsp) : regAt r.index = r := by
  revert h
  cases r <;> decide

/-- Every general register is loaded from its word of the array, and the stack
pointer is the one the restore was entered with. -/
theorem restored_registers {p : Word} (s : Switch p) :
    s.restored.r rsp = s.after.r rsp ∧
      ∀ r, r ≠ rsp →
        s.restored.r r = load s.after.mem (regsArray p + BitVec.ofNat 64 r.index * 8) := by
  have hsp : s.after.r rsp = s.after.r rsp - 120 +
      BitVec.ofNat 64 (8 * (restoreOrder.map fun g => 8 * g.index).reverse.length) :=
    (BitVec.sub_add_cancel _ _).symm
  have hread : ∀ d ∈ (restoreOrder.map fun g => 8 * g.index).reverse,
      Apart (s.after.r rsp - 120) (8 * (restoreOrder.map fun g => 8 * g.index).reverse.length)
        (s.after.r s.restoreOperand + BitVec.ofNat 64 d) 8 := by
    intro d hd x hx hx'
    obtain ⟨g, hg, rfl⟩ := List.mem_map.mp (List.mem_reverse.mp hd)
    have hindex := index_lt_of_mem hg
    rw [s.restore_regs, ofNat_mul_eight] at hx'
    exact s.stack x hx (covers_slot (by rw [regsBytes]; omega) (by decide) hx')
  obtain ⟨hlow, hstacked⟩ := run_pushes s.restore_free _ s.after _ [] hsp trivial (by decide) hread
  rw [List.append_nil, List.reverse_reverse, List.map_map, ← hlow] at hstacked
  obtain ⟨hend, -, hvalues⟩ := run_pops _ restoreOrder _ (by decide) (by decide) hstacked
  rw [hlow] at hend
  rw [Switch.restored, restoreContext_eq, run_append]
  refine ⟨hend.trans (BitVec.sub_add_cancel _ _), ?_⟩
  intro r hr
  rw [hvalues r (mem_restoreOrder hr), ← s.restore_regs, ← ofNat_mul_eight]
  rfl

theorem restored_general {p : Word} (s : Switch p) {r : Reg} (hr : r ≠ rsp) :
    s.restored.r r = s.before.r r := by
  have hindex := index_lt_of_mem (mem_restoreOrder hr)
  rw [(restored_registers s).2 r hr,
    load_congr fun x hx => s.kept x (covers_slot (by rw [regsBytes]; omega) (by decide) hx),
    ← s.save_regs,
    load_saved_register s.before s.save_free hindex, regAt_index hr]

theorem inverse_iff {p : Word} (s : Switch p) :
    Inverse s ↔ s.after.r rsp = s.before.r rsp := by
  have hrsp := (restored_registers s).1
  constructor
  · intro h
    exact hrsp.symm.trans (h.registers rsp)
  · intro hsame
    refine ⟨fun r => ?_, fun x hx => saved_others s hx⟩
    by_cases hr : r = rsp
    · rw [hr, hrsp, hsame]
    · exact restored_general s hr

end X86

/-- A save and a later restore of the process at `p`, on either architecture. -/
inductive Switch (p : Word) where
  | arm64 (s : Arm.Switch p)
  | x86 (s : X86.Switch p)

def Inverse {p : Word} : Switch p → Prop
  | .arm64 s => Arm.Inverse s
  | .x86 s => X86.Inverse s

/-- The two sequences are inverse exactly on x86_64 when the stack pointer at the
restore is the one of the save. -/
theorem saveContext_restoreContext_inverse_iff (p : Word) (s : Switch p) :
    Inverse s ↔ ∃ t : X86.Switch p, s = .x86 t ∧ t.after.r .rsp = t.before.r .rsp := by
  cases s with
  | arm64 s =>
      constructor
      · exact fun h => absurd h (Arm.not_inverse s)
      · rintro ⟨t, ht, -⟩
        cases ht
  | x86 s =>
      constructor
      · exact fun h => ⟨s, rfl, (X86.inverse_iff s).mp h⟩
      · rintro ⟨t, ht, hsame⟩
        cases ht
        exact (X86.inverse_iff s).mpr hsame

/-- A process in a cleared memory, saved and restored with all registers holding
the address of its array. -/
def idleMachine : ArmInstructions.Machine where
  x := fun _ => regsArray 0x300000
  sp := 0
  mem := fun _ => 0
  sys := fun _ => 0

def idleSwitch : Arm.Switch 0x300000 where
  saveOperand := .x0
  restoreOperand := .x0
  before := idleMachine
  after := { idleMachine with mem := (Arm.run idleMachine (Arm.saveContext .x0)).mem }
  save_free := by decide
  restore_free := by decide
  save_regs := rfl
  restore_regs := rfl
  kept := fun _ _ => rfl

/-- On arm64 the pointer register `x22` comes back nine words too high. -/
theorem saveContext_restoreContext_not_inverse :
    ¬ ∀ (p : Word) (s : Switch p), Inverse s :=
  fun h => Arm.not_inverse idleSwitch (h 0x300000 (.arm64 idleSwitch))

end ShlteOs.ContextRegisters
