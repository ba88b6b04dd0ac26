import ShlteOs.ArmInstructions
import ShlteOs.ConsoleOutput
import ShlteOs.MachineCode

/-!
The early console of `boot.S` on AArch64: `early_putchar` and `early_putstr`, one
after the other as they are assembled.  The inner call overwrites the link register
of `early_putstr` and its string pointer, so that it returns to its caller for the
empty string only.
-/

namespace ShlteOs.ArmConsole

open ShlteOs.ByteMemory
open ShlteOs.ArmInstructions (Gpr Reg)
open ShlteOs.ArmInstructions.Gpr
open ShlteOs.ArmInstructions.Reg (xzr)
open ShlteOs.MachineCode
open ShlteOs.ConsoleOutput (consoleText StringAt)

section Machine

/-- The registers of a PL011, as reads at a point of time return them. -/
structure Uart where
  read : Nat → Word → BitVec 32

def uartBase : Word := 0x09000000

def uartFr : Word := 0x18

def frTxff : BitVec 32 := 0x20

/-- The transmit FIFO is never full. -/
def Uart.Ready (uart : Uart) : Prop := ∀ time, uart.read time uartFr &&& frTxff = 0

/-- Accesses to these addresses go to the port and not to the memory. -/
def InUart (a : Word) : Prop := Covers uartBase 0x1000 a

instance (a : Word) : Decidable (InUart a) := inferInstanceAs (Decidable (Covers _ _ _))

/-- The registers the code uses, the zero flag, the memory, the bytes the port was given,
and the time its flags depend on. -/
structure Machine where
  x : Gpr → Word
  z : Bool
  pc : Word
  mem : Memory
  sent : List Byte
  time : Nat

def Machine.write (m : Machine) (r : Gpr) (v : Word) : Machine :=
  { m with x := Function.update m.x r v }

def Machine.goTo (m : Machine) (pc : Word) : Machine := { m with pc := pc, time := m.time + 1 }

def Machine.read (m : Machine) : Reg → Word
  | .gpr r => m.x r
  | .xzr => 0

@[simp] theorem Machine.write_self (m : Machine) (r : Gpr) (v : Word) : (m.write r v).x r = v := by
  simp [Machine.write]

theorem Machine.write_of_ne (m : Machine) {r r' : Gpr} (v : Word) (h : r' ≠ r) :
    (m.write r v).x r' = m.x r' := by
  simp [Machine.write, h]

@[simp] theorem Machine.goTo_x (m : Machine) (pc : Word) : (m.goTo pc).x = m.x := rfl

def loadWord32 (uart : Uart) (m : Machine) (a : Word) : BitVec 32 :=
  if InUart a then uart.read m.time (a - uartBase)
  else m.mem (a + 3) ++ m.mem (a + 2) ++ m.mem (a + 1) ++ m.mem a

def loadByte (uart : Uart) (m : Machine) (a : Word) : Byte :=
  if InUart a then (uart.read m.time (a - uartBase)).setWidth 8 else m.mem a

/-- A store to the data register sends its low byte. -/
def storeWord32 (m : Machine) (a : Word) (v : BitVec 32) : Machine :=
  if InUart a then
    if a = uartBase then { m with sent := m.sent ++ [v.setWidth 8] } else m
  else
    { m with mem := fun b => if Covers a 4 b then v.extractLsb' (8 * (b - a).toNat) 8 else m.mem b }

/-- The instructions of the two early console functions; a target is a place of the
code. -/
inductive Instr
  | movImm (rd : Gpr) (imm : Word)
  | mov (rd rn : Gpr)
  | ldrW (rt rn : Gpr) (offset : Word)
  | ldrbPost (rt rn : Gpr) (imm : Word)
  | strW (rt : Reg) (rn : Gpr) (offset : Word)
  | andW (rd rn : Gpr) (imm : BitVec 32)
  | cmpW (rn : Gpr) (imm : BitVec 32)
  | bne (target : Nat)
  | b (target : Nat)
  | cbnzW (rt : Gpr) (target : Nat)
  | cbzW (rt : Gpr) (target : Nat)
  | bl (target : Nat)
  | ret
  deriving DecidableEq, Repr

/-- The instruction at place `i`. -/
def exec (uart : Uart) (addr : Nat → Word) (i : Nat) (instr : Instr) (m : Machine) : Machine :=
  match instr with
  | .movImm rd imm => (m.write rd imm).goTo (addr (i + 1))
  | .mov rd rn => (m.write rd (m.x rn)).goTo (addr (i + 1))
  | .ldrW rt rn offset =>
      (m.write rt ((loadWord32 uart m (m.x rn + offset)).setWidth 64)).goTo (addr (i + 1))
  | .ldrbPost rt rn imm =>
      ((m.write rt ((loadByte uart m (m.x rn)).setWidth 64)).write rn (m.x rn + imm)).goTo
        (addr (i + 1))
  | .strW rt rn offset =>
      (storeWord32 m (m.x rn + offset) ((m.read rt).setWidth 32)).goTo (addr (i + 1))
  | .andW rd rn imm =>
      (m.write rd (((m.x rn).setWidth 32 &&& imm).setWidth 64)).goTo (addr (i + 1))
  | .cmpW rn imm => { m with z := (m.x rn).setWidth 32 == imm }.goTo (addr (i + 1))
  | .bne target => m.goTo (if m.z then addr (i + 1) else addr target)
  | .b target => m.goTo (addr target)
  | .cbnzW rt target =>
      m.goTo (if (m.x rt).setWidth 32 = (0 : BitVec 32) then addr (i + 1) else addr target)
  | .cbzW rt target =>
      m.goTo (if (m.x rt).setWidth 32 = (0 : BitVec 32) then addr target else addr (i + 1))
  | .bl target => (m.write x30 (addr (i + 1))).goTo (addr target)
  | .ret => m.goTo (m.x x30)

end Machine

section Code

/-- Both labels in front of the second wait are `2:` and `1:`; the branch for other
characters than newline leads there, behind the load of `x3`. -/
def earlyPutchar : List Instr :=
  [.movImm x1 0x09000000,
    .ldrW x2 x1 0x18,
    .andW x2 x2 0x20,
    .cbnzW x2 1,
    .cmpW x0 10,
    .bne 7,
    .movImm x3 0x09000000,
    .ldrW x2 x3 0x18,
    .andW x2 x2 0x20,
    .cbnzW x2 7,
    .strW xzr x3 0,
    .ldrW x2 x1 0x18,
    .andW x2 x2 0x20,
    .cbnzW x2 11,
    .strW x0 x1 0,
    .ret]

/-- `early_putstr` follows at place 16. -/
def earlyPutstr : List Instr :=
  [.mov x1 x0,
    .ldrbPost x2 x1 1,
    .cbzW x2 22,
    .mov x0 x2,
    .bl 0,
    .b 17,
    .ret]

/-- The two functions as they stand in the image, one behind the other. -/
def consoleCode : List Instr := earlyPutchar ++ earlyPutstr

def putstrEntry : Nat := 16

/-- Behind the `bl` of `early_putstr`. -/
def behindCall : Nat := 21

end Code

section Link

/-- The instruction leaves the link register alone, or is the `bl` in front of
`link`, and leads to one of `n` places or returns. -/
def keepsInside (n link i : Nat) : Instr → Bool
  | .movImm rd _ | .mov rd _ | .ldrW rd _ _ | .andW rd _ _ => rd ≠ x30 ∧ i + 1 < n
  | .ldrbPost rt rn _ => rt ≠ x30 ∧ rn ≠ x30 ∧ i + 1 < n
  | .strW _ _ _ | .cmpW _ _ => i + 1 < n
  | .bne target | .cbnzW _ target | .cbzW _ target => target < n ∧ i + 1 < n
  | .b target => target < n
  | .bl target => target < n ∧ i + 1 = link
  | .ret => true

/-- The machine is inside the code and will return to place `link`. -/
def Inside (addr : Nat → Word) (n link : Nat) (m : Machine) : Prop :=
  m.x x30 = addr link ∧ ∃ i < n, m.pc = addr i

theorem storeWord32_x (m : Machine) (a : Word) (v : BitVec 32) : (storeWord32 m a v).x = m.x := by
  rw [storeWord32]
  split_ifs
  · rfl
  · rfl
  · rfl

variable {uart : Uart} {addr : Nat → Word} {n link i : Nat}

theorem Inside.exec {instr : Instr} {m : Machine} (h : Inside addr n link m) (hlink : link < n)
    (hkeeps : keepsInside n link i instr = true) :
    Inside addr n link (exec uart addr i instr m) := by
  obtain ⟨hx30, -⟩ := h
  have hwrite : ∀ (r : Gpr) (v : Word), r ≠ x30 → (m.write r v).x x30 = addr link :=
    fun r v hr => (m.write_of_ne v (Ne.symm hr)).trans hx30
  cases instr with
  | movImm rd imm =>
      obtain ⟨hrd, hi⟩ := of_decide_eq_true hkeeps
      exact ⟨hwrite rd _ hrd, _, hi, rfl⟩
  | mov rd rn =>
      obtain ⟨hrd, hi⟩ := of_decide_eq_true hkeeps
      exact ⟨hwrite rd _ hrd, _, hi, rfl⟩
  | ldrW rt rn offset =>
      obtain ⟨hrt, hi⟩ := of_decide_eq_true hkeeps
      exact ⟨hwrite rt _ hrt, _, hi, rfl⟩
  | ldrbPost rt rn imm =>
      obtain ⟨hrt, hrn, hi⟩ := of_decide_eq_true hkeeps
      exact ⟨(Machine.write_of_ne _ _ (Ne.symm hrn)).trans (hwrite rt _ hrt), _, hi, rfl⟩
  | strW rt rn offset =>
      have hi := of_decide_eq_true hkeeps
      exact ⟨(congrFun (storeWord32_x _ _ _) x30).trans hx30, _, hi, rfl⟩
  | andW rd rn imm =>
      obtain ⟨hrd, hi⟩ := of_decide_eq_true hkeeps
      exact ⟨hwrite rd _ hrd, _, hi, rfl⟩
  | cmpW rn imm =>
      have hi := of_decide_eq_true hkeeps
      exact ⟨hx30, _, hi, rfl⟩
  | bne target =>
      obtain ⟨htarget, hi⟩ := of_decide_eq_true hkeeps
      refine ⟨hx30, ?_⟩
      rw [ArmConsole.exec, Machine.goTo]
      split_ifs
      · exact ⟨_, hi, rfl⟩
      · exact ⟨_, htarget, rfl⟩
  | b target => exact ⟨hx30, _, of_decide_eq_true hkeeps, rfl⟩
  | cbnzW rt target =>
      obtain ⟨htarget, hi⟩ := of_decide_eq_true hkeeps
      refine ⟨hx30, ?_⟩
      rw [ArmConsole.exec, Machine.goTo]
      split_ifs
      · exact ⟨_, hi, rfl⟩
      · exact ⟨_, htarget, rfl⟩
  | cbzW rt target =>
      obtain ⟨htarget, hi⟩ := of_decide_eq_true hkeeps
      refine ⟨hx30, ?_⟩
      rw [ArmConsole.exec, Machine.goTo]
      split_ifs
      · exact ⟨_, htarget, rfl⟩
      · exact ⟨_, hi, rfl⟩
  | bl target =>
      obtain ⟨htarget, hi⟩ := of_decide_eq_true hkeeps
      exact ⟨(m.write_self x30 _).trans (congrArg addr hi), _, htarget, rfl⟩
  | ret => exact ⟨hx30, link, hlink, hx30⟩

theorem keepsInside_consoleCode : ∀ i < consoleCode.length, ∀ instr ∈ consoleCode[i]?,
    keepsInside consoleCode.length behindCall i instr = true := by decide

end Link

/-- A call of `early_putstr` for a string in ordinary memory, from outside of the
console code. -/
structure PutstrCall (c : Code Word Instr) (m : Machine) (s : List Byte) : Prop where
  instrs : c.instrs = consoleCode
  pc : m.pc = c.addr putstrEntry
  string : StringAt m.mem (m.x x0) s
  ordinary : ∀ i ≤ s.length, ¬ InUart (m.x x0 + BitVec.ofNat 64 i)
  caller : c.Outside (m.x x30)

/-- The call sends the text of the string and returns. -/
def Emits (uart : Uart) (c : Code Word Instr) (m : Machine) (s : List Byte) : Prop :=
  ∃ t, Reaches c Machine.pc (exec uart c.addr) m t ∧ t.pc = m.x x30 ∧
    t.sent = m.sent ++ consoleText s

section Runs

variable {uart : Uart} {c : Code Word Instr} {m : Machine} {s : List Byte}

theorem instrs_at (h : PutstrCall c m s) (i : Nat) : c.instrs[i]? = consoleCode[i]? := by
  rw [h.instrs]

theorem step_inside (h : c.instrs = consoleCode) {t : Machine}
    (ht : Inside c.addr consoleCode.length behindCall t) :
    Inside c.addr consoleCode.length behindCall (step c Machine.pc (exec uart c.addr) t) := by
  have hinside := ht
  obtain ⟨-, i, hi, hpc⟩ := ht
  obtain ⟨instr, hinstr⟩ : ∃ instr, consoleCode[i]? = some instr :=
    ⟨_, List.getElem?_eq_getElem hi⟩
  rw [step_eq hpc (by rw [h, hinstr])]
  exact hinside.exec (by decide) (keepsInside_consoleCode i hi instr hinstr)

/-- The first character of the string, read twice: into `w2`, and from there into
`x0`. -/
def afterLoad (uart : Uart) (addr : Nat → Word) (m : Machine) : Machine :=
  exec uart addr 17 (.ldrbPost x2 x1 1) (exec uart addr 16 (.mov x1 x0) m)

theorem afterLoad_x30 (uart : Uart) (addr : Nat → Word) (m : Machine) :
    (afterLoad uart addr m).x x30 = m.x x30 := by
  simp [afterLoad, exec, Machine.write_of_ne]

theorem afterLoad_x2 (addr : Nat → Word) (h : ¬ InUart (m.x x0)) :
    (afterLoad uart addr m).x x2 = (m.mem (m.x x0)).setWidth 64 := by
  have hload : loadByte uart (exec uart addr 16 (.mov x1 x0) m) (m.x x0) = m.mem (m.x x0) :=
    if_neg h
  rw [← hload]
  simp [afterLoad, exec, Machine.write_of_ne]

theorem setWidth_char_eq_zero (b : Byte) :
    (b.setWidth 64).setWidth 32 = (0 : BitVec 32) ↔ b = 0 := by
  rw [BitVec.setWidth_setWidth_of_le _ (by decide)]
  constructor
  · intro hzero
    have hval := congrArg BitVec.toNat hzero
    have hzero' : (0 : BitVec 32).toNat = 0 := rfl
    have hlt := b.isLt
    rw [BitVec.toNat_setWidth, hzero'] at hval
    exact BitVec.eq_of_toNat_eq (by rw [show (0 : Byte).toNat = 0 from rfl]; omega)
  · rintro rfl
    rfl

theorem exec_cbz_afterLoad (uart : Uart) (addr : Nat → Word) (h : ¬ InUart (m.x x0)) :
    exec uart addr 18 (.cbzW x2 22) (afterLoad uart addr m) =
      (afterLoad uart addr m).goTo (if m.mem (m.x x0) = 0 then addr 22 else addr 19) := by
  rw [exec, afterLoad_x2 addr h]
  simp only [setWidth_char_eq_zero]

theorem PutstrCall.not_inUart (h : PutstrCall c m s) : ¬ InUart (m.x x0) := by
  have hordinary := h.ordinary 0 (Nat.zero_le _)
  rwa [BitVec.add_zero] at hordinary

theorem reaches_afterLoad (h : PutstrCall c m s) {t : Machine}
    (ht : Reaches c Machine.pc (exec uart c.addr) (afterLoad uart c.addr m) t) :
    Reaches c Machine.pc (exec uart c.addr) m t := by
  refine .head h.pc (instrs_at h 16) (.head (i := 17) rfl (instrs_at h 17) ht)

theorem emits_nil (h : PutstrCall c m []) : Emits uart c m [] := by
  have hcbz := exec_cbz_afterLoad uart c.addr h.not_inUart
  rw [if_pos (show m.mem (m.x x0) = 0 from h.string)] at hcbz
  refine ⟨((afterLoad uart c.addr m).goTo (c.addr 22)).goTo
    (((afterLoad uart c.addr m).goTo (c.addr 22)).x x30), ?_, ?_, ?_⟩
  · refine reaches_afterLoad h (.head (i := 18) rfl (instrs_at h 18) ?_)
    rw [hcbz]
    exact .head (i := 22) rfl (instrs_at h 22) (.refl _)
  · exact afterLoad_x30 uart c.addr m
  · exact (List.append_nil _).symm

/-- The states of a call for a string that is not empty: up to the inner call, and
then inside of the code for ever. -/
def Started (uart : Uart) (addr : Nat → Word) (m t : Machine) : Prop :=
  t ∈ [m, exec uart addr 16 (.mov x1 x0) m, afterLoad uart addr m,
      (afterLoad uart addr m).goTo (addr 19),
      exec uart addr 19 (.mov x0 x2) ((afterLoad uart addr m).goTo (addr 19))] ∨
    Inside addr consoleCode.length behindCall t

theorem step_started (h : PutstrCall c m s) (hs : s ≠ []) {t : Machine}
    (ht : Started uart c.addr m t) :
    Started uart c.addr m (step c Machine.pc (exec uart c.addr) t) := by
  have hat := instrs_at h
  have hstep : ∀ (t : Machine) (i : Nat) (instr : Instr), t.pc = c.addr i →
      c.instrs[i]? = some instr →
      step c Machine.pc (exec uart c.addr) t = exec uart c.addr i instr t :=
    fun _ _ _ hpc hi => step_eq hpc hi
  have hchar : m.mem (m.x x0) ≠ 0 := by
    obtain ⟨b, s, rfl⟩ := List.exists_cons_of_ne_nil hs
    obtain ⟨hbyte, hne, -⟩ := h.string
    rw [hbyte]
    exact hne
  have hcbz := exec_cbz_afterLoad uart c.addr h.not_inUart
  rw [if_neg hchar] at hcbz
  rcases ht with ht | ht
  · simp only [List.mem_cons, List.not_mem_nil, or_false] at ht
    rcases ht with ht | rfl | rfl | rfl | rfl
    · rw [ht, hstep m 16 _ h.pc (hat 16)]
      exact .inl (by simp)
    · rw [hstep _ 17 _ rfl (hat 17)]
      exact .inl (by simp [afterLoad])
    · rw [hstep _ 18 _ rfl (hat 18), hcbz]
      exact .inl (by simp)
    · rw [hstep _ 19 _ rfl (hat 19)]
      exact .inl (by simp)
    · rw [hstep _ 20 _ rfl (hat 20)]
      exact .inr ⟨by simp [exec, behindCall], 0, by decide, rfl⟩
  · exact .inr (step_inside h.instrs ht)

theorem started_inside (h : PutstrCall c m s) {t : Machine} (ht : Started uart c.addr m t) :
    ∃ i < c.instrs.length, t.pc = c.addr i := by
  rw [h.instrs]
  rcases ht with ht | ⟨-, hpc⟩
  · simp only [List.mem_cons, List.not_mem_nil, or_false] at ht
    rcases ht with rfl | rfl | rfl | rfl | rfl
    · exact ⟨16, by decide, h.pc⟩
    · exact ⟨17, by decide, rfl⟩
    · exact ⟨18, by decide, rfl⟩
    · exact ⟨19, by decide, rfl⟩
    · exact ⟨20, by decide, rfl⟩
  · exact hpc

theorem never_returns (h : PutstrCall c m s) (hs : s ≠ []) {t : Machine}
    (ht : Reaches c Machine.pc (exec uart c.addr) m t) : t.pc ≠ m.x x30 := by
  have hstarted : Started uart c.addr m t :=
    ht.invariant (I := Started uart c.addr m) (fun _ => step_started h hs) (.inl (by simp))
  obtain ⟨i, hi, hpc⟩ := started_inside h hstarted
  rw [hpc]
  exact h.caller i hi

theorem putstr_emits_iff (h : PutstrCall c m s) : Emits uart c m s ↔ s = [] := by
  constructor
  · rintro ⟨t, ht, hpc, -⟩
    by_contra hs
    exact never_returns h hs ht hpc
  · rintro rfl
    exact emits_nil h

end Runs

end ShlteOs.ArmConsole
