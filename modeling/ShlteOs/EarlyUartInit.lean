import ShlteOs.ArmConsole

/-!
The wait at the start of `early_uart_init` in `boot.S`, the first call of `_start` on
AArch64.  It is meant to last while the port is busy; its branch is taken while the
BUSY flag is clear, so that a port with nothing to send is waited for.
-/

namespace ShlteOs.EarlyUartInit

open ShlteOs.ByteMemory
open ShlteOs.ArmInstructions (Gpr)
open ShlteOs.ArmInstructions.Gpr
open ShlteOs.MachineCode
open ShlteOs.ArmConsole

/-- The instructions of the early console, and the test of one bit. -/
inductive WaitInstr
  | plain (instr : Instr)
  | tbzW (rt : Gpr) (bit target : Nat)
  deriving DecidableEq, Repr

/-- `tbz` jumps while the bit is clear. -/
def execWait (uart : Uart) (addr : Nat → Word) (i : Nat) (instr : WaitInstr) (m : Machine) :
    Machine :=
  match instr with
  | .plain instr => exec uart addr i instr m
  | .tbzW rt bit target =>
      m.goTo (if (m.x rt).getLsbD bit then addr (i + 1) else addr target)

/-- `early_uart_init` up to its first store. -/
def earlyUartWait : List WaitInstr :=
  [.plain (.movImm x0 0x09000000),
    .plain (.ldrW x1 x0 0x18),
    .tbzW x1 3 1]

/-- The port is sending, as the flag register read at this time says. -/
def busyAt (uart : Uart) (time : Nat) : Bool := (uart.read time uartFr).getLsbD 3

section Rounds

variable {uart : Uart} {c : Code Word WaitInstr}

theorem instrs_at (hcode : c.instrs = earlyUartWait) (i : Nat) :
    c.instrs[i]? = earlyUartWait[i]? := by
  rw [hcode]

theorem loadWord32_fr (uart : Uart) {m : Machine} (hx0 : m.x x0 = uartBase) :
    loadWord32 uart m (m.x x0 + 0x18) = uart.read m.time uartFr := by
  rw [loadWord32, hx0, if_pos (by decide)]
  rfl

theorem getLsbD_ldrW (uart : Uart) (addr : Nat → Word) {m : Machine} (hx0 : m.x x0 = uartBase) :
    ((execWait uart addr 1 (.plain (.ldrW x1 x0 0x18)) m).x x1).getLsbD 3 =
      busyAt uart m.time := by
  rw [execWait, exec, Machine.goTo_x, Machine.write_self, loadWord32_fr uart hx0,
    BitVec.getLsbD_setWidth, busyAt]
  rfl

theorem ldrW_x0 (uart : Uart) (addr : Nat → Word) (m : Machine) :
    (execWait uart addr 1 (.plain (.ldrW x1 x0 0x18)) m).x x0 = m.x x0 := by
  rw [execWait, exec, Machine.goTo_x]
  exact Machine.write_of_ne m _ (by decide)

theorem turn_pc (uart : Uart) (addr : Nat → Word) {m : Machine} (hx0 : m.x x0 = uartBase) :
    (execWait uart addr 2 (.tbzW x1 3 1)
        (execWait uart addr 1 (.plain (.ldrW x1 x0 0x18)) m)).pc =
      if busyAt uart m.time then addr 3 else addr 1 := by
  rw [← getLsbD_ldrW uart addr hx0]
  rfl

theorem reaches_turn (hcode : c.instrs = earlyUartWait) {m : Machine} (hpc : m.pc = c.addr 1) :
    Reaches c Machine.pc (execWait uart c.addr) m (execWait uart c.addr 2 (.tbzW x1 3 1)
      (execWait uart c.addr 1 (.plain (.ldrW x1 x0 0x18)) m)) :=
  .head hpc (instrs_at hcode 1) (.head (i := 2) rfl (instrs_at hcode 2) (.refl _))

theorem reaches_of_busy (hcode : c.instrs = earlyUartWait) {n : Nat} {m : Machine}
    (hpc : m.pc = c.addr 1) (hx0 : m.x x0 = uartBase)
    (hbusy : busyAt uart (m.time + 2 * n) = true) :
    ∃ t, Reaches c Machine.pc (execWait uart c.addr) m t ∧ t.pc = c.addr 3 := by
  induction n generalizing m with
  | zero =>
      have hnow : busyAt uart m.time = true := hbusy
      refine ⟨_, reaches_turn hcode hpc, ?_⟩
      rw [turn_pc uart c.addr hx0, hnow]
      rfl
  | succ n ih =>
      obtain ⟨m₂, hm₂⟩ : ∃ t, execWait uart c.addr 2 (.tbzW x1 3 1)
          (execWait uart c.addr 1 (.plain (.ldrW x1 x0 0x18)) m) = t := ⟨_, rfl⟩
      have hturn : Reaches c Machine.pc (execWait uart c.addr) m m₂ := by
        rw [← hm₂]
        exact reaches_turn hcode hpc
      have hpc₂ : m₂.pc = if busyAt uart m.time then c.addr 3 else c.addr 1 := by
        rw [← hm₂]
        exact turn_pc uart c.addr hx0
      cases hnow : busyAt uart m.time with
      | true =>
          rw [hnow] at hpc₂
          exact ⟨m₂, hturn, hpc₂⟩
      | false =>
          have hx0₂ : m₂.x x0 = uartBase := by
            rw [← hm₂]
            exact (ldrW_x0 uart c.addr m).trans hx0
          have htime : m₂.time + 2 * n = m.time + 2 * (n + 1) := by
            have htwo : m₂.time = m.time + 2 := by rw [← hm₂]; rfl
            omega
          rw [hnow] at hpc₂
          obtain ⟨t, hreach, htpc⟩ := ih hpc₂ hx0₂ (by rw [htime]; exact hbusy)
          exact ⟨t, hturn.trans hreach, htpc⟩

/-- Where the machine is while every read so far has found the flag clear. -/
inductive Waiting (uart : Uart) (c : Code Word WaitInstr) (start : Nat) (m : Machine) : Prop
  | entered (hpc : m.pc = c.addr 0) (htime : m.time = start)
  | reading (n : Nat) (hpc : m.pc = c.addr 1) (hx0 : m.x x0 = uartBase)
      (htime : m.time = start + 1 + 2 * n)
  | testing (n : Nat) (hpc : m.pc = c.addr 2) (hx0 : m.x x0 = uartBase)
      (htime : m.time = start + 2 + 2 * n) (hclear : (m.x x1).getLsbD 3 = false)

theorem waiting_step (hcode : c.instrs = earlyUartWait) {start : Nat}
    (hidle : ∀ n, busyAt uart (start + 1 + 2 * n) = false) (m : Machine)
    (h : Waiting uart c start m) :
    Waiting uart c start (step c Machine.pc (execWait uart c.addr) m) := by
  cases h with
  | entered hpc htime =>
      rw [step_eq hpc (instrs_at hcode 0)]
      refine .reading 0 rfl (Machine.write_self m x0 _) ?_
      show m.time + 1 = start + 1 + 2 * 0
      omega
  | reading n hpc hx0 htime =>
      rw [step_eq hpc (instrs_at hcode 1)]
      refine .testing n rfl ((ldrW_x0 uart c.addr m).trans hx0) ?_ ?_
      · show m.time + 1 = start + 2 + 2 * n
        omega
      · rw [getLsbD_ldrW uart c.addr hx0, htime]
        exact hidle n
  | testing n hpc hx0 htime hclear =>
      rw [step_eq hpc (instrs_at hcode 2)]
      refine .reading (n + 1) ?_ hx0 ?_
      · show (if (m.x x1).getLsbD 3 then c.addr 3 else c.addr 1) = c.addr 1
        rw [hclear]
        rfl
      · show m.time + 1 = start + 1 + 2 * (n + 1)
        omega

theorem Waiting.inside (hcode : c.instrs = earlyUartWait) {start : Nat} {m : Machine}
    (h : Waiting uart c start m) : ¬ c.Outside m.pc := by
  have hlen : c.instrs.length = 3 := by rw [hcode]; rfl
  intro hout
  cases h with
  | entered hpc htime => exact hout 0 (by omega) hpc.symm
  | reading n hpc hx0 htime => exact hout 1 (by omega) hpc.symm
  | testing n hpc hx0 htime hclear => exact hout 2 (by omega) hpc.symm

end Rounds

/-- `early_uart_init` comes out of its wait exactly if one of its reads of the flag
register finds the port busy: on an idle port the boot stays there. -/
theorem wait_ends_iff {uart : Uart} {c : Code Word WaitInstr} (hcode : c.instrs = earlyUartWait)
    (hout : c.Outside (c.addr 3)) {m : Machine} (hpc : m.pc = c.addr 0) :
    (∃ t, Reaches c Machine.pc (execWait uart c.addr) m t ∧ t.pc = c.addr 3) ↔
      ∃ n, busyAt uart (m.time + 1 + 2 * n) = true := by
  constructor
  · rintro ⟨t, hreach, htpc⟩
    by_contra hnever
    have hidle : ∀ n, busyAt uart (m.time + 1 + 2 * n) = false := by
      intro n
      exact Bool.eq_false_iff.mpr fun h => hnever ⟨n, h⟩
    have hwaiting : Waiting uart c m.time t :=
      hreach.invariant (waiting_step hcode hidle) (.entered hpc rfl)
    rw [← htpc] at hout
    exact hwaiting.inside hcode hout
  · rintro ⟨n, hbusy⟩
    obtain ⟨t, hreach, htpc⟩ := reaches_of_busy hcode
      (m := execWait uart c.addr 0 (.plain (.movImm x0 0x09000000)) m) rfl
      (Machine.write_self m x0 _) hbusy
    exact ⟨t, .head hpc (instrs_at hcode 0) hreach, htpc⟩

/-- The wait as it is placed at some address. -/
def sampleCode : Code Word WaitInstr where
  instrs := earlyUartWait
  addr i := 0x80200 + BitVec.ofNat 64 i * 4
  injective := by decide

/-- A port that never has anything to send is waited for without end. -/
theorem wait_ends_iff_idle :
    (∃ t, Reaches sampleCode Machine.pc (execWait ⟨fun _ _ => 0⟩ sampleCode.addr)
        ⟨fun _ => 0, false, 0x80200, fun _ => 0, [], 0⟩ t ∧ t.pc = sampleCode.addr 3) ↔
      ∃ n, busyAt ⟨fun _ _ => 0⟩ (0 + 1 + 2 * n) = true := by
  have hout : sampleCode.Outside (sampleCode.addr 3) :=
    (by decide : ∀ i < 3, sampleCode.addr i ≠ sampleCode.addr 3)
  exact wait_ends_iff rfl hout rfl

end ShlteOs.EarlyUartInit
