import ShlteOs.ArmConsole
import ShlteOs.X86Console

/-!
The four string emitters of the kernel against the one text a console should be sent:
`early_putstr` and `uart_puts_early` of the boot code, and `uart_puts` of the C code
for each of the two ports.
-/

namespace ShlteOs.ConsoleAgreement

open ShlteOs.ByteMemory
open ShlteOs.MachineCode (Code)
open ShlteOs.ConsoleOutput

/-- The four functions that send a string to a console. -/
inductive Emitter
  | earlyPutstr
  | uartPutsEarly
  | uartPutsPl011
  | uartPutsCom1
  deriving DecidableEq, Repr

/-- A call of an emitter for the string `s`, with a port that is always ready and any
contents of the registers. -/
inductive Call (s : List Byte)
  | earlyPutstr (uart : ArmConsole.Uart) (ready : uart.Ready) (c : Code Word ArmConsole.Instr)
      (m : ArmConsole.Machine) (call : ArmConsole.PutstrCall c m s)
  | uartPutsEarly (inb : Nat → BitVec 16 → Byte) (ready : Com1Ready inb)
      (c : Code Word X86Console.Instr) (m : X86Console.Machine) (call : X86Console.PutsCall c m s)
  | uartPutsPl011 (read : Nat → Nat → BitVec 32) (ready : Pl011Ready read) (terminated : 0 ∉ s)
      (tail : List Byte) (st : Pl011)
  | uartPutsCom1 (inb : Nat → BitVec 16 → Byte) (ready : Com1Ready inb) (terminated : 0 ∉ s)
      (tail : List Byte) (st : Com1)

variable {s : List Byte}

def Call.emitter : Call s → Emitter
  | .earlyPutstr .. => .earlyPutstr
  | .uartPutsEarly .. => .uartPutsEarly
  | .uartPutsPl011 .. => .uartPutsPl011
  | .uartPutsCom1 .. => .uartPutsCom1

/-- The call sends exactly the console text of its string and returns. -/
def Call.Emits : Call s → Prop
  | .earlyPutstr uart _ c m _ => ArmConsole.Emits uart c m s
  | .uartPutsEarly inb _ c m _ => X86Console.Emits inb c m s
  | .uartPutsPl011 read _ _ tail st => ∃ fuel st',
      Pl011.uartPuts read fuel (s ++ 0 :: tail) st = some st' ∧ st'.sent = st.sent ++ consoleText s
  | .uartPutsCom1 inb _ _ tail st => ∃ fuel st',
      Com1.uartPuts inb fuel (s ++ 0 :: tail) st = some st' ∧ st'.sent = st.sent ++ consoleText s

/-- Each of the four functions sends its string with a carriage return in front of every
newline and returns, except `early_putstr`, which does so for the empty string only. -/
theorem emits_iff (call : Call s) : call.Emits ↔ s = [] ∨ call.emitter ≠ .earlyPutstr := by
  cases call with
  | earlyPutstr uart ready c m call =>
      have hiff : ArmConsole.Emits uart c m s ↔ s = [] := ArmConsole.putstr_emits_iff call
      simpa [Call.Emits, Call.emitter] using hiff
  | uartPutsEarly inb ready c m call =>
      exact iff_of_true (X86Console.puts_emits ready call) (.inr (by simp [Call.emitter]))
  | uartPutsPl011 read ready terminated tail st =>
      exact iff_of_true ⟨1, Pl011.uartPuts_spec ready Nat.one_pos terminated tail st⟩
        (.inr (by simp [Call.emitter]))
  | uartPutsCom1 inb ready terminated tail st =>
      exact iff_of_true ⟨1, Com1.uartPuts_spec ready Nat.one_pos terminated tail st⟩
        (.inr (by simp [Call.emitter]))

section Letter

/-- The letter `A` in memory, with zeros around it. -/
def capitalMemory : Memory := fun a => if a = 0x1000 then 65 else 0

theorem capitalMemory_string : StringAt capitalMemory 0x1000 [65] :=
  ⟨by decide, by decide, show capitalMemory (0x1000 + 1) = 0 by decide⟩

def armCode : Code Word ArmConsole.Instr where
  instrs := ArmConsole.consoleCode
  addr i := 0x40080000 + BitVec.ofNat 64 (4 * i)
  injective := by decide +kernel

def armMachine : ArmConsole.Machine where
  x r := if r = .x0 then 0x1000 else 0
  z := false
  pc := 0x40080040
  mem := capitalMemory
  sent := []
  time := 0

theorem armMachine_call : ArmConsole.PutstrCall armCode armMachine [65] where
  instrs := rfl
  pc := by decide
  string := capitalMemory_string
  ordinary := by decide
  caller := by
    rw [Code.Outside]
    decide +kernel

/-- `early_putstr` does not return for the string `A`. -/
theorem not_emits_letter : ¬ ∀ (s : List Byte) (call : Call s), call.Emits := by
  intro hall
  have hready : (⟨fun _ _ => 0⟩ : ArmConsole.Uart).Ready :=
    fun _ => show (0 : BitVec 32) &&& ArmConsole.frTxff = 0 by decide
  have hemits : ArmConsole.Emits ⟨fun _ _ => 0⟩ armCode armMachine [65] :=
    hall [65] (.earlyPutstr ⟨fun _ _ => 0⟩ hready armCode armMachine armMachine_call)
  exact absurd ((ArmConsole.putstr_emits_iff armMachine_call).mp hemits) (by decide)

/-- The code from 0x100000 on; the sizes of the instructions do not matter. -/
def x86Code : Code Word X86Console.Instr where
  instrs := X86Console.consoleCode
  addr i := 0x100000 + BitVec.ofNat 64 i
  injective := by decide +kernel

def x86Machine : X86Console.Machine where
  r r := match r with
    | .rdi => 0x1000
    | .rsp => 0x8000
    | _ => 0
  z := false
  pc := 0x100010
  mem := capitalMemory
  sent := []
  time := 0

theorem x86Machine_call : X86Console.PutsCall x86Code x86Machine [65] where
  instrs := rfl
  pc := by decide
  string := capitalMemory_string
  spared := by
    rw [X86Console.Spared]
    decide

theorem emits_iff_letter : X86Console.Emits (fun _ _ => 0x60) x86Code x86Machine [65] :=
  (emits_iff (.uartPutsEarly (fun _ _ => 0x60)
    (fun _ => show (0x60 : Byte) &&& 0x20 ≠ 0 by decide) x86Code x86Machine
    x86Machine_call)).mpr (.inr (by decide))

end Letter

end ShlteOs.ConsoleAgreement
