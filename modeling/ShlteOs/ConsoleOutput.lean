import ShlteOs.ByteMemory
import ShlteOs.PointerWalk

/-!
What a console is sent for a string, and the C functions `uart_putc` and `uart_puts`
of `printk.c` for the two serial ports.  Each wait for the port is a loop that ends
when the port is ready; running out of fuel there is `none`.
-/

namespace ShlteOs.ConsoleOutput

open ShlteOs.ByteMemory
open ShlteOs.PointerWalk

def newline : Byte := 10

def carriageReturn : Byte := 13

/-- Every newline goes behind a carriage return. -/
def consoleText (s : List Byte) : List Byte :=
  s.flatMap fun c => if c = newline then [carriageReturn, newline] else [c]

theorem consoleText_cons (c : Byte) (s : List Byte) :
    consoleText (c :: s) = consoleText [c] ++ consoleText s := by
  rw [consoleText, consoleText, consoleText, List.flatMap_cons, List.flatMap_singleton]

/-- The bytes of a string and its NUL in memory. -/
def StringAt (m : Memory) (p : Word) : List Byte → Prop
  | [] => m p = 0
  | c :: s => m p = c ∧ c ≠ 0 ∧ StringAt m (p + 1) s

theorem StringAt.congr {m m' : Memory} {p : Word} {s : List Byte}
    (heq : ∀ i ≤ s.length, m' (p + BitVec.ofNat 64 i) = m (p + BitVec.ofNat 64 i))
    (hs : StringAt m p s) : StringAt m' p s := by
  induction s generalizing p with
  | nil =>
      have hbyte := heq 0 le_rfl
      rw [BitVec.add_zero] at hbyte
      exact hbyte.trans hs
  | cons c s ih =>
      obtain ⟨hc, hne, hs⟩ := hs
      have hbyte := heq 0 (Nat.zero_le _)
      rw [BitVec.add_zero] at hbyte
      refine ⟨hbyte.trans hc, hne, ih (fun i hi => ?_) hs⟩
      have hnext := heq (i + 1) (Nat.succ_le_succ hi)
      rw [add_ofNat_succ] at hnext
      exact hnext

section Putc

variable {State : Type}

/-- The common part of the two `uart_putc`, for a wait and a store to the data
register. -/
def putcWith (wait : State → Option State) (send : State → Byte → State) (c : Byte)
    (st : State) : Option State := do
  let st ← wait st
  let st ← if c = newline then do
      let st ← wait st
      some (send st carriageReturn)
    else some st
  some (send st c)

/-- `uart_puts`, on the bytes that can be read from `s` on. -/
def putsWith (putc : Byte → State → Option State) : List Byte → State → Option State
  | [], _ => none
  | c :: s, st => if c = 0 then some st else (putc c st).bind (putsWith putc s)

variable {wait : State → Option State} {send : State → Byte → State} {sent : State → List Byte}

theorem putcWith_spec (hwait : ∀ st, wait st = some st)
    (hsend : ∀ st c, sent (send st c) = sent st ++ [c]) (c : Byte) (st : State) :
    ∃ st', putcWith wait send c st = some st' ∧ sent st' = sent st ++ consoleText [c] := by
  simp only [putcWith, hwait, Option.bind_eq_bind, Option.bind_some, consoleText,
    List.flatMap_singleton]
  by_cases hc : c = newline
  · rw [if_pos hc, if_pos hc]
    refine ⟨_, rfl, ?_⟩
    rw [hsend, hsend, List.append_assoc, hc]
    rfl
  · rw [if_neg hc, if_neg hc]
    exact ⟨_, rfl, hsend st c⟩

theorem putsWith_spec {putc : Byte → State → Option State}
    (hputc : ∀ c st, ∃ st', putc c st = some st' ∧ sent st' = sent st ++ consoleText [c])
    {s : List Byte} (hs : 0 ∉ s) (tail : List Byte) (st : State) :
    ∃ st', putsWith putc (s ++ 0 :: tail) st = some st' ∧ sent st' = sent st ++ consoleText s := by
  induction s generalizing st with
  | nil => exact ⟨st, if_pos rfl, (List.append_nil _).symm⟩
  | cons c s ih =>
      obtain ⟨hc, hs⟩ := List.ne_and_not_mem_of_not_mem_cons hs
      obtain ⟨st₁, hputc₁, hsent₁⟩ := hputc c st
      obtain ⟨st₂, hputs₂, hsent₂⟩ := ih hs st₁
      refine ⟨st₂, ?_, ?_⟩
      · rw [List.cons_append, putsWith, if_neg (Ne.symm hc), hputc₁, Option.bind_some, hputs₂]
      · rw [hsent₂, hsent₁, consoleText_cons c s, List.append_assoc]

end Putc

section Pl011

def uartDr : Nat := 0x000

def uartFr : Nat := 0x018

def uartCr : Nat := 0x030

def uartImsc : Nat := 0x038

def uartIcr : Nat := 0x044

def uartFrTxff : BitVec 32 := 1 <<< 5

def uartFrBusy : BitVec 32 := 1 <<< 3

/-- The driver's `uart_base`, set or not, the writes to the registers of the port,
and the time. -/
structure Pl011 where
  initialized : Bool
  writes : List (Nat × BitVec 32)
  time : Nat

/-- A store to a register takes a moment of the port's time. -/
def Pl011.write (st : Pl011) (reg : Nat) (v : BitVec 32) : Pl011 :=
  { st with writes := st.writes ++ [(reg, v)], time := st.time + 1 }

/-- The bytes stored to the data register. -/
def Pl011.sent (st : Pl011) : List Byte :=
  st.writes.filterMap fun w => if w.1 = uartDr then some (w.2.setWidth 8) else none

variable (read : Nat → Nat → BitVec 32) (fuel : Nat)

/-- Busy wait while one of the flags is set. -/
def waitFlags (mask : BitVec 32) (st : Pl011) : Option Pl011 :=
  (walk (fun time => read time uartFr &&& mask == 0) (· + 1) fuel st.time).map fun time =>
    { st with time := time }

/-- The driver remembers that it was called before it waits for the port. -/
def Pl011.uartInit (st : Pl011) : Option Pl011 :=
  (waitFlags read fuel uartFrBusy { st with initialized := true }).map fun st =>
    (((st.write uartCr 0).write uartImsc 0).write uartIcr 0x7FF).write uartCr 0x301

/-- A first call initializes the port. -/
def Pl011.uartPutc (c : Byte) (st : Pl011) : Option Pl011 :=
  (if st.initialized then some st else Pl011.uartInit read fuel st).bind
    (putcWith (waitFlags read fuel uartFrTxff) (fun st c => st.write uartDr (c.setWidth 32)) c)

def Pl011.uartPuts (s : List Byte) (st : Pl011) : Option Pl011 :=
  putsWith (Pl011.uartPutc read fuel) s st

/-- The port is neither busy nor full. -/
def Pl011Ready : Prop :=
  ∀ time, read time uartFr &&& uartFrBusy = 0 ∧ read time uartFr &&& uartFrTxff = 0

variable {read fuel}

theorem waitFlags_of_clear {mask : BitVec 32} (hclear : ∀ time, read time uartFr &&& mask = 0)
    (hfuel : 0 < fuel) (st : Pl011) : waitFlags read fuel mask st = some st := by
  rw [waitFlags, walk_of_stop (by rw [hclear]; rfl) hfuel]
  rfl

theorem Pl011.sent_write_dr (st : Pl011) (c : Byte) :
    (st.write uartDr (c.setWidth 32)).sent = st.sent ++ [c] := by
  have hbyte : (c.setWidth 32).setWidth 8 = c := by
    rw [BitVec.setWidth_setWidth_of_le _ (by decide), BitVec.setWidth_eq]
  rw [Pl011.sent, Pl011.write, List.filterMap_append]
  refine congrArg (st.sent ++ ·) ?_
  rw [List.filterMap_cons, List.filterMap_nil, if_pos rfl, hbyte]

theorem Pl011.sent_write_of_ne (st : Pl011) {reg : Nat} (hne : reg ≠ uartDr) (v : BitVec 32) :
    (st.write reg v).sent = st.sent := by
  rw [Pl011.sent, Pl011.write, List.filterMap_append, List.filterMap_cons, if_neg hne,
    List.filterMap_nil, List.append_nil]
  rfl

theorem uartInit_spec (hready : Pl011Ready read) (hfuel : 0 < fuel) (st : Pl011) :
    ∃ st', Pl011.uartInit read fuel st = some st' ∧ st'.sent = st.sent := by
  have hwait := waitFlags_of_clear (fun time => (hready time).1) hfuel
  refine ⟨_, by rw [Pl011.uartInit, hwait]; rfl, ?_⟩
  rw [Pl011.sent_write_of_ne _ (by decide), Pl011.sent_write_of_ne _ (by decide),
    Pl011.sent_write_of_ne _ (by decide), Pl011.sent_write_of_ne _ (by decide)]
  rfl

theorem Pl011.uartPutc_spec (hready : Pl011Ready read) (hfuel : 0 < fuel) (c : Byte) (st : Pl011) :
    ∃ st', Pl011.uartPutc read fuel c st = some st' ∧
      st'.sent = st.sent ++ consoleText [c] := by
  obtain ⟨st₁, hinit, hsent⟩ : ∃ st₁,
      (if st.initialized then some st else Pl011.uartInit read fuel st) = some st₁ ∧
        st₁.sent = st.sent := by
    split_ifs
    · exact ⟨st, rfl, rfl⟩
    · exact uartInit_spec hready hfuel st
  obtain ⟨st₂, hputc, hsent₂⟩ := putcWith_spec
    (waitFlags_of_clear (fun time => (hready time).2) hfuel) Pl011.sent_write_dr c st₁
  refine ⟨st₂, ?_, by rw [hsent₂, hsent]⟩
  rw [Pl011.uartPutc, hinit, Option.bind_some, hputc]

theorem Pl011.uartPuts_spec (hready : Pl011Ready read) (hfuel : 0 < fuel) {s : List Byte}
    (hs : 0 ∉ s) (tail : List Byte) (st : Pl011) :
    ∃ st', Pl011.uartPuts read fuel (s ++ 0 :: tail) st = some st' ∧
      st'.sent = st.sent ++ consoleText s :=
  putsWith_spec (Pl011.uartPutc_spec hready hfuel) hs tail st

end Pl011

section Com1

def com1Port : BitVec 16 := 0x3F8

/-- The stores made to the ports, and the time the line status depends on. -/
structure Com1 where
  writes : List (BitVec 16 × Byte)
  time : Nat

def Com1.outb (st : Com1) (port : BitVec 16) (v : Byte) : Com1 :=
  { st with writes := st.writes ++ [(port, v)], time := st.time + 1 }

/-- The bytes handed to the transmitter. -/
def Com1.sent (st : Com1) : List Byte :=
  st.writes.filterMap fun w => if w.1 = com1Port then some w.2 else none

variable (inb : Nat → BitVec 16 → Byte) (fuel : Nat)

/-- Busy wait until the holding register is empty. -/
def waitEmpty (st : Com1) : Option Com1 :=
  (walk (fun time => inb time (com1Port + 5) &&& 0x20 != 0) (· + 1) fuel st.time).map fun time =>
    { st with time := time }

def Com1.uartPutc (c : Byte) (st : Com1) : Option Com1 :=
  putcWith (waitEmpty inb fuel) (fun st c => st.outb com1Port c) c st

def Com1.uartPuts (s : List Byte) (st : Com1) : Option Com1 :=
  putsWith (Com1.uartPutc inb fuel) s st

/-- The holding register is empty whenever it is asked for. -/
def Com1Ready : Prop := ∀ time, inb time (com1Port + 5) &&& 0x20 ≠ 0

variable {inb fuel}

theorem waitEmpty_of_ready (hready : Com1Ready inb) (hfuel : 0 < fuel) (st : Com1) :
    waitEmpty inb fuel st = some st := by
  have hwalk : walk (fun time => inb time (com1Port + 5) &&& 0x20 != 0) (· + 1) fuel st.time =
      some st.time := walk_of_stop (bne_iff_ne.mpr (hready _)) hfuel
  rw [waitEmpty, hwalk]
  rfl

theorem Com1.sent_outb (st : Com1) (c : Byte) :
    (st.outb com1Port c).sent = st.sent ++ [c] := by
  rw [Com1.sent, Com1.outb, List.filterMap_append]
  rfl

theorem Com1.uartPuts_spec (hready : Com1Ready inb) (hfuel : 0 < fuel) {s : List Byte}
    (hs : 0 ∉ s) (tail : List Byte) (st : Com1) :
    ∃ st', Com1.uartPuts inb fuel (s ++ 0 :: tail) st = some st' ∧
      st'.sent = st.sent ++ consoleText s :=
  putsWith_spec (fun c st => putcWith_spec (waitEmpty_of_ready hready hfuel) Com1.sent_outb c st)
    hs tail st

end Com1

end ShlteOs.ConsoleOutput
