import ShlteOs.ConsoleOutput
import ShlteOs.PolledQueue
import Mathlib.Data.Nat.SuccPred

/-!
The 16550 at COM1 and its `uart_init`.  The data port is the transmitter only while the
divisor latch is closed; with the latch open the same stores set the baud rate.  The
driver opens and closes the latch once, and `uart_putc` never looks at it.
-/

namespace ShlteOs.ComSetup

open ShlteOs.ByteMemory
open ShlteOs.ConsoleOutput
open ShlteOs.PolledQueue

section Device

/-- The registers that can be written, and the bytes handed to the transmitter. -/
structure Uart where
  ier : Byte
  fcr : Byte
  lcr : Byte
  mcr : Byte
  dll : Byte
  dlm : Byte
  sent : List Byte
  deriving DecidableEq

/-- The divisor latch access bit. -/
def Uart.latchOpen (u : Uart) : Bool := u.lcr.getLsbD 7

/-- What a store to a port does: the first two ports reach the divisor while the latch is
open. -/
def Uart.outb (u : Uart) (port : BitVec 16) (v : Byte) : Uart :=
  if port = com1Port then
    if u.latchOpen then { u with dll := v } else { u with sent := u.sent ++ [v] }
  else if port = com1Port + 1 then
    if u.latchOpen then { u with dlm := v } else { u with ier := v }
  else if port = com1Port + 2 then { u with fcr := v }
  else if port = com1Port + 3 then { u with lcr := v }
  else if port = com1Port + 4 then { u with mcr := v }
  else u

/-- The port after everything the driver wrote. -/
def device (u : Uart) (st : Com1) : Uart := st.writes.foldl (fun u w => u.outb w.1 w.2) u

end Device

/-- What `uart_putc` reads of the port: the holding register is empty. -/
def holdingEmpty (inb : Nat → BitVec 16 → Byte) (time : Nat) : Bool :=
  inb time (com1Port + 5) &&& 0x20 != 0

/-- `uart_init` of x86_64. -/
def uartInit (st : Com1) : Com1 :=
  let st := st.outb (com1Port + 1) 0x00
  let st := st.outb (com1Port + 3) 0x80
  let st := st.outb (com1Port + 0) 0x01
  let st := st.outb (com1Port + 1) 0x00
  let st := st.outb (com1Port + 3) 0x03
  let st := st.outb (com1Port + 2) 0xC7
  st.outb (com1Port + 4) 0x0B

section Latch

theorem outb_closed {u : Uart} (h : u.latchOpen = false) (v : Byte) :
    u.outb com1Port v = { u with sent := u.sent ++ [v] } := by
  rw [Uart.outb, if_pos rfl, h]
  rfl

theorem outb_open {u : Uart} (h : u.latchOpen = true) (v : Byte) :
    u.outb com1Port v = { u with dll := v } := by
  rw [Uart.outb, if_pos rfl, h]
  rfl

theorem outb_second (u : Uart) (v : Byte) :
    u.outb (com1Port + 1) v =
      if u.latchOpen then { u with dlm := v } else { u with ier := v } := rfl

theorem stores_closed {u : Uart} (h : u.latchOpen = false) (text : List Byte) :
    text.foldl (fun u v => u.outb com1Port v) u = { u with sent := u.sent ++ text } := by
  induction text generalizing u with
  | nil => rw [List.append_nil]; rfl
  | cons v text ih =>
      have hlatch : { u with sent := u.sent ++ [v] }.latchOpen = false := h
      rw [List.foldl_cons, outb_closed h, ih hlatch, List.append_assoc]
      rfl

theorem stores_open {u : Uart} (h : u.latchOpen = true) (text : List Byte) :
    text.foldl (fun u v => u.outb com1Port v) u = { u with dll := text.getLast?.getD u.dll } := by
  induction text generalizing u with
  | nil => rfl
  | cons v text ih =>
      have hlatch : { u with dll := v }.latchOpen = true := h
      rw [List.foldl_cons, outb_open h, ih hlatch, List.getLast?_cons]
      rfl

end Latch

section Driver

variable {inb : Nat → BitVec 16 → Byte}

theorem device_outb (u : Uart) (st : Com1) (port : BitVec 16) (v : Byte) :
    device u (st.outb port v) = (device u st).outb port v := by
  rw [device, Com1.outb, List.foldl_append]
  rfl

theorem outb_setup (u : Uart) :
    (((((u.outb (com1Port + 3) 0x80).outb (com1Port + 0) 0x01).outb (com1Port + 1) 0x00).outb
        (com1Port + 3) 0x03).outb (com1Port + 2) 0xC7).outb (com1Port + 4) 0x0B =
      { u with fcr := 0xC7, lcr := 0x03, mcr := 0x0B, dll := 0x01, dlm := 0x00 } := by
  have hbit : (0x80 : Byte).getLsbD 7 = true := by decide
  have hopen : u.outb (com1Port + 3) 0x80 = { u with lcr := 0x80 } := rfl
  have hlow : { u with lcr := 0x80 }.outb (com1Port + 0) 0x01 =
      { u with lcr := 0x80, dll := 0x01 } := by
    have hlatch : { u with lcr := 0x80 }.latchOpen = true := hbit
    rw [add_zero com1Port, outb_open hlatch]
  have hhigh : { u with lcr := 0x80, dll := 0x01 }.outb (com1Port + 1) 0x00 =
      { u with lcr := 0x80, dll := 0x01, dlm := 0x00 } := by
    rw [outb_second, Uart.latchOpen, hbit]
    rfl
  rw [hopen, hlow, hhigh]
  rfl

/-- The registers after `uart_init`.  The first store is meant for the interrupt enable
register, and gets there only if the latch is closed. -/
theorem device_uartInit (u : Uart) (st : Com1) :
    device u (uartInit st) =
      { device u st with
        ier := if (device u st).latchOpen then (device u st).ier else 0
        fcr := 0xC7, lcr := 0x03, mcr := 0x0B, dll := 0x01, dlm := 0x00 } := by
  simp only [uartInit, device_outb, outb_setup]
  rw [outb_second]
  cases (device u st).latchOpen with
  | true => rfl
  | false => rfl

theorem waitEmpty_settles (hready : Recurs (holdingEmpty inb)) (st : Com1) :
    ∃ st', Settles (fun fuel => waitEmpty inb fuel st) st' ∧ st'.writes = st.writes := by
  obtain ⟨t, ht, hempty⟩ := hready st.time
  have hends : ∃ n, holdingEmpty inb ((· + 1)^[n] st.time) = true := by
    refine ⟨t - st.time, ?_⟩
    have hlater : (· + 1)^[t - st.time] st.time = t :=
      (Nat.succ_iterate st.time _).trans (Nat.add_sub_cancel' ht)
    rw [hlater]
    exact hempty
  obtain ⟨n, -, hsettles⟩ := walk_settles hends
  have hwait := hsettles.map fun time => ({ st with time := time } : Com1)
  exact ⟨_, hwait, rfl⟩

theorem uartPutc_settles (hready : Recurs (holdingEmpty inb)) (c : Byte) (st : Com1) :
    ∃ st', Settles (fun fuel => Com1.uartPutc inb fuel c st) st' ∧
      st'.writes = st.writes ++ (consoleText [c]).map fun b => (com1Port, b) := by
  obtain ⟨st₁, hwait₁, hwrites₁⟩ := waitEmpty_settles hready st
  by_cases hc : c = newline
  · obtain ⟨st₂, hwait₂, hwrites₂⟩ := waitEmpty_settles hready st₁
    have hputc : ∀ fuel, Com1.uartPutc inb fuel c st =
        (waitEmpty inb fuel st).bind fun st => (waitEmpty inb fuel st).map fun st =>
          (st.outb com1Port carriageReturn).outb com1Port newline := by
      intro fuel
      rw [Com1.uartPutc, putcWith, hc]
      cases waitEmpty inb fuel st with
      | none => rfl
      | some st₁ => cases h : waitEmpty inb fuel st₁ <;> simp [h]
    simp only [hputc]
    refine ⟨_, hwait₁.bind (hwait₂.map _), ?_⟩
    rw [consoleText, List.flatMap_singleton, if_pos hc, ← hwrites₁, ← hwrites₂]
    exact List.append_assoc _ _ _
  · have hputc : ∀ fuel, Com1.uartPutc inb fuel c st =
        (waitEmpty inb fuel st).map fun st => st.outb com1Port c := by
      intro fuel
      rw [Com1.uartPutc, putcWith]
      cases waitEmpty inb fuel st with
      | none => rfl
      | some st₁ => simp [hc]
    simp only [hputc]
    refine ⟨_, hwait₁.map _, ?_⟩
    rw [consoleText, List.flatMap_singleton, if_neg hc, ← hwrites₁]
    rfl

theorem uartPuts_settles (hready : Recurs (holdingEmpty inb)) {s : List Byte} (hs : 0 ∉ s)
    (tail : List Byte) (st : Com1) :
    ∃ st', Settles (fun fuel => Com1.uartPuts inb fuel (s ++ 0 :: tail) st) st' ∧
      st'.writes = st.writes ++ (consoleText s).map fun b => (com1Port, b) := by
  induction s generalizing st with
  | nil =>
      refine ⟨st, ⟨0, fun fuel _ => ?_⟩, (List.append_nil _).symm⟩
      beta_reduce
      rw [Com1.uartPuts, List.nil_append, putsWith, if_pos rfl]
  | cons c s ih =>
      obtain ⟨hc, hs⟩ := List.ne_and_not_mem_of_not_mem_cons hs
      obtain ⟨st₁, hputc, hwrites₁⟩ := uartPutc_settles hready c st
      obtain ⟨st₂, hputs, hwrites₂⟩ := ih hs st₁
      have hcons : ∀ fuel, Com1.uartPuts inb fuel (c :: s ++ 0 :: tail) st =
          (Com1.uartPutc inb fuel c st).bind (Com1.uartPuts inb fuel (s ++ 0 :: tail)) := by
        intro fuel
        rw [Com1.uartPuts, List.cons_append, putsWith, if_neg (Ne.symm hc)]
        rfl
      simp only [hcons]
      refine ⟨st₂, hputc.bind (g := fun fuel => Com1.uartPuts inb fuel (s ++ 0 :: tail)) hputs, ?_⟩
      rw [hwrites₂, hwrites₁, consoleText_cons c s, List.map_append, List.append_assoc]

end Driver

theorem device_uartPuts {inb : Nat → BitVec 16 → Byte} (hready : Recurs (holdingEmpty inb))
    {s : List Byte} (hs : 0 ∉ s) (tail : List Byte) (u : Uart) (st : Com1) :
    ∃ st', Settles (fun fuel => Com1.uartPuts inb fuel (s ++ 0 :: tail) st) st' ∧
      device u st' = (consoleText s).foldl (fun u v => u.outb com1Port v) (device u st) := by
  obtain ⟨st', hputs, hwrites⟩ := uartPuts_settles hready hs tail st
  refine ⟨st', hputs, ?_⟩
  rw [device, hwrites, List.foldl_append, List.foldl_map]
  rfl

/-- From any state of the registers, a boot that calls `uart_init` and then writes a
string hands exactly its console text to the transmitter, at divisor 1 and with eight
data bits, on every port whose holding register becomes empty again and again.  Interrupts
of the port are off if and only if they were, or the latch was closed. -/
theorem init_puts_transmits {inb : Nat → BitVec 16 → Byte} (hready : Recurs (holdingEmpty inb))
    {s : List Byte} (hs : 0 ∉ s) (tail : List Byte) (u : Uart) (st : Com1) :
    ∃ st', Settles (fun fuel => Com1.uartPuts inb fuel (s ++ 0 :: tail) (uartInit st)) st' ∧
      (device u st').sent = (device u st).sent ++ consoleText s ∧
      (device u st').dll = 0x01 ∧ (device u st').dlm = 0x00 ∧ (device u st').lcr = 0x03 ∧
      ((device u st').ier = 0 ↔ (device u st).ier = 0 ∨ (device u st).latchOpen = false) := by
  obtain ⟨st', hputs, hdevice⟩ := device_uartPuts hready hs tail u (uartInit st)
  have hclosed : (device u (uartInit st)).latchOpen = false := by
    rw [device_uartInit]
    exact (by decide : (0x03 : Byte).getLsbD 7 = false)
  rw [stores_closed hclosed, device_uartInit] at hdevice
  refine ⟨st', hputs, ?_⟩
  rw [hdevice]
  refine ⟨rfl, rfl, rfl, rfl, ?_⟩
  cases (device u st).latchOpen with
  | true => simp
  | false => simp

/-- A port found with its latch open. -/
def openPort : Uart := ⟨1, 0, 0x80, 0, 12, 0, []⟩

/-- A port whose holding register is empty at every third moment. -/
def slowInb (time : Nat) (_ : BitVec 16) : Byte := if time % 3 = 0 then 0x20 else 0

theorem recurs_slowInb : Recurs (holdingEmpty slowInb) := by
  intro t
  refine ⟨3 * t, by omega, ?_⟩
  rw [holdingEmpty, slowInb, if_pos (by omega)]
  decide

theorem init_puts_transmits_a :
    Recurs (holdingEmpty slowInb) ∧
      ∃ st', Settles (fun fuel => Com1.uartPuts slowInb fuel ([97] ++ 0 :: []) (uartInit ⟨[], 0⟩))
          st' ∧
        (device openPort st').sent = [] ++ consoleText [97] ∧
        (device openPort st').dll = 0x01 ∧ (device openPort st').dlm = 0x00 ∧
        (device openPort st').lcr = 0x03 ∧
        ((device openPort st').ier = 0 ↔ openPort.ier = 0 ∨ openPort.latchOpen = false) :=
  ⟨recurs_slowInb, init_puts_transmits recurs_slowInb (by decide) [] openPort ⟨[], 0⟩⟩

/-- Without `uart_init`, a string reaches the transmitter exactly if the latch is closed
or there is nothing to send; with the latch open its bytes all go to the low half of the
divisor, which keeps the last of them. -/
theorem puts_transmits_iff {inb : Nat → BitVec 16 → Byte} (hready : Recurs (holdingEmpty inb))
    {s : List Byte} (hs : 0 ∉ s) (tail : List Byte) (u : Uart) (st : Com1) :
    ∃ st', Settles (fun fuel => Com1.uartPuts inb fuel (s ++ 0 :: tail) st) st' ∧
      ((device u st').sent = (device u st).sent ++ consoleText s ↔
        (device u st).latchOpen = false ∨ s = []) ∧
      ((device u st).latchOpen = true → device u st' =
        { device u st with dll := (consoleText s).getLast?.getD (device u st).dll }) := by
  obtain ⟨st', hputs, hdevice⟩ := device_uartPuts hready hs tail u st
  refine ⟨st', hputs, ?_, fun hlatch => by rw [hdevice, stores_open hlatch]⟩
  cases hlatch : (device u st).latchOpen with
  | false =>
      rw [hdevice, stores_closed hlatch]
      exact iff_of_true rfl (.inl rfl)
  | true =>
      rw [hdevice, stores_open hlatch]
      cases s with
      | nil => exact iff_of_true (List.append_nil _).symm (.inr rfl)
      | cons c s =>
          refine iff_of_false ?_ (by simp)
          intro h
          have hcount := congrArg List.length h
          have hpos : 0 < (consoleText [c]).length := by
            rw [consoleText, List.flatMap_singleton]
            split_ifs <;> exact Nat.succ_pos _
          rw [consoleText_cons c s, List.length_append, List.length_append] at hcount
          simp only at hcount
          omega

theorem puts_transmits_iff_a :
    Recurs (holdingEmpty slowInb) ∧
      ∃ st', Settles (fun fuel => Com1.uartPuts slowInb fuel ([97] ++ 0 :: []) ⟨[], 0⟩) st' ∧
        ((device openPort st').sent = [] ++ consoleText [97] ↔
          openPort.latchOpen = false ∨ ([97] : List Byte) = []) ∧
        (openPort.latchOpen = true → device openPort st' =
          { openPort with dll := (consoleText [97]).getLast?.getD openPort.dll }) :=
  ⟨recurs_slowInb, puts_transmits_iff recurs_slowInb (by decide) [] openPort ⟨[], 0⟩⟩

end ShlteOs.ComSetup
