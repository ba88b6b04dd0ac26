import ShlteOs.ConsoleOutput
import ShlteOs.MachineCode

/-!
The early console of `boot_x86_64.S`: `uart_putc_early`, which calls itself for the
carriage return of a newline, and `uart_puts_early`, one after the other as they are
assembled.  Both keep the callee-saved registers and write to the stack below their
return address only.
-/

namespace ShlteOs.X86Console

open ShlteOs.ByteMemory
open ShlteOs.MachineCode
open ShlteOs.ConsoleOutput (consoleText consoleText_cons StringAt newline carriageReturn com1Port
  Com1Ready)

section Machine

inductive Reg
  | rax
  | rbx
  | rdx
  | rdi
  | rbp
  | rsp
  deriving DecidableEq, Repr

open Reg

/-- The registers the code uses, the zero flag, the memory, the bytes sent, and the time
the line status depends on. -/
structure Machine where
  r : Reg → Word
  z : Bool
  pc : Word
  mem : Memory
  sent : List Byte
  time : Nat

/-- A write of the low byte keeps the rest of the register. -/
def setLow8 (w : Word) (b : Byte) : Word := w.extractLsb' 8 56 ++ b

def low8 (w : Word) : Byte := w.setWidth 8

def setLow16 (w : Word) (b : BitVec 16) : Word := w.extractLsb' 16 48 ++ b

def low16 (w : Word) : BitVec 16 := w.setWidth 16

def Machine.write (m : Machine) (r : Reg) (v : Word) : Machine :=
  { m with r := Function.update m.r r v }

def Machine.goTo (m : Machine) (pc : Word) : Machine := { m with pc := pc, time := m.time + 1 }

def Machine.push (m : Machine) (v : Word) : Machine :=
  { m.write rsp (m.r rsp - 8) with mem := store m.mem (m.r rsp - 8) v }

/-- The instructions of the two early console functions; a target is a place of the
code. -/
inductive Instr
  | push (r : Reg)
  | pop (r : Reg)
  | mov (src dst : Reg)
  | movByteImm (imm : Byte) (dst : Reg)
  | movByte (src dst : Reg)
  | movWordImm (imm : BitVec 16) (dst : Reg)
  | movzbl (base dst : Reg)
  | cmpByte (imm : Byte) (r : Reg)
  | testByteImm (imm : Byte) (r : Reg)
  | testByte (src dst : Reg)
  | inc (r : Reg)
  | inb
  | outb
  | jne (target : Nat)
  | jz (target : Nat)
  | jmp (target : Nat)
  | call (target : Nat)
  | ret
  deriving DecidableEq, Repr

/-- The instruction at place `i`.  A byte for the data port is sent; writes to other
ports are not part of the state. -/
def exec (inb : Nat → BitVec 16 → Byte) (addr : Nat → Word) (i : Nat) (instr : Instr)
    (m : Machine) : Machine :=
  match instr with
  | .push r => (m.push (m.r r)).goTo (addr (i + 1))
  | .pop r =>
      ((m.write rsp (m.r rsp + 8)).write r (load m.mem (m.r rsp))).goTo (addr (i + 1))
  | .mov src dst => (m.write dst (m.r src)).goTo (addr (i + 1))
  | .movByteImm imm dst => (m.write dst (setLow8 (m.r dst) imm)).goTo (addr (i + 1))
  | .movByte src dst => (m.write dst (setLow8 (m.r dst) (low8 (m.r src)))).goTo (addr (i + 1))
  | .movWordImm imm dst => (m.write dst (setLow16 (m.r dst) imm)).goTo (addr (i + 1))
  | .movzbl base dst => (m.write dst ((m.mem (m.r base)).setWidth 64)).goTo (addr (i + 1))
  | .cmpByte imm r => { m with z := low8 (m.r r) == imm }.goTo (addr (i + 1))
  | .testByteImm imm r => { m with z := low8 (m.r r) &&& imm == 0 }.goTo (addr (i + 1))
  | .testByte src dst =>
      { m with z := low8 (m.r dst) &&& low8 (m.r src) == 0 }.goTo (addr (i + 1))
  | .inc r => { m.write r (m.r r + 1) with z := m.r r + 1 == 0 }.goTo (addr (i + 1))
  | .inb => (m.write rax (setLow8 (m.r rax) (inb m.time (low16 (m.r rdx))))).goTo (addr (i + 1))
  | .outb =>
      { m with sent := m.sent ++ if low16 (m.r rdx) = com1Port then [low8 (m.r rax)] else [] }.goTo
        (addr (i + 1))
  | .jne target => m.goTo (if m.z then addr (i + 1) else addr target)
  | .jz target => m.goTo (if m.z then addr target else addr (i + 1))
  | .jmp target => m.goTo (addr target)
  | .call target => (m.push (addr (i + 1))).goTo (addr target)
  | .ret => (m.write rsp (m.r rsp + 8)).goTo (load m.mem (m.r rsp))

end Machine

section Code

open Reg

/-- `uart_putc_early`, which calls itself for a carriage return. -/
def uartPutcEarly : List Instr :=
  [.push rbp,
    .mov rsp rbp,
    .cmpByte newline rdi,
    .jne 7,
    .movByteImm carriageReturn rdi,
    .call 0,
    .movByteImm newline rdi,
    .movWordImm (com1Port + 5) rdx,
    .inb,
    .testByteImm 0x20 rax,
    .jz 8,
    .movWordImm com1Port rdx,
    .movByte rdi rax,
    .outb,
    .pop rbp,
    .ret]

/-- `uart_puts_early` follows at place 16. -/
def uartPutsEarly : List Instr :=
  [.push rbp,
    .mov rsp rbp,
    .push rbx,
    .mov rdi rbx,
    .movzbl rbx rdi,
    .testByte rdi rdi,
    .jz 26,
    .call 0,
    .inc rbx,
    .jmp 20,
    .pop rbx,
    .pop rbp,
    .ret]

/-- The two functions as they stand in the image, one behind the other. -/
def consoleCode : List Instr := uartPutcEarly ++ uartPutsEarly

def putsEntry : Nat := 16

end Code

section Registers

theorem low8_setLow8 (w : Word) (b : Byte) : low8 (setLow8 w b) = b := by
  rw [low8, setLow8, BitVec.setWidth_append, dif_pos le_rfl]
  exact BitVec.setWidth_eq b

theorem low16_setLow16 (w : Word) (b : BitVec 16) : low16 (setLow16 w b) = b := by
  rw [low16, setLow16, BitVec.setWidth_append, dif_pos le_rfl]
  exact BitVec.setWidth_eq b

@[simp] theorem Machine.write_self (m : Machine) (r : Reg) (v : Word) : (m.write r v).r r = v := by
  simp [Machine.write]

@[simp] theorem Machine.write_of_ne (m : Machine) {r r' : Reg} (v : Word) (h : r' ≠ r) :
    (m.write r v).r r' = m.r r' := by
  simp [Machine.write, h]

@[simp] theorem Machine.write_mem (m : Machine) (r : Reg) (v : Word) : (m.write r v).mem = m.mem :=
  rfl

@[simp] theorem Machine.write_sent (m : Machine) (r : Reg) (v : Word) :
    (m.write r v).sent = m.sent := rfl

@[simp] theorem Machine.push_rsp (m : Machine) (v : Word) : (m.push v).r .rsp = m.r .rsp - 8 := by
  simp [Machine.push]

@[simp] theorem Machine.push_of_ne (m : Machine) {r : Reg} (v : Word) (h : r ≠ .rsp) :
    (m.push v).r r = m.r r := by
  simp [Machine.push, h]

@[simp] theorem Machine.push_mem (m : Machine) (v : Word) :
    (m.push v).mem = store m.mem (m.r .rsp - 8) v := rfl

@[simp] theorem Machine.push_sent (m : Machine) (v : Word) : (m.push v).sent = m.sent := rfl

@[simp] theorem Machine.goTo_r (m : Machine) (pc : Word) : (m.goTo pc).r = m.r := rfl

@[simp] theorem Machine.goTo_mem (m : Machine) (pc : Word) : (m.goTo pc).mem = m.mem := rfl

@[simp] theorem Machine.goTo_sent (m : Machine) (pc : Word) : (m.goTo pc).sent = m.sent := rfl

@[simp] theorem Machine.goTo_z (m : Machine) (pc : Word) : (m.goTo pc).z = m.z := rfl

@[simp] theorem Machine.goTo_pc (m : Machine) (pc : Word) : (m.goTo pc).pc = pc := rfl

end Registers

section Stack

variable {a x : Word} {i n d : Nat}

theorem covers_below (hn : n ≤ i) (hi : i ≤ d) (hd : d < 2 ^ 64)
    (h : Covers (a - BitVec.ofNat 64 i) n x) : Covers (a - BitVec.ofNat 64 d) d x := by
  have hsub : a - BitVec.ofNat 64 i - (a - BitVec.ofNat 64 d) =
      BitVec.ofNat 64 d - BitVec.ofNat 64 i := by ring
  refine h.mono (d := d - i) ?_ (by omega)
  rw [hsub, BitVec.toNat_sub, BitVec.toNat_ofNat, BitVec.toNat_ofNat]
  omega

theorem not_covers_below (hi : n + i ≤ d) (hd : d + 8 ≤ 2 ^ 64)
    (h : Covers (a - BitVec.ofNat 64 i) 8 x) : ¬ Covers (a - BitVec.ofNat 64 d) n x := by
  intro hbelow
  have hsum : x - (a - BitVec.ofNat 64 d) =
      x - (a - BitVec.ofNat 64 i) + (BitVec.ofNat 64 d - BitVec.ofNat 64 i) := by ring
  have hdiff : (BitVec.ofNat 64 d - BitVec.ofNat 64 i).toNat = d - i := by
    rw [BitVec.toNat_sub, BitVec.toNat_ofNat, BitVec.toNat_ofNat]
    omega
  rw [Covers] at h
  rw [Covers, hsum, BitVec.toNat_add, hdiff] at hbelow
  omega

theorem load_above {m m' : Memory} (hi : n + i ≤ d) (hd : d + 8 ≤ 2 ^ 64)
    (hsame : ∀ x, ¬ Covers (a - BitVec.ofNat 64 d) n x → m' x = m x) :
    load m' (a - BitVec.ofNat 64 i) = load m (a - BitVec.ofNat 64 i) :=
  load_congr fun x hx => hsame x (not_covers_below hi hd hx)

theorem load_top {m m' : Memory} (hd : d + 8 ≤ 2 ^ 64)
    (hsame : ∀ x, ¬ Covers (a - BitVec.ofNat 64 d) d x → m' x = m x) : load m' a = load m a := by
  have hload := load_above (i := 0) le_rfl hd hsame
  rwa [BitVec.sub_zero] at hload

theorem load_store_below (m : Memory) (v : Word) (hi : i + 16 ≤ 2 ^ 64) :
    load (store m (a - BitVec.ofNat 64 (i + 8)) v) (a - BitVec.ofNat 64 i) =
      load m (a - BitVec.ofNat 64 i) :=
  load_above (n := 8) (d := i + 8) (by omega) (by omega) fun _ hx => store_of_not_covers hx

end Stack

section Runs

open Reg

variable {inb : Nat → BitVec 16 → Byte} {c : Code Word Instr}

theorem instrs_at (hcode : c.instrs = consoleCode) (i : Nat) : c.instrs[i]? = consoleCode[i]? := by
  rw [hcode]

theorem reaches_send (hcode : c.instrs = consoleCode) (hready : Com1Ready inb) (m : Machine)
    (hpc : m.pc = c.addr 7) :
    ∃ t, Reaches c Machine.pc (exec inb c.addr) m t ∧ t.pc = load m.mem (m.r rsp + 8) ∧
      t.r rsp = m.r rsp + 8 + 8 ∧ t.r rbp = load m.mem (m.r rsp) ∧ t.r rbx = m.r rbx ∧
      t.mem = m.mem ∧ t.sent = m.sent ++ [low8 (m.r rdi)] := by
  have hat := instrs_at hcode
  obtain ⟨m₁, hm₁⟩ : ∃ t, exec inb c.addr 7 (.movWordImm (com1Port + 5) rdx) m = t := ⟨_, rfl⟩
  obtain ⟨m₂, hm₂⟩ : ∃ t, exec inb c.addr 9 (.testByteImm 0x20 rax)
      (exec inb c.addr 8 .inb m₁) = t := ⟨_, rfl⟩
  have hz : m₂.z = false := by
    have hport : low16 (m₁.r rdx) = com1Port + 5 := by simp [← hm₁, exec, low16_setLow16]
    have hne := hready m₁.time
    rw [← hport] at hne
    simpa [← hm₂, exec, low8_setLow8] using hne
  have hjz : (exec inb c.addr 10 (.jz 8) m₂).pc = c.addr 11 := by simp [exec, hz]
  refine ⟨exec inb c.addr 15 .ret (exec inb c.addr 14 (.pop rbp) (exec inb c.addr 13 .outb
    (exec inb c.addr 12 (.movByte rdi rax) (exec inb c.addr 11 (.movWordImm com1Port rdx)
      (exec inb c.addr 10 (.jz 8) m₂))))), ?_, ?_⟩
  · refine .head hpc (hat 7) ?_
    rw [hm₁]
    refine .head (i := 8) (by rw [← hm₁]; rfl) (hat 8) (.head (i := 9) rfl (hat 9) ?_)
    rw [hm₂]
    refine .head (i := 10) (by rw [← hm₂]; rfl) (hat 10) (.head hjz (hat 11) ?_)
    exact .head (i := 12) rfl (hat 12) (.head (i := 13) rfl (hat 13) (.head (i := 14) rfl (hat 14)
      (.head (i := 15) rfl (hat 15) (.refl _))))
  · simp [exec, ← hm₂, ← hm₁, low16_setLow16, low8_setLow8]

/-- What a call leaves behind: the stack below the return address may have changed, up
to some depth. -/
structure Returns (m t : Machine) (depth : Nat) (text : List Byte) : Prop where
  pc : t.pc = load m.mem (m.r rsp)
  rsp : t.r rsp = m.r rsp + 8
  rbp : t.r rbp = m.r rbp
  rbx : t.r rbx = m.r rbx
  mem : ∀ x, ¬ Covers (m.r Reg.rsp - BitVec.ofNat 64 depth) depth x → t.mem x = m.mem x
  sent : t.sent = m.sent ++ text

theorem reaches_plain (inb : Nat → BitVec 16 → Byte) (hcode : c.instrs = consoleCode)
    (m : Machine) (hpc : m.pc = c.addr 0) (hplain : low8 (m.r rdi) ≠ newline) :
    ∃ t, Reaches c Machine.pc (exec inb c.addr) m t ∧ t.pc = c.addr 7 ∧
      t.r rsp = m.r rsp - BitVec.ofNat 64 8 ∧ t.r rbx = m.r rbx ∧ t.r rdi = m.r rdi ∧
      t.mem = store m.mem (m.r rsp - BitVec.ofNat 64 8) (m.r rbp) ∧ t.sent = m.sent := by
  have hat := instrs_at hcode
  refine ⟨exec inb c.addr 3 (.jne 7) (exec inb c.addr 2 (.cmpByte newline rdi)
    (exec inb c.addr 1 (.mov rsp rbp) (exec inb c.addr 0 (.push rbp) m))), ?_, ?_⟩
  · exact .head hpc (hat 0) (.head (i := 1) rfl (hat 1) (.head (i := 2) rfl (hat 2)
      (.head (i := 3) rfl (hat 3) (.refl _))))
  · simp [exec, hplain]

theorem reaches_putc_plain (hcode : c.instrs = consoleCode) (hready : Com1Ready inb) (m : Machine)
    (hpc : m.pc = c.addr 0) (hplain : low8 (m.r rdi) ≠ newline) :
    ∃ t, Reaches c Machine.pc (exec inb c.addr) m t ∧ Returns m t 8 [low8 (m.r rdi)] := by
  obtain ⟨m₁, hm₁, hpc₁, hrsp₁, hrbx₁, hrdi₁, hmem₁, hsent₁⟩ :=
    reaches_plain inb hcode m hpc hplain
  obtain ⟨t, ht, htpc, hrsp, hrbp, hrbx, hmem, hsent⟩ := reaches_send hcode hready m₁ hpc₁
  have hup : m.r rsp - BitVec.ofNat 64 8 + 8 = m.r rsp := by bv_omega
  have hbelow : ∀ x, ¬ Covers (m.r rsp - BitVec.ofNat 64 8) 8 x → t.mem x = m.mem x := by
    intro x hx
    rw [hmem, hmem₁, store_of_not_covers hx]
  refine ⟨t, hm₁.trans ht, ?_, ?_, ?_, ?_, hbelow, ?_⟩
  · rw [htpc, hrsp₁, hup, ← hmem]
    exact load_top (by decide) hbelow
  · rw [hrsp, hrsp₁, hup]
  · rw [hrbp, hrsp₁, hmem₁, load_store_same]
  · rw [hrbx, hrbx₁]
  · rw [hsent, hsent₁, hrdi₁]

theorem reaches_newline (inb : Nat → BitVec 16 → Byte) (hcode : c.instrs = consoleCode)
    (m : Machine) (hpc : m.pc = c.addr 0) (hnewline : low8 (m.r rdi) = newline) :
    ∃ t, Reaches c Machine.pc (exec inb c.addr) m t ∧ t.pc = c.addr 0 ∧
      t.r rsp = m.r rsp - BitVec.ofNat 64 16 ∧ t.r rbx = m.r rbx ∧
      low8 (t.r rdi) = carriageReturn ∧
      t.mem = store (store m.mem (m.r rsp - BitVec.ofNat 64 8) (m.r rbp))
        (m.r rsp - BitVec.ofNat 64 16) (c.addr 6) ∧ t.sent = m.sent := by
  have hat := instrs_at hcode
  have hslot : m.r rsp - BitVec.ofNat 64 16 = m.r rsp - 8 - 8 := by bv_omega
  refine ⟨exec inb c.addr 5 (.call 0) (exec inb c.addr 4 (.movByteImm carriageReturn rdi)
    (exec inb c.addr 3 (.jne 7) (exec inb c.addr 2 (.cmpByte newline rdi)
      (exec inb c.addr 1 (.mov rsp rbp) (exec inb c.addr 0 (.push rbp) m))))), ?_, ?_⟩
  · refine .head hpc (hat 0) (.head (i := 1) rfl (hat 1) (.head (i := 2) rfl (hat 2)
      (.head (i := 3) rfl (hat 3) (.head (i := 4) ?_ (hat 4)
        (.head (i := 5) rfl (hat 5) (.refl _))))))
    simp [exec, hnewline]
  · rw [hslot]
    simp [exec, low8_setLow8]

theorem reaches_putc_newline (hcode : c.instrs = consoleCode) (hready : Com1Ready inb) (m : Machine)
    (hpc : m.pc = c.addr 0) (hnewline : low8 (m.r rdi) = newline) :
    ∃ t, Reaches c Machine.pc (exec inb c.addr) m t ∧
      Returns m t 24 [carriageReturn, newline] := by
  obtain ⟨m₁, hm₁, hpc₁, hrsp₁, hrbx₁, hdi₁, hmem₁, hsent₁⟩ :=
    reaches_newline inb hcode m hpc hnewline
  obtain ⟨t₁, ht₁, hreturns⟩ := reaches_putc_plain hcode hready m₁ hpc₁ (by rw [hdi₁]; decide)
  have hslot : m₁.r rsp - BitVec.ofNat 64 8 = m.r rsp - BitVec.ofNat 64 24 := by
    rw [hrsp₁]
    bv_omega
  have hinner : ∀ x, ¬ Covers (m.r rsp - BitVec.ofNat 64 24) 8 x → t₁.mem x = m₁.mem x := by
    rw [← hslot]
    exact hreturns.mem
  have hback : t₁.pc = c.addr 6 := by rw [hreturns.pc, hmem₁, hrsp₁, load_store_same]
  have hrsp : t₁.r rsp = m.r rsp - BitVec.ofNat 64 8 := by
    rw [hreturns.rsp, hrsp₁]
    bv_omega
  have hbelow : ∀ x, ¬ Covers (m.r rsp - BitVec.ofNat 64 24) 24 x → t₁.mem x = m.mem x := by
    intro x hx
    rw [hinner x (fun h => hx (covers_below (by decide) (by decide) (by decide) h)), hmem₁,
      store_of_not_covers (fun h => hx (covers_below (by decide) (by decide) (by decide) h)),
      store_of_not_covers (fun h => hx (covers_below (by decide) (by decide) (by decide) h))]
  have hframe : load t₁.mem (m.r rsp - BitVec.ofNat 64 8) = m.r rbp := by
    rw [load_above (by decide) (by decide) hinner, hmem₁, load_store_below _ _ (by decide),
      load_store_same]
  obtain ⟨m₂, hm₂⟩ : ∃ t, exec inb c.addr 6 (.movByteImm newline rdi) t₁ = t := ⟨_, rfl⟩
  have hrsp₂ : m₂.r rsp = m.r rsp - BitVec.ofNat 64 8 := by
    rw [← hrsp]
    simp [← hm₂, exec]
  have hmem₂ : m₂.mem = t₁.mem := by rw [← hm₂]; rfl
  obtain ⟨t, ht, htpc, htrsp, htrbp, htrbx, htmem, htsent⟩ :=
    reaches_send hcode hready m₂ (by rw [← hm₂]; rfl)
  have hup : m.r rsp - BitVec.ofNat 64 8 + 8 = m.r rsp := by bv_omega
  refine ⟨t, hm₁.trans (ht₁.trans (.head hback (instrs_at hcode 6) (by rw [hm₂]; exact ht))),
    ?_, ?_, ?_, ?_, ?_, ?_⟩
  · rw [htpc, hmem₂, hrsp₂, hup]
    exact load_top (by decide) hbelow
  · rw [htrsp, hrsp₂, hup]
  · rw [htrbp, hmem₂, hrsp₂, hframe]
  · rw [htrbx, show m₂.r rbx = t₁.r rbx by simp [← hm₂, exec], hreturns.rbx, hrbx₁]
  · intro x hx
    rw [htmem, hmem₂, hbelow x hx]
  · rw [htsent, show m₂.sent = t₁.sent by rw [← hm₂]; rfl, hreturns.sent, hsent₁, hdi₁,
      show low8 (m₂.r rdi) = newline by simp [← hm₂, exec, low8_setLow8], List.append_assoc]
    rfl

theorem reaches_putc (hcode : c.instrs = consoleCode) (hready : Com1Ready inb) (m : Machine)
    (hpc : m.pc = c.addr 0) :
    ∃ t, Reaches c Machine.pc (exec inb c.addr) m t ∧
      Returns m t 24 (consoleText [low8 (m.r rdi)]) := by
  rw [consoleText, List.flatMap_singleton]
  by_cases hnewline : low8 (m.r rdi) = newline
  · rw [if_pos hnewline]
    exact reaches_putc_newline hcode hready m hpc hnewline
  · rw [if_neg hnewline]
    obtain ⟨t, ht, hreturns⟩ := reaches_putc_plain hcode hready m hpc hnewline
    exact ⟨t, ht, { hreturns with
      mem := fun x hx => hreturns.mem x fun h =>
        hx (covers_below (by decide) (by decide) (by decide) h) }⟩

/-- The bytes of a string lie outside of what a call may write below its stack
pointer. -/
def Spared (m : Machine) (p : Word) (depth : Nat) (s : List Byte) : Prop :=
  ∀ i ≤ s.length, ¬ Covers (m.r rsp - BitVec.ofNat 64 depth) depth (p + BitVec.ofNat 64 i)

theorem low8_movzbl (b : Byte) : low8 (b.setWidth 64) = b := by
  rw [low8, BitVec.setWidth_setWidth_of_le _ (by decide), BitVec.setWidth_eq]

theorem test_char (m : Machine) :
    (exec inb c.addr 22 (.jz 26) (exec inb c.addr 21 (.testByte rdi rdi)
      (exec inb c.addr 20 (.movzbl rbx rdi) m))).pc =
      if m.mem (m.r rbx) = 0 then c.addr 26 else c.addr 23 := by
  simp [exec, low8_movzbl]

theorem reaches_call (inb : Nat → BitVec 16 → Byte) (hcode : c.instrs = consoleCode)
    (m : Machine) (hpc : m.pc = c.addr 20) (hchar : m.mem (m.r rbx) ≠ 0) :
    ∃ t, Reaches c Machine.pc (exec inb c.addr) m t ∧ t.pc = c.addr 0 ∧
      t.r rsp = m.r rsp - BitVec.ofNat 64 8 ∧ t.r rbx = m.r rbx ∧
      low8 (t.r rdi) = m.mem (m.r rbx) ∧
      t.mem = store m.mem (m.r rsp - BitVec.ofNat 64 8) (c.addr 24) ∧ t.sent = m.sent := by
  have hat := instrs_at hcode
  refine ⟨exec inb c.addr 23 (.call 0) (exec inb c.addr 22 (.jz 26)
    (exec inb c.addr 21 (.testByte rdi rdi) (exec inb c.addr 20 (.movzbl rbx rdi) m))), ?_, ?_⟩
  · refine .head hpc (hat 20) (.head (i := 21) rfl (hat 21) (.head (i := 22) rfl (hat 22)
      (.head (i := 23) ?_ (hat 23) (.refl _))))
    rw [test_char, if_neg hchar]
  · simp [exec, low8_movzbl]

theorem reaches_turn (hcode : c.instrs = consoleCode) (hready : Com1Ready inb) (m : Machine)
    (hpc : m.pc = c.addr 20) (hchar : m.mem (m.r rbx) ≠ 0) :
    ∃ t, Reaches c Machine.pc (exec inb c.addr) m t ∧ t.pc = c.addr 20 ∧ t.r rsp = m.r rsp ∧
      t.r rbx = m.r rbx + 1 ∧
      (∀ x, ¬ Covers (m.r rsp - BitVec.ofNat 64 32) 32 x → t.mem x = m.mem x) ∧
      t.sent = m.sent ++ consoleText [m.mem (m.r rbx)] := by
  have hat := instrs_at hcode
  obtain ⟨m₁, hm₁, hpc₁, hrsp₁, hrbx₁, hdi₁, hmem₁, hsent₁⟩ :=
    reaches_call inb hcode m hpc hchar
  obtain ⟨t₁, ht₁, hreturns⟩ := reaches_putc hcode hready m₁ hpc₁
  have hback : t₁.pc = c.addr 24 := by rw [hreturns.pc, hmem₁, hrsp₁, load_store_same]
  have hslot : m₁.r rsp - BitVec.ofNat 64 24 = m.r rsp - BitVec.ofNat 64 32 := by
    rw [hrsp₁]
    bv_omega
  refine ⟨exec inb c.addr 25 (.jmp 20) (exec inb c.addr 24 (.inc rbx) t₁),
    hm₁.trans (ht₁.trans (.head hback (hat 24) (.head (i := 25) rfl (hat 25) (.refl _)))),
    rfl, ?_, ?_, fun x hx => ?_, ?_⟩
  · rw [show (exec inb c.addr 25 (.jmp 20) (exec inb c.addr 24 (.inc rbx) t₁)).r rsp = t₁.r rsp by
      simp [exec], hreturns.rsp, hrsp₁]
    bv_omega
  · rw [← hrbx₁, ← hreturns.rbx]
    simp [exec]
  · have hinner : t₁.mem x = m₁.mem x := by
      refine hreturns.mem x fun h => hx ?_
      rw [hslot] at h
      exact covers_below (i := 32) (by decide) (by decide) (by decide) h
    refine hinner.trans ?_
    rw [hmem₁, store_of_not_covers fun h => hx (covers_below (by decide) (by decide) (by decide) h)]
  · rw [← hdi₁, ← hsent₁, ← hreturns.sent]
    rfl

theorem reaches_loop (hcode : c.instrs = consoleCode) (hready : Com1Ready inb) {s : List Byte}
    (m : Machine) (hpc : m.pc = c.addr 20) (hs : StringAt m.mem (m.r rbx) s)
    (hspared : Spared m (m.r rbx) 32 s) :
    ∃ t, Reaches c Machine.pc (exec inb c.addr) m t ∧ t.pc = c.addr 26 ∧ t.r rsp = m.r rsp ∧
      (∀ x, ¬ Covers (m.r rsp - BitVec.ofNat 64 32) 32 x → t.mem x = m.mem x) ∧
      t.sent = m.sent ++ consoleText s := by
  have hat := instrs_at hcode
  induction s generalizing m with
  | nil =>
      have hzero : m.mem (m.r rbx) = 0 := hs
      refine ⟨exec inb c.addr 22 (.jz 26) (exec inb c.addr 21 (.testByte rdi rdi)
        (exec inb c.addr 20 (.movzbl rbx rdi) m)), ?_, ?_, ?_, fun x _ => rfl, ?_⟩
      · exact .head hpc (hat 20) (.head (i := 21) rfl (hat 21) (.head (i := 22) rfl (hat 22)
          (.refl _)))
      · rw [test_char, if_pos hzero]
      · simp [exec]
      · exact (List.append_nil _).symm
  | cons b s ih =>
      obtain ⟨rfl, hne, hs⟩ := hs
      obtain ⟨t₁, ht₁, hpc₁, hrsp₁, hrbx₁, hmem₁, hsent₁⟩ := reaches_turn hcode hready m hpc hne
      -- The rest of the string was not touched by the turn.
      have hrest : Spared m (m.r rbx + 1) 32 s := by
        intro i hi
        have hnext := hspared (i + 1) (Nat.succ_le_succ hi)
        rw [add_ofNat_succ] at hnext
        exact hnext
      have hstring : StringAt t₁.mem (t₁.r rbx) s := by
        rw [hrbx₁]
        exact hs.congr fun i hi => hmem₁ _ (hrest i hi)
      have hspared₁ : Spared t₁ (t₁.r rbx) 32 s := by
        rw [Spared, hrbx₁, hrsp₁]
        exact hrest
      obtain ⟨t, ht, htpc, htrsp, htmem, htsent⟩ := ih t₁ hpc₁ hstring hspared₁
      rw [hrsp₁] at htmem
      refine ⟨t, ht₁.trans ht, htpc, htrsp.trans hrsp₁, fun x hx => ?_, ?_⟩
      · rw [htmem x hx, hmem₁ x hx]
      · rw [htsent, hsent₁, consoleText_cons _ s, List.append_assoc]

theorem reaches_enter (inb : Nat → BitVec 16 → Byte) (hcode : c.instrs = consoleCode)
    (m : Machine) (hpc : m.pc = c.addr putsEntry) :
    ∃ t, Reaches c Machine.pc (exec inb c.addr) m t ∧ t.pc = c.addr 20 ∧
      t.r rsp = m.r rsp - BitVec.ofNat 64 16 ∧ t.r rbx = m.r rdi ∧
      t.mem = store (store m.mem (m.r rsp - BitVec.ofNat 64 8) (m.r rbp))
        (m.r rsp - BitVec.ofNat 64 16) (m.r rbx) ∧ t.sent = m.sent := by
  have hat := instrs_at hcode
  have hslot : m.r rsp - BitVec.ofNat 64 16 = m.r rsp - 8 - 8 := by bv_omega
  refine ⟨exec inb c.addr 19 (.mov rdi rbx) (exec inb c.addr 18 (.push rbx)
    (exec inb c.addr 17 (.mov rsp rbp) (exec inb c.addr 16 (.push rbp) m))), ?_, ?_⟩
  · exact .head (i := 16) hpc (hat 16) (.head (i := 17) rfl (hat 17) (.head (i := 18) rfl (hat 18)
      (.head (i := 19) rfl (hat 19) (.refl _))))
  · rw [hslot]
    simp [exec]

theorem reaches_leave (inb : Nat → BitVec 16 → Byte) (hcode : c.instrs = consoleCode)
    (m : Machine) (hpc : m.pc = c.addr 26) :
    ∃ t, Reaches c Machine.pc (exec inb c.addr) m t ∧ t.pc = load m.mem (m.r rsp + 8 + 8) ∧
      t.r rsp = m.r rsp + 8 + 8 + 8 ∧ t.r rbp = load m.mem (m.r rsp + 8) ∧
      t.r rbx = load m.mem (m.r rsp) ∧ t.mem = m.mem ∧ t.sent = m.sent := by
  have hat := instrs_at hcode
  refine ⟨exec inb c.addr 28 .ret (exec inb c.addr 27 (.pop rbp) (exec inb c.addr 26 (.pop rbx) m)),
    ?_, ?_⟩
  · exact .head hpc (hat 26) (.head (i := 27) rfl (hat 27) (.head (i := 28) rfl (hat 28) (.refl _)))
  · simp [exec]

/-- A call of `uart_puts_early` for a string that is not in the free part of the
stack. -/
structure PutsCall (c : Code Word Instr) (m : Machine) (s : List Byte) : Prop where
  instrs : c.instrs = consoleCode
  pc : m.pc = c.addr putsEntry
  string : StringAt m.mem (m.r rdi) s
  spared : Spared m (m.r rdi) 48 s

/-- The call sends the text of the string and returns. -/
def Emits (inb : Nat → BitVec 16 → Byte) (c : Code Word Instr) (m : Machine) (s : List Byte) :
    Prop :=
  ∃ t, Reaches c Machine.pc (exec inb c.addr) m t ∧ Returns m t 48 (consoleText s)

theorem puts_emits (hready : Com1Ready inb) {s : List Byte} {m : Machine} (hcall : PutsCall c m s) :
    Emits inb c m s := by
  obtain ⟨hcode, hpc, hs, hspared⟩ := hcall
  obtain ⟨m₁, hm₁, hpc₁, hrsp₁, hrbx₁, hmem₁, hsent₁⟩ := reaches_enter inb hcode m hpc
  have hslot : m₁.r rsp - BitVec.ofNat 64 32 = m.r rsp - BitVec.ofNat 64 48 := by
    rw [hrsp₁]
    bv_omega
  have hpushed : ∀ x, ¬ Covers (m.r rsp - BitVec.ofNat 64 48) 48 x → m₁.mem x = m.mem x := by
    intro x hx
    rw [hmem₁,
      store_of_not_covers (fun h => hx (covers_below (by decide) (by decide) (by decide) h)),
      store_of_not_covers (fun h => hx (covers_below (by decide) (by decide) (by decide) h))]
  have hstring : StringAt m₁.mem (m₁.r rbx) s := by
    rw [hrbx₁]
    exact hs.congr fun i hi => hpushed _ (hspared i hi)
  have hspared₁ : Spared m₁ (m₁.r rbx) 32 s := by
    intro i hi h
    rw [hslot, hrbx₁] at h
    exact hspared i hi (lt_of_lt_of_le h (by decide))
  obtain ⟨t₁, ht₁, htpc, htrsp, htmem, htsent⟩ := reaches_loop hcode hready m₁ hpc₁ hstring hspared₁
  rw [hslot] at htmem
  rw [hrsp₁] at htrsp
  obtain ⟨t, ht, hret, hrsp, hrbp, hrbx, hmem, hsent⟩ := reaches_leave inb hcode t₁ htpc
  have hup₁ : m.r rsp - BitVec.ofNat 64 16 + 8 = m.r rsp - BitVec.ofNat 64 8 := by bv_omega
  have hup₂ : m.r rsp - BitVec.ofNat 64 8 + 8 = m.r rsp := by bv_omega
  have hbelow : ∀ x, ¬ Covers (m.r rsp - BitVec.ofNat 64 48) 48 x → t₁.mem x = m.mem x := by
    intro x hx
    rw [htmem x (fun h => hx (lt_of_lt_of_le h (by decide))), hpushed x hx]
  rw [htrsp, hup₁, hup₂] at hret
  rw [htrsp, hup₁, hup₂] at hrsp
  rw [htrsp, hup₁] at hrbp
  rw [htrsp] at hrbx
  refine ⟨t, hm₁.trans (ht₁.trans ht), ?_, hrsp, ?_, ?_, fun x hx => ?_, ?_⟩
  · rw [hret]
    exact load_top (by decide) hbelow
  · rw [hrbp, load_above (by decide) (by decide) htmem, hmem₁, load_store_below _ _ (by decide),
      load_store_same]
  · rw [hrbx, load_above (by decide) (by decide) htmem, hmem₁, load_store_same]
  · rw [hmem, hbelow x hx]
  · rw [hsent, htsent, hsent₁]

end Runs

end ShlteOs.X86Console
