import ShlteOs.ByteMemory
import ShlteOs.MachineCode

/-!
How the two entry points clear the BSS.  Both store eight bytes at a time.  `boot.S`
counts the bytes down and stops below one, so that it may clear up to seven bytes too
many; `boot_x86_64.S` divides their number by eight first, and may leave as many.
-/

namespace ShlteOs.BssClearing

open ShlteOs.ByteMemory
open ShlteOs.MachineCode

/-- Memory after `n` bytes from `base` on have been cleared. -/
def zeroed (m : Memory) (base : Word) (n : Nat) : Memory :=
  fun x => if Covers base n x then 0 else m x

theorem zeroed_zero (m : Memory) (base : Word) : zeroed m base 0 = m :=
  funext fun _ => if_neg (Nat.not_lt_zero _)

theorem zeroed_store (m : Memory) (base : Word) {n : Nat} (hn : n + 8 ≤ 2 ^ 64) :
    zeroed (store m base 0) (base + 8) n = zeroed m base (n + 8) := by
  funext x
  have height : (8 : Word).toNat = 8 := rfl
  have hbyte : ∀ i, wordByte 0 i = 0 := fun i => by simp [wordByte]
  by_cases hfirst : Covers base 8 x
  · have hall : Covers base (n + 8) x := Nat.lt_of_lt_of_le hfirst (Nat.le_add_left _ _)
    rw [zeroed, zeroed, if_pos hall, store, if_pos hfirst, hbyte, ite_self]
  · have hrest : Covers (base + 8) n x ↔ Covers base (n + 8) x := by
      simp only [Covers, BitVec.toNat_sub, BitVec.toNat_add, height] at hfirst ⊢
      omega
    simp only [zeroed, hrest, store_of_not_covers hfirst]

section Arm

inductive ArmReg
  | x1
  | x2
  deriving DecidableEq, Repr

/-- The two registers the loop uses, the flags a signed comparison reads, and the
memory. -/
structure ArmMachine where
  r : ArmReg → Word
  n : Bool
  z : Bool
  v : Bool
  pc : Word
  mem : Memory

def ArmMachine.write (m : ArmMachine) (r : ArmReg) (v : Word) : ArmMachine :=
  { m with r := Function.update m.r r v }

/-- The instructions of the clearing loop on arm64. -/
inductive ArmInstr
  | ldrConst (rt : ArmReg) (v : Word)
  | subs (rd rn rm : ArmReg)
  | subsImm (rd rn : ArmReg) (imm : Word)
  | strXzrPost (rn : ArmReg) (imm : Word)
  | b (target : Nat)
  | bgt (target : Nat)
  deriving DecidableEq, Repr

/-- A subtraction with its flags. -/
def ArmMachine.subtract (m : ArmMachine) (rd : ArmReg) (a b : Word) : ArmMachine :=
  { m.write rd (a - b) with
    n := (a - b).msb
    z := a - b == 0
    v := a.msb != b.msb && (a - b).msb != a.msb }

def ArmMachine.gt (m : ArmMachine) : Bool := !m.z && m.n == m.v

def armExec (addr : Nat → Word) (i : Nat) (instr : ArmInstr) (m : ArmMachine) : ArmMachine :=
  match instr with
  | .ldrConst rt v => { m.write rt v with pc := addr (i + 1) }
  | .subs rd rn rm => { m.subtract rd (m.r rn) (m.r rm) with pc := addr (i + 1) }
  | .subsImm rd rn imm => { m.subtract rd (m.r rn) imm with pc := addr (i + 1) }
  | .strXzrPost rn imm =>
      { m.write rn (m.r rn + imm) with mem := store m.mem (m.r rn) 0, pc := addr (i + 1) }
  | .b target => { m with pc := addr target }
  | .bgt target => { m with pc := if m.gt then addr target else addr (i + 1) }

/-- The part of `_start` from the label 1 up to the next message. -/
def armClearBss (bssStart bssEnd : Word) : List ArmInstr :=
  [.ldrConst .x1 bssStart,
    .ldrConst .x2 bssEnd,
    .subs .x2 .x2 .x1,
    .b 7,
    .strXzrPost .x1 8,
    .subsImm .x2 .x2 8,
    .bgt 4,
    .bgt 4]

theorem armExec_bgt_pc (addr : Nat → Word) (i target : Nat) (m : ArmMachine) :
    (armExec addr i (.bgt target) m).pc = if m.gt then addr target else addr (i + 1) := rfl

theorem gt_subtract (m : ArmMachine) (rd : ArmReg) {a b : Word} (ha : a.toNat < 2 ^ 63)
    (hb : b.toNat < 2 ^ 63) : (m.subtract rd a b).gt = decide (b.toNat < a.toNat) := by
  have hmsb : ∀ w : Word, w.toNat < 2 ^ 63 → w.msb = false := by
    intro w hw
    rw [BitVec.msb_eq_decide, decide_eq_false_iff_not]
    omega
  have hsub : (a - b).toNat = if b.toNat ≤ a.toNat then a.toNat - b.toNat
      else a.toNat + 2 ^ 64 - b.toNat := by
    rw [BitVec.toNat_sub]
    split_ifs <;> omega
  have hzero : (a - b == 0) = decide (a.toNat = b.toNat) := by
    rw [beq_eq_decide, decide_eq_decide, ← BitVec.toNat_inj, hsub]
    show (if b.toNat ≤ a.toNat then a.toNat - b.toNat else a.toNat + 2 ^ 64 - b.toNat) = 0 ↔ _
    split_ifs <;> omega
  have hneg : (a - b).msb = decide (a.toNat < b.toNat) := by
    rw [BitVec.msb_eq_decide, decide_eq_decide, hsub]
    split_ifs <;> omega
  rw [ArmMachine.gt, ArmMachine.subtract]
  simp only [hmsb a ha, hmsb b hb, hzero, hneg]
  rcases Nat.lt_trichotomy a.toNat b.toNat with h | h | h
  · simp [h, Nat.lt_asymm h]
  · simp [h]
  · simp [h, Nat.lt_asymm h, Nat.ne_of_gt h]

variable {c : Code Word ArmInstr} {bssStart bssEnd : Word}

theorem arm_instrs_at (hcode : c.instrs = armClearBss bssStart bssEnd) (i : Nat) :
    c.instrs[i]? = (armClearBss bssStart bssEnd)[i]? := by
  rw [hcode]

theorem arm_reaches_loop (hcode : c.instrs = armClearBss bssStart bssEnd) {k : Nat}
    (m : ArmMachine) (hpc : m.pc = c.addr 4) (hpos : 0 < (m.r .x2).toNat)
    (hk : (m.r .x2).toNat ≤ k * 8) (hk' : k * 8 < (m.r .x2).toNat + 8)
    (hlt : (m.r .x2).toNat < 2 ^ 63) :
    ∃ t, Reaches c ArmMachine.pc (armExec c.addr) m t ∧ t.pc = c.addr 8 ∧
      t.mem = zeroed m.mem (m.r .x1) (k * 8) := by
  have hat := arm_instrs_at hcode
  have height : (8 : Word).toNat = 8 := rfl
  induction k generalizing m with
  | zero => omega
  | succ k ih =>
      obtain ⟨m₂, hm₂⟩ : ∃ t, armExec c.addr 5 (.subsImm .x2 .x2 8)
          (armExec c.addr 4 (.strXzrPost .x1 8) m) = t := ⟨_, rfl⟩
      have hmem : m₂.mem = store m.mem (m.r .x1) 0 := by rw [← hm₂]; rfl
      have hx1 : m₂.r .x1 = m.r .x1 + 8 := by
        simp [← hm₂, armExec, ArmMachine.subtract, ArmMachine.write]
      have hx2 : m₂.r .x2 = m.r .x2 - 8 := by
        simp [← hm₂, armExec, ArmMachine.subtract, ArmMachine.write]
      have hgt : m₂.gt = decide (8 < (m.r .x2).toNat) := by
        have hflags := gt_subtract (armExec c.addr 4 (.strXzrPost .x1 8) m) .x2 hlt
          (b := 8) (by decide)
        rw [← hm₂]
        exact hflags
      have htwo : Reaches c ArmMachine.pc (armExec c.addr) m m₂ := by
        refine .head hpc (hat 4) (.head (i := 5) rfl (hat 5) ?_)
        rw [hm₂]
        exact .refl _
      have hpc₂ : m₂.pc = c.addr 6 := by rw [← hm₂]; rfl
      -- both branches at the end test the flags of the same subtraction
      by_cases hmore : 8 < (m.r .x2).toNat
      · have hnext : (m₂.r .x2).toNat = (m.r .x2).toNat - 8 := by
          rw [hx2, BitVec.toNat_sub, height]
          omega
        obtain ⟨t, hreach, htpc, htmem⟩ := ih (armExec c.addr 6 (.bgt 4) m₂)
          (by rw [armExec_bgt_pc, hgt, decide_eq_true hmore]; rfl)
          (by simp only [armExec]; omega) (by simp only [armExec]; omega)
          (by simp only [armExec]; omega) (by simp only [armExec]; omega)
        refine ⟨t, htwo.trans (.head hpc₂ (hat 6) hreach), htpc, ?_⟩
        rw [htmem]
        simp only [armExec, hmem, hx1]
        rw [zeroed_store _ _ (by omega), Nat.succ_mul]
      · have hstay : m₂.gt = false := by rw [hgt, decide_eq_false hmore]
        obtain rfl : k = 0 := by omega
        refine ⟨armExec c.addr 7 (.bgt 4) (armExec c.addr 6 (.bgt 4) m₂), ?_, ?_, ?_⟩
        · refine htwo.trans (.head hpc₂ (hat 6) (.head (i := 7) ?_ (hat 7) (.refl _)))
          rw [armExec_bgt_pc, hstay]
          rfl
        · have hsame : (armExec c.addr 6 (.bgt 4) m₂).gt = false := hstay
          rw [armExec_bgt_pc, hsame]
          rfl
        · simp only [armExec, hmem]
          rw [← zeroed_zero (store m.mem (m.r .x1) 0) (m.r .x1 + 8), zeroed_store _ _ (by decide)]

theorem arm_reaches (hcode : c.instrs = armClearBss bssStart bssEnd)
    (hle : bssStart.toNat ≤ bssEnd.toNat) (hend : bssEnd.toNat < 2 ^ 63) (m : ArmMachine)
    (hpc : m.pc = c.addr 0) :
    ∃ t, Reaches c ArmMachine.pc (armExec c.addr) m t ∧ t.pc = c.addr 8 ∧
      t.mem = zeroed m.mem bssStart ((bssEnd.toNat - bssStart.toNat + 7) / 8 * 8) := by
  have hat := arm_instrs_at hcode
  obtain ⟨m₃, hm₃⟩ : ∃ t, armExec c.addr 3 (.b 7) (armExec c.addr 2 (.subs .x2 .x2 .x1)
      (armExec c.addr 1 (.ldrConst .x2 bssEnd)
        (armExec c.addr 0 (.ldrConst .x1 bssStart) m))) = t := ⟨_, rfl⟩
  have hreach : Reaches c ArmMachine.pc (armExec c.addr) m m₃ := by
    refine .head hpc (hat 0) (.head (i := 1) rfl (hat 1) (.head (i := 2) rfl (hat 2)
      (.head (i := 3) rfl (hat 3) ?_)))
    rw [hm₃]
    exact .refl _
  have hpc₃ : m₃.pc = c.addr 7 := by rw [← hm₃]; rfl
  have hmem : m₃.mem = m.mem := by rw [← hm₃]; rfl
  have hx1 : m₃.r .x1 = bssStart := by
    simp [← hm₃, armExec, ArmMachine.subtract, ArmMachine.write]
  have hx2 : (m₃.r .x2).toNat = bssEnd.toNat - bssStart.toNat := by
    have hdiff : m₃.r .x2 = bssEnd - bssStart := by
      simp [← hm₃, armExec, ArmMachine.subtract, ArmMachine.write]
    rw [hdiff, BitVec.toNat_sub]
    omega
  have hgt : m₃.gt = decide (bssStart.toNat < bssEnd.toNat) := by
    have hflags := gt_subtract (armExec c.addr 1 (.ldrConst .x2 bssEnd)
      (armExec c.addr 0 (.ldrConst .x1 bssStart) m)) .x2 hend (b := bssStart) (by omega)
    rw [← hm₃]
    exact hflags
  by_cases hempty : bssStart.toNat < bssEnd.toNat
  · obtain ⟨t, hloop, htpc, htmem⟩ := arm_reaches_loop hcode
      (k := (bssEnd.toNat - bssStart.toNat + 7) / 8) (armExec c.addr 7 (.bgt 4) m₃)
      (by rw [armExec_bgt_pc, hgt, decide_eq_true hempty]; rfl) (by simp only [armExec]; omega)
      (by simp only [armExec]; omega) (by simp only [armExec]; omega)
      (by simp only [armExec]; omega)
    refine ⟨t, hreach.trans (.head hpc₃ (hat 7) hloop), htpc, ?_⟩
    rw [htmem]
    simp only [armExec, hmem, hx1]
  · have hnone : (bssEnd.toNat - bssStart.toNat + 7) / 8 * 8 = 0 := by omega
    refine ⟨armExec c.addr 7 (.bgt 4) m₃, hreach.trans (.head hpc₃ (hat 7) (.refl _)), ?_, ?_⟩
    · rw [armExec_bgt_pc, hgt, decide_eq_false hempty]
      rfl
    · rw [hnone, zeroed_zero]
      exact hmem

end Arm

section X86

inductive X86Reg
  | rax
  | rbx
  | rcx
  | rdi
  | rbp
  | rsp
  deriving DecidableEq, Repr

/-- The registers the entry code uses, the direction flag, and the memory. -/
structure X86Machine where
  r : X86Reg → Word
  df : Bool
  pc : Word
  mem : Memory

def X86Machine.write (m : X86Machine) (r : X86Reg) (v : Word) : X86Machine :=
  { m with r := Function.update m.r r v }

/-- The instructions of the entry code on x86_64. -/
inductive X86Instr
  | lea (v : Word) (dst : X86Reg)
  | mov (src dst : X86Reg)
  | push (r : X86Reg)
  | sub (src dst : X86Reg)
  | shr (imm : Nat) (dst : X86Reg)
  | xor (src dst : X86Reg)
  | cld
  | repStosq
  deriving DecidableEq, Repr

/-- The flags of the arithmetic are not read here.  A repeated store is one step for
each word, at the same place until the count is zero. -/
def x86Exec (addr : Nat → Word) (i : Nat) (instr : X86Instr) (m : X86Machine) : X86Machine :=
  match instr with
  | .lea v dst => { m.write dst v with pc := addr (i + 1) }
  | .mov src dst => { m.write dst (m.r src) with pc := addr (i + 1) }
  | .push r =>
      { m.write .rsp (m.r .rsp - 8) with
        mem := store m.mem (m.r .rsp - 8) (m.r r), pc := addr (i + 1) }
  | .sub src dst => { m.write dst (m.r dst - m.r src) with pc := addr (i + 1) }
  | .shr imm dst => { m.write dst (m.r dst >>> imm) with pc := addr (i + 1) }
  | .xor src dst => { m.write dst (m.r dst ^^^ m.r src) with pc := addr (i + 1) }
  | .cld => { m with df := false, pc := addr (i + 1) }
  | .repStosq =>
      if m.r .rcx = 0 then { m with pc := addr (i + 1) }
      else
        { (m.write .rdi (if m.df then m.r .rdi - 8 else m.r .rdi + 8)).write .rcx
            (m.r .rcx - 1) with mem := store m.mem (m.r .rdi) (m.r .rax) }

/-- `_start` up to the call of `uart_init`. -/
def x86Start (stackTop bssStart bssEnd : Word) : List X86Instr :=
  [.lea stackTop .rsp,
    .mov .rsp .rbp,
    .push .rbx,
    .lea bssStart .rdi,
    .lea bssEnd .rcx,
    .sub .rdi .rcx,
    .shr 3 .rcx,
    .xor .rax .rax,
    .cld,
    .repStosq]

variable {c : Code Word X86Instr} {stackTop bssStart bssEnd : Word}

theorem x86_reaches_loop (hcode : c.instrs = x86Start stackTop bssStart bssEnd) {k : Nat}
    (m : X86Machine) (hpc : m.pc = c.addr 9) (hk : (m.r .rcx).toNat = k) (hk' : k * 8 < 2 ^ 64)
    (hrax : m.r .rax = 0) (hdf : m.df = false) :
    ∃ t, Reaches c X86Machine.pc (x86Exec c.addr) m t ∧ t.pc = c.addr 10 ∧
      t.r .rbx = m.r .rbx ∧ t.r .rsp = m.r .rsp ∧ t.mem = zeroed m.mem (m.r .rdi) (k * 8) := by
  have hat : c.instrs[9]? = some .repStosq := by rw [hcode]; rfl
  induction k generalizing m with
  | zero =>
      have hzero : m.r .rcx = 0 := BitVec.eq_of_toNat_eq hk
      refine ⟨{ m with pc := c.addr 10 }, .head hpc hat ?_, rfl, rfl, rfl,
        (zeroed_zero _ _).symm⟩
      rw [x86Exec, if_pos hzero]
      exact .refl _
  | succ k ih =>
      have hne : m.r .rcx ≠ 0 := by
        intro h
        rw [h] at hk
        cases hk
      obtain ⟨m₁, hm₁⟩ : ∃ t, x86Exec c.addr 9 .repStosq m = t := ⟨_, rfl⟩
      have hstep : m₁ = { (m.write .rdi (m.r .rdi + 8)).write .rcx (m.r .rcx - 1) with
          mem := store m.mem (m.r .rdi) 0 } := by
        rw [← hm₁, x86Exec, if_neg hne, hdf, hrax]
        rfl
      have hrcx : (m₁.r .rcx).toNat = k := by
        have hone : (1 : Word).toNat = 1 := rfl
        have hval : m₁.r .rcx = m.r .rcx - 1 := by simp [hstep, X86Machine.write]
        rw [hval, BitVec.toNat_sub, hk, hone]
        omega
      have hrdi : m₁.r .rdi = m.r .rdi + 8 := by simp [hstep, X86Machine.write]
      have hmem : m₁.mem = store m.mem (m.r .rdi) 0 := by rw [hstep]
      have hrbx : m₁.r .rbx = m.r .rbx := by simp [hstep, X86Machine.write]
      have hrsp : m₁.r .rsp = m.r .rsp := by simp [hstep, X86Machine.write]
      obtain ⟨t, hreach, htpc, htrbx, htrsp, htmem⟩ := ih m₁ (by rw [hstep]; exact hpc) hrcx
        (by omega) (by rw [← hrax]; simp [hstep, X86Machine.write]) (by rw [hstep]; exact hdf)
      refine ⟨t, .head hpc hat (hm₁ ▸ hreach), htpc, htrbx.trans hrbx, htrsp.trans hrsp, ?_⟩
      rw [htmem, hmem, hrdi, zeroed_store _ _ (by omega), Nat.succ_mul]

theorem x86_reaches (hcode : c.instrs = x86Start stackTop bssStart bssEnd)
    (hle : bssStart.toNat ≤ bssEnd.toNat) (m : X86Machine) (hpc : m.pc = c.addr 0) :
    ∃ t, Reaches c X86Machine.pc (x86Exec c.addr) m t ∧ t.pc = c.addr 10 ∧
      t.r .rbx = m.r .rbx ∧ t.r .rsp = stackTop - 8 ∧
      t.mem = zeroed (store m.mem (stackTop - 8) (m.r .rbx)) bssStart
        ((bssEnd.toNat - bssStart.toNat) / 8 * 8) := by
  have hat : ∀ i : Nat, c.instrs[i]? = (x86Start stackTop bssStart bssEnd)[i]? := fun i => by
    rw [hcode]
  obtain ⟨m₉, hm₉⟩ : ∃ t, x86Exec c.addr 8 .cld (x86Exec c.addr 7 (.xor .rax .rax)
      (x86Exec c.addr 6 (.shr 3 .rcx) (x86Exec c.addr 5 (.sub .rdi .rcx)
        (x86Exec c.addr 4 (.lea bssEnd .rcx) (x86Exec c.addr 3 (.lea bssStart .rdi)
          (x86Exec c.addr 2 (.push .rbx) (x86Exec c.addr 1 (.mov .rsp .rbp)
            (x86Exec c.addr 0 (.lea stackTop .rsp) m)))))))) = t := ⟨_, rfl⟩
  have hreach : Reaches c X86Machine.pc (x86Exec c.addr) m m₉ := by
    refine .head hpc (hat 0) (.head (i := 1) rfl (hat 1) (.head (i := 2) rfl (hat 2)
      (.head (i := 3) rfl (hat 3) (.head (i := 4) rfl (hat 4) (.head (i := 5) rfl (hat 5)
        (.head (i := 6) rfl (hat 6) (.head (i := 7) rfl (hat 7)
          (.head (i := 8) rfl (hat 8) ?_))))))))
    rw [hm₉]
    exact .refl _
  have hpc₉ : m₉.pc = c.addr 9 := by rw [← hm₉]; rfl
  have hdf : m₉.df = false := by rw [← hm₉]; rfl
  have hrax : m₉.r .rax = 0 := by simp [← hm₉, x86Exec, X86Machine.write]
  have hrbx : m₉.r .rbx = m.r .rbx := by simp [← hm₉, x86Exec, X86Machine.write]
  have hrsp : m₉.r .rsp = stackTop - 8 := by simp [← hm₉, x86Exec, X86Machine.write]
  have hrdi : m₉.r .rdi = bssStart := by simp [← hm₉, x86Exec, X86Machine.write]
  have hmem : m₉.mem = store m.mem (stackTop - 8) (m.r .rbx) := by
    simp [← hm₉, x86Exec, X86Machine.write]
  have hrcx : (m₉.r .rcx).toNat = (bssEnd.toNat - bssStart.toNat) / 8 := by
    have hval : m₉.r .rcx = (bssEnd - bssStart) >>> 3 := by
      simp [← hm₉, x86Exec, X86Machine.write]
    rw [hval, BitVec.toNat_ushiftRight, BitVec.toNat_sub, Nat.shiftRight_eq_div_pow]
    omega
  have hend := bssEnd.isLt
  obtain ⟨t, hloop, htpc, htrbx, htrsp, htmem⟩ :=
    x86_reaches_loop hcode m₉ hpc₉ hrcx (by omega) hrax hdf
  refine ⟨t, hreach.trans hloop, htpc, htrbx.trans hrbx, htrsp.trans hrsp, ?_⟩
  rw [htmem, hmem, hrdi]

end X86

/-- The bytes that are missing from the last eight. -/
def missing (size : Nat) : Nat := (8 - size % 8) % 8

/-- Whatever memory held, `boot.S` leaves a BSS of zeros, and changes at most the bytes
behind its end that fill the last eight, to zeros as well. -/
theorem arm_clears_bss {c : Code Word ArmInstr} {bssStart bssEnd : Word}
    (hcode : c.instrs = armClearBss bssStart bssEnd) (hle : bssStart.toNat ≤ bssEnd.toNat)
    (hend : bssEnd.toNat < 2 ^ 63) (m : ArmMachine) (hpc : m.pc = c.addr 0) :
    ∃ t, Reaches c ArmMachine.pc (armExec c.addr) m t ∧ t.pc = c.addr 8 ∧
      (∀ x, Covers bssStart (bssEnd.toNat - bssStart.toNat) x → t.mem x = 0) ∧
      ∀ x, ¬ Covers bssStart (bssEnd.toNat - bssStart.toNat) x →
        t.mem x =
          if Covers bssEnd (missing (bssEnd.toNat - bssStart.toNat)) x then 0 else m.mem x := by
  obtain ⟨t, hreach, htpc, htmem⟩ := arm_reaches hcode hle hend m hpc
  refine ⟨t, hreach, htpc, ?_, ?_⟩
  · intro x hx
    rw [htmem, zeroed, if_pos]
    rw [Covers] at hx ⊢
    omega
  · intro x hx
    have hbehind : Covers bssStart ((bssEnd.toNat - bssStart.toNat + 7) / 8 * 8) x ↔
        Covers bssEnd (missing (bssEnd.toNat - bssStart.toNat)) x := by
      simp only [Covers, BitVec.toNat_sub, missing] at hx ⊢
      omega
    rw [htmem]
    simp only [zeroed, hbehind]

/-- The code at the load address of the kernel, with nine bytes of BSS behind it. -/
def armSample : Code Word ArmInstr where
  instrs := armClearBss 0x90000 0x90009
  addr i := 0x80000 + BitVec.ofNat 64 i * 4
  injective := by decide

theorem arm_clears_bss_nine :
    ∃ t, Reaches armSample ArmMachine.pc (armExec armSample.addr)
        ⟨fun _ => 0, false, false, false, 0x80000, fun _ => 1⟩ t ∧ t.pc = armSample.addr 8 ∧
      (∀ x, Covers 0x90000 9 x → t.mem x = 0) ∧
      ∀ x, ¬ Covers 0x90000 9 x → t.mem x = if Covers 0x90009 (missing 9) x then 0 else 1 := by
  have hsize : (0x90009 : Word).toNat - (0x90000 : Word).toNat = 9 := by decide
  have hclears := @arm_clears_bss armSample 0x90000 0x90009 rfl (by decide) (by decide)
    ⟨fun _ => 0, false, false, false, 0x80000, fun _ => 1⟩ rfl
  rw [hsize] at hclears
  exact hclears

/-- The placement of the x86_64 kernel: the stack is one of the arrays of the BSS, at a
multiple of eight bytes from its start. -/
structure Layout where
  bssStart : Word
  bssEnd : Word
  stackTop : Word
  stack_ge : bssStart.toNat + 16384 ≤ stackTop.toNat
  stack_le : stackTop.toNat ≤ bssEnd.toNat
  aligned : (stackTop.toNat - bssStart.toNat) % 8 = 0

/-- The bytes of the BSS that make up no eight. -/
def Layout.tail (l : Layout) : Nat := (l.bssEnd.toNat - l.bssStart.toNat) % 8

theorem Layout.le (l : Layout) : l.bssStart.toNat ≤ l.bssEnd.toNat := by
  have hge := l.stack_ge
  have hle := l.stack_le
  omega

section Layout

variable (l : Layout) {c : Code Word X86Instr}

theorem Layout.toNat_saved : (l.stackTop - 8).toNat = l.stackTop.toNat - 8 := by
  have height : (8 : Word).toNat = 8 := rfl
  have hge := l.stack_ge
  rw [BitVec.toNat_sub, height]
  omega

theorem Layout.covers_saved {x : Word} (hx : Covers (l.stackTop - 8) 8 x) :
    Covers l.bssStart ((l.bssEnd.toNat - l.bssStart.toNat) / 8 * 8) x := by
  have hge := l.stack_ge
  have hle := l.stack_le
  have haligned := l.aligned
  have hsaved := l.toNat_saved
  refine hx.mono (d := l.stackTop.toNat - 8 - l.bssStart.toNat) ?_ (by omega)
  rw [BitVec.toNat_sub, hsaved]
  omega

end Layout

/-- The entry of x86_64 leaves a BSS of zeros exactly if the bytes at its end that make
up no eight were zeros before. -/
theorem x86_clears_bss_iff (l : Layout) {c : Code Word X86Instr}
    (hcode : c.instrs = x86Start l.stackTop l.bssStart l.bssEnd) (m : X86Machine)
    (hpc : m.pc = c.addr 0) :
    ∃ t, Reaches c X86Machine.pc (x86Exec c.addr) m t ∧ t.pc = c.addr 10 ∧
      ((∀ x, Covers l.bssStart (l.bssEnd.toNat - l.bssStart.toNat) x → t.mem x = 0) ↔
        ∀ x, Covers (l.bssEnd - BitVec.ofNat 64 l.tail) l.tail x → m.mem x = 0) := by
  obtain ⟨t, hreach, htpc, -, -, htmem⟩ := x86_reaches hcode l.le m hpc
  have hle := l.le
  have hlt := l.bssEnd.isLt
  refine ⟨t, hreach, htpc, ?_⟩
  have hsplit : ∀ x, Covers (l.bssEnd - BitVec.ofNat 64 l.tail) l.tail x ↔
      Covers l.bssStart (l.bssEnd.toNat - l.bssStart.toNat) x ∧
        ¬ Covers l.bssStart ((l.bssEnd.toNat - l.bssStart.toNat) / 8 * 8) x := by
    intro x
    have hx := x.isLt
    simp only [Covers, BitVec.toNat_sub, BitVec.toNat_ofNat, Layout.tail]
    omega
  have hkept : ∀ x, ¬ Covers l.bssStart ((l.bssEnd.toNat - l.bssStart.toNat) / 8 * 8) x →
      t.mem x = m.mem x := by
    intro x hx
    rw [htmem, zeroed, if_neg hx, store_of_not_covers (fun h => hx (l.covers_saved h))]
  constructor
  · intro hzero x hx
    obtain ⟨hbss, hnot⟩ := (hsplit x).mp hx
    rw [← hkept x hnot]
    exact hzero x hbss
  · intro hzero x hx
    by_cases hcleared : Covers l.bssStart ((l.bssEnd.toNat - l.bssStart.toNat) / 8 * 8) x
    · rw [htmem, zeroed, if_pos hcleared]
    · rw [hkept x hcleared]
      exact hzero x ((hsplit x).mpr ⟨hx, hcleared⟩)

/-- A BSS of the stack and one byte. -/
def sampleLayout : Layout where
  bssStart := 0x102000
  bssEnd := 0x106001
  stackTop := 0x106000
  stack_ge := by decide
  stack_le := by decide
  aligned := by decide

/-- The entry with the lengths of its instructions. -/
def x86Sample : Code Word X86Instr where
  instrs := x86Start sampleLayout.stackTop sampleLayout.bssStart sampleLayout.bssEnd
  addr i := 0x100040 + BitVec.ofNat 64 ((([7, 3, 1, 7, 7, 3, 4, 3, 1, 3] : List Nat).take i).sum)
  injective := by decide

/-- The state the boot loader enters with: the direction flag is set, and the memory is
full of ones. -/
def x86Entered : X86Machine := ⟨fun _ => 0x9000, true, 0x100040, fun _ => 1⟩

theorem x86_clears_bss_iff_one :
    ∃ t, Reaches x86Sample X86Machine.pc (x86Exec x86Sample.addr) x86Entered t ∧
      t.pc = x86Sample.addr 10 ∧
      ((∀ x, Covers 0x102000 0x4001 x → t.mem x = 0) ↔
        ∀ x, Covers (0x106001 - BitVec.ofNat 64 1) 1 x → x86Entered.mem x = 0) :=
  x86_clears_bss_iff sampleLayout rfl x86Entered rfl

/-- The pointer to the boot information that was saved on the stack is cleared with the
BSS the stack is part of; the register still has it. -/
theorem x86_saved_pointer_lost (l : Layout) {c : Code Word X86Instr}
    (hcode : c.instrs = x86Start l.stackTop l.bssStart l.bssEnd) (m : X86Machine)
    (hpc : m.pc = c.addr 0) :
    ∃ t, Reaches c X86Machine.pc (x86Exec c.addr) m t ∧ t.pc = c.addr 10 ∧
      load t.mem (t.r .rsp) = 0 ∧ t.r .rbx = m.r .rbx := by
  obtain ⟨t, hreach, htpc, hrbx, hrsp, htmem⟩ := x86_reaches hcode l.le m hpc
  refine ⟨t, hreach, htpc, ?_, hrbx⟩
  rw [hrsp]
  apply load_of_zero
  intro x hx
  rw [htmem, zeroed, if_pos (l.covers_saved hx)]

theorem x86_saved_pointer_lost_one :
    ∃ t, Reaches x86Sample X86Machine.pc (x86Exec x86Sample.addr) x86Entered t ∧
      t.pc = x86Sample.addr 10 ∧ load t.mem (t.r .rsp) = 0 ∧ t.r .rbx = 0x9000 :=
  x86_saved_pointer_lost sampleLayout rfl x86Entered rfl

end ShlteOs.BssClearing
