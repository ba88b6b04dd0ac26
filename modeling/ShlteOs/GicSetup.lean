import Mathlib.Data.BitVec
import Mathlib.Data.List.Range
import Mathlib.Tactic.IntervalCases

/-!
The interrupt controller of arm64 and the `interrupt_init` that sets it up.  The loops
over the priority and enable registers go in steps of 16 bytes, where the registers
are 4 bytes apart, and the distributor itself is never switched on; what can be
signalled afterwards depends on the state the controller was in.
-/

namespace ShlteOs.GicSetup

section Device

/-- The state of a GICv2 that decides which interrupts reach the CPU. -/
structure Gic where
  forwarding : Bool
  enabled : Nat → Bool
  priority : Nat → BitVec 8
  mask : BitVec 8
  signalling : Bool

/-- A write to a word of the distributor: the control register, a set-enable register
with 32 interrupts or a priority register with four.  A cleared bit in a set-enable
register changes nothing. -/
def Gic.writeDistributor (g : Gic) (word : Nat) (v : BitVec 32) : Gic :=
  if word = 0 then { g with forwarding := v.getLsbD 0 }
  else if 0x40 ≤ word ∧ word < 0x60 then
    { g with enabled := fun n => g.enabled n || (n / 32 == word - 0x40 && v.getLsbD (n % 32)) }
  else if 0x100 ≤ word ∧ word < 0x200 then
    { g with priority := fun n =>
        if n / 4 = word - 0x100 then v.extractLsb' (8 * (n % 4)) 8 else g.priority n }
  else g

/-- A write to a word of the CPU interface. -/
def Gic.writeInterface (g : Gic) (word : Nat) (v : BitVec 32) : Gic :=
  if word = 0 then { g with signalling := v.getLsbD 0 }
  else if word = 1 then { g with mask := v.setWidth 8 }
  else g

/-- A pending interrupt is signalled to the CPU; lower values are higher priorities. -/
def Gic.Signals (g : Gic) (n : Nat) : Prop :=
  g.forwarding = true ∧ g.enabled n = true ∧ g.priority n < g.mask ∧ g.signalling = true

end Device

section Driver

def gicdIsenabler : Nat := 0x100

def gicdIpriorityr : Nat := 0x400

def giccCtlr : Nat := 0x000

def giccPmr : Nat := 0x004

/-- The first loop.  The source steps by 16 bytes from register to register. -/
def setPriorities (g : Gic) (turns : Nat) : Gic :=
  (List.range turns).foldl
    (fun g i => g.writeDistributor ((gicdIpriorityr + i * 16) / 4) 0x80808080) g

/-- The second loop, with the same step. -/
def enableInterrupts (g : Gic) (turns : Nat) : Gic :=
  (List.range turns).foldl
    (fun g i => g.writeDistributor ((gicdIsenabler + i * 16) / 4) 0xFFFFFFFF) g

/-- `interrupt_init`; the type register is only read for a message. -/
def interruptInit (g : Gic) : Gic :=
  ((enableInterrupts (setPriorities g 32) 4).writeInterface (giccPmr / 4) 0xFF).writeInterface
    (giccCtlr / 4) 0x01

end Driver

section Loops

theorem priority_byte (n : Nat) :
    (0x80808080 : BitVec 32).extractLsb' (8 * (n % 4)) 8 = 0x80 := by
  have hlt : n % 4 < 4 := Nat.mod_lt n (by decide)
  interval_cases n % 4 <;> rfl

theorem enable_bit (n : Nat) : (0xFFFFFFFF : BitVec 32).getLsbD (n % 32) = true := by
  have hlt : n % 32 < 32 := Nat.mod_lt n (by decide)
  interval_cases n % 32 <;> rfl

theorem writePriority (g : Gic) {i : Nat} (hi : i < 64) :
    g.writeDistributor ((gicdIpriorityr + i * 16) / 4) 0x80808080 =
      { g with priority := fun n => if n / 4 = 4 * i then 0x80 else g.priority n } := by
  have hword : (gicdIpriorityr + i * 16) / 4 = 0x100 + 4 * i := by
    rw [gicdIpriorityr]
    omega
  rw [hword, Gic.writeDistributor, if_neg (by omega), if_neg (by omega), if_pos (by omega)]
  simp only [priority_byte, Nat.add_sub_cancel_left]

theorem writeEnable (g : Gic) {i : Nat} (hi : i < 8) :
    g.writeDistributor ((gicdIsenabler + i * 16) / 4) 0xFFFFFFFF =
      { g with enabled := fun n => g.enabled n || n / 32 == 4 * i } := by
  have hword : (gicdIsenabler + i * 16) / 4 = 0x40 + 4 * i := by
    rw [gicdIsenabler]
    omega
  rw [hword, Gic.writeDistributor, if_neg (by omega), if_pos (by omega)]
  simp only [enable_bit, Nat.add_sub_cancel_left, Bool.and_true]

/-- The priorities that `turns` turns of the first loop have reached: four interrupts
out of sixteen. -/
theorem setPriorities_eq (g : Gic) {turns : Nat} (h : turns ≤ 64) :
    setPriorities g turns =
      { g with priority := fun n =>
          if n < 16 * turns ∧ n % 16 < 4 then 0x80 else g.priority n } := by
  induction turns with
  | zero => simp [setPriorities]
  | succ turns ih =>
      have hloop : setPriorities g (turns + 1) =
          (setPriorities g turns).writeDistributor ((gicdIpriorityr + turns * 16) / 4)
            0x80808080 := by
        rw [setPriorities, List.range_succ, List.foldl_append]
        rfl
      rw [hloop, ih (by omega), writePriority _ (by omega)]
      simp only [Gic.mk.injEq, true_and, and_true]
      funext n
      by_cases hlast : n / 4 = 4 * turns
      · rw [if_pos hlast, if_pos (by omega)]
      · rw [if_neg hlast]
        by_cases hreached : n < 16 * turns ∧ n % 16 < 4
        · rw [if_pos hreached, if_pos (by omega)]
        · rw [if_neg hreached, if_neg (by omega)]

theorem enableInterrupts_eq (g : Gic) {turns : Nat} (h : turns ≤ 8) :
    enableInterrupts g turns =
      { g with enabled := fun n =>
          g.enabled n || decide (n < 128 * turns ∧ n / 32 % 4 = 0) } := by
  induction turns with
  | zero => simp [enableInterrupts]
  | succ turns ih =>
      have hloop : enableInterrupts g (turns + 1) =
          (enableInterrupts g turns).writeDistributor ((gicdIsenabler + turns * 16) / 4)
            0xFFFFFFFF := by
        rw [enableInterrupts, List.range_succ, List.foldl_append]
        rfl
      rw [hloop, ih (by omega), writeEnable _ (by omega)]
      simp only [Gic.mk.injEq, true_and, and_true]
      funext n
      rw [Bool.or_assoc]
      congr 1
      rw [Bool.eq_iff_iff, Bool.or_eq_true, decide_eq_true_iff, decide_eq_true_iff, beq_iff_eq]
      omega

end Loops

theorem interruptInit_eq (g : Gic) :
    interruptInit g =
      { forwarding := g.forwarding
        enabled := fun n => g.enabled n || decide (n < 512 ∧ n / 32 % 4 = 0)
        priority := fun n => if n < 512 ∧ n % 16 < 4 then 0x80 else g.priority n
        mask := 0xFF
        signalling := true } := by
  rw [interruptInit, setPriorities_eq g (by decide), enableInterrupts_eq _ (by decide)]
  rfl

/-- What `interrupt_init` makes of a controller in any state: an interrupt is signalled
exactly if the distributor was forwarding before, and the interrupt was enabled before
or lies in the first bank of a group of four below 512, and its priority was set by the
loop or was not the lowest before. -/
theorem interruptInit_signals_iff (g : Gic) (n : Nat) :
    (interruptInit g).Signals n ↔
      g.forwarding = true ∧ (g.enabled n = true ∨ n < 512 ∧ n / 32 % 4 = 0) ∧
        (n < 512 ∧ n % 16 < 4 ∨ g.priority n ≠ 0xFF) := by
  rw [interruptInit_eq, Gic.Signals]
  simp only [Bool.or_eq_true, decide_eq_true_iff, and_true]
  refine and_congr_right fun _ => and_congr_right fun _ => ?_
  by_cases hset : n < 512 ∧ n % 16 < 4
  · rw [if_pos hset]
    exact ⟨fun _ => .inl hset, fun _ => by decide⟩
  · rw [if_neg hset]
    have hlt : g.priority n < 0xFF ↔ g.priority n ≠ 0xFF := by
      have hbound := (g.priority n).isLt
      have hval : (0xFF : BitVec 8).toNat = 255 := rfl
      rw [BitVec.lt_def, ne_eq, ← BitVec.toNat_inj, hval]
      omega
    rw [hlt]
    exact ⟨.inr, fun h => h.resolve_left hset⟩

end ShlteOs.GicSetup
