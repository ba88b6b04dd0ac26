import Mathlib.Data.Finset.Max
import Mathlib.Data.Fintype.Card
import Mathlib.Logic.Relation
import ShlteOs.GicSetup
import ShlteOs.IrqDispatch

/-!
Runs of the arm64 `handle_irq` against the interrupt controller.  Interrupts become
pending at any moment, also between the two accesses `handle_irq` makes: it reads the
acknowledge register and writes the number back before it calls the handler.  Which of
several interrupts of the same priority is acknowledged first is left open.
-/

namespace ShlteOs.GicRuns

open ShlteOs.GicSetup
open ShlteOs.IrqDispatch

variable {H : Type}

abbrev Irq := Fin gicMaxInterrupts

/-- The CPU runs other code or is in `handle_irq`. -/
inductive Cpu (H : Type)
  | idle
  | handling (h : Handled H)

/-- The two parties, with a record of what happened: how often each interrupt became
pending, which ones were acknowledged, and the handlers that were called. -/
structure System (H : Type) where
  pending : Irq → Bool
  active : Irq → Bool
  cpu : Cpu H
  raised : Irq → Nat
  taken : List Irq
  calls : List (H × Int)

def boot : System H where
  pending := fun _ => false
  active := fun _ => false
  cpu := .idle
  raised := fun _ => 0
  taken := []
  calls := []

/-- The value a read of the acknowledge register gives if there is nothing to take. -/
def spuriousId : BitVec 32 := 1023

section Steps

/-- A pending interrupt that the controller would hand out: signalled, and above all
that is active. -/
def Candidate (g : Gic) (s : System H) (n : Irq) : Prop :=
  s.pending n = true ∧ g.Signals n ∧ ∀ a, s.active a = true → g.priority n < g.priority a

/-- A device asks for an interrupt; one that is pending already stays so. -/
def System.raise (s : System H) (n : Irq) : System H :=
  if s.pending n then s
  else
    { s with
      pending := Function.update s.pending n true
      raised := Function.update s.raised n (s.raised n + 1) }

/-- The acknowledge register is read and gives `n`. -/
def System.take (beyond : Nat → Option H) (table : Table H) (s : System H) (n : Irq) : System H :=
  { s with
    pending := Function.update s.pending n false
    active := Function.update s.active n true
    cpu := .handling (handleIrq beyond table (BitVec.ofNat 32 n))
    taken := s.taken ++ [n] }

/-- A write to the end of interrupt register; numbers of inactive interrupts have no
effect. -/
def endOfInterrupt (active : Irq → Bool) (v : Option (BitVec 32)) : Irq → Bool :=
  fun n => active n && v != some (BitVec.ofNat 32 n)

/-- The return of `handle_irq`: the interrupt is ended, and the handler has run. -/
def System.finish (s : System H) (h : Handled H) : System H :=
  { s with
    active := endOfInterrupt s.active h.acknowledged
    cpu := .idle
    calls := s.calls ++ h.invoked }

/-- The accesses of `handle_irq`. -/
inductive CpuStep (g : Gic) (beyond : Nat → Option H) (table : Table H) :
    System H → System H → Prop
  | acknowledge {s : System H} {n : Irq} (hidle : s.cpu = .idle) (hn : Candidate g s n)
      (hfirst : ∀ k, Candidate g s k → g.priority n ≤ g.priority k) :
      CpuStep g beyond table s (s.take beyond table n)
  | spurious {s : System H} (hidle : s.cpu = .idle) (hnone : ∀ n, ¬ Candidate g s n) :
      CpuStep g beyond table s { s with cpu := .handling (handleIrq beyond table spuriousId) }
  | finish {s : System H} {h : Handled H} (hcpu : s.cpu = .handling h) :
      CpuStep g beyond table s (s.finish h)

/-- A device raises an interrupt, or the CPU goes on. -/
inductive Step (g : Gic) (beyond : Nat → Option H) (table : Table H) :
    System H → System H → Prop
  | raise (s : System H) (n : Irq) : Step g beyond table s (s.raise n)
  | cpu {s t : System H} (h : CpuStep g beyond table s t) : Step g beyond table s t

def Reachable (g : Gic) (beyond : Nat → Option H) (table : Table H) (s : System H) : Prop :=
  Relation.ReflTransGen (Step g beyond table) boot s

end Steps

section Invariant

variable {g : Gic} {beyond : Nat → Option H} {table : Table H}

/-- The calls an acknowledged interrupt leads to. -/
def dispatched (beyond : Nat → Option H) (table : Table H) (n : Irq) : List (H × Int) :=
  invoke (tableAt beyond table n) (BitVec.ofNat 32 n)

/-- What the CPU will end, and what it will call. -/
def Cpu.ends : Cpu H → Option (BitVec 32)
  | .idle => none
  | .handling h => h.acknowledged

/-- The handler calls that are still to be made. -/
def Cpu.owes : Cpu H → List (H × Int)
  | .idle => []
  | .handling h => h.invoked

/-- The invariant of the runs: what is active is being handled, every taken interrupt was
raised, and the calls made are those of the interrupts taken. -/
structure Sound (beyond : Nat → Option H) (table : Table H) (s : System H) : Prop where
  active : ∀ n, s.active n = true ↔ s.cpu.ends = some (BitVec.ofNat 32 n)
  conserved : ∀ n, s.taken.count n + (s.pending n).toNat = s.raised n
  calls : s.calls ++ s.cpu.owes = s.taken.flatMap (dispatched beyond table)

theorem ofNat_irq_inj {n k : Irq} (h : BitVec.ofNat 32 n.val = BitVec.ofNat 32 k.val) : n = k := by
  have hval := congrArg BitVec.toNat h
  have hn : n.val < 1020 := n.isLt
  have hk : k.val < 1020 := k.isLt
  rw [BitVec.toNat_ofNat, BitVec.toNat_ofNat] at hval
  exact Fin.ext (by omega)

theorem toNat_irq (n : Irq) : (BitVec.ofNat 32 n.val).toNat = n.val := by
  have hn : n.val < 1020 := n.isLt
  rw [BitVec.toNat_ofNat]
  omega

theorem handleIrq_irq (n : Irq) :
    handleIrq beyond table (BitVec.ofNat 32 n) =
      { acknowledged := some (BitVec.ofNat 32 n), reads := [n.val],
        invoked := dispatched beyond table n } := by
  have hn : n.val < 1020 := n.isLt
  have hval := toNat_irq n
  have hne : ∀ k : Nat, 1020 ≤ k → k < 2 ^ 32 → BitVec.ofNat 32 n.val ≠ BitVec.ofNat 32 k := by
    intro k hk hlt heq
    have hnat := congrArg BitVec.toNat heq
    rw [hval, BitVec.toNat_ofNat] at hnat
    omega
  rw [handleIrq, if_pos ⟨hne 1020 (by decide) (by decide), hne 1021 (by decide) (by decide)⟩,
    if_pos (by rw [hval]; exact n.isLt), hval, dispatched]

theorem handleIrq_spurious :
    handleIrq beyond table spuriousId =
      { acknowledged := some spuriousId, reads := [], invoked := [] } := rfl

theorem spuriousId_ne (n : Irq) : some spuriousId ≠ some (BitVec.ofNat 32 n.val) := by
  intro h
  have hn : n.val < 1020 := n.isLt
  have hval := congrArg BitVec.toNat (Option.some.inj h)
  rw [toNat_irq] at hval
  have hid : spuriousId.toNat = 1023 := rfl
  omega

theorem sound_boot : Sound beyond table boot where
  active := fun _ => ⟨fun h => Bool.noConfusion h, fun h => nomatch h⟩
  conserved := fun _ => rfl
  calls := rfl

theorem Sound.active_of_idle {s : System H} (h : Sound beyond table s) (hidle : s.cpu = .idle)
    (n : Irq) : s.active n = false := by
  rw [Bool.eq_false_iff, Ne, h.active, hidle]
  exact fun hends => nomatch hends

theorem Sound.raise {s : System H} (h : Sound beyond table s) (n : Irq) :
    Sound beyond table (s.raise n) := by
  cases hpending : s.pending n with
  | true =>
      rw [System.raise, if_pos hpending]
      exact h
  | false =>
      rw [System.raise, if_neg (by rw [hpending]; decide)]
      refine ⟨h.active, ?_, h.calls⟩
      intro k
      have hk := h.conserved k
      by_cases hkn : k = n
      · subst hkn
        rw [hpending] at hk
        simp only [Function.update_self]
        exact congrArg (· + 1) hk
      · simp only [Function.update_of_ne hkn]
        exact hk

theorem Sound.take {s : System H} (h : Sound beyond table s) (hidle : s.cpu = .idle) {n : Irq}
    (hn : s.pending n = true) : Sound beyond table (s.take beyond table n) := by
  refine ⟨?_, ?_, ?_⟩
  · intro k
    simp only [System.take, Cpu.ends, handleIrq_irq]
    by_cases hkn : k = n
    · subst hkn
      simp only [Function.update_self]
    · rw [Function.update_of_ne hkn, h.active_of_idle hidle]
      refine ⟨fun hfalse => Bool.noConfusion hfalse, fun heq => ?_⟩
      exact absurd (ofNat_irq_inj (Option.some.inj heq)).symm hkn
  · intro k
    have hk := h.conserved k
    simp only [System.take, List.count_append]
    by_cases hkn : k = n
    · subst hkn
      rw [hn] at hk
      rw [Function.update_self, List.count_singleton_self]
      exact hk
    · rw [Function.update_of_ne hkn, List.count_singleton, beq_false_of_ne (Ne.symm hkn)]
      exact hk
  · have hcalls := h.calls
    rw [hidle] at hcalls
    simp only [System.take, Cpu.owes, handleIrq_irq, List.flatMap_append, List.flatMap_singleton,
      ← hcalls, List.append_nil]

theorem Sound.spurious {s : System H} (h : Sound beyond table s) (hidle : s.cpu = .idle) :
    Sound beyond table { s with cpu := .handling (handleIrq beyond table spuriousId) } := by
  refine ⟨?_, h.conserved, ?_⟩
  · intro n
    simp only [Cpu.ends, handleIrq_spurious]
    rw [h.active_of_idle hidle]
    exact ⟨fun hfalse => Bool.noConfusion hfalse, fun heq => absurd heq (spuriousId_ne n)⟩
  · have hcalls := h.calls
    rw [hidle] at hcalls
    exact hcalls

theorem Sound.finish {s : System H} (h : Sound beyond table s) {hd : Handled H}
    (hcpu : s.cpu = .handling hd) : Sound beyond table (s.finish hd) := by
  refine ⟨?_, h.conserved, ?_⟩
  · intro n
    have hactive := h.active n
    rw [hcpu] at hactive
    simp only [System.finish, endOfInterrupt, Cpu.ends, Bool.and_eq_true, bne_iff_ne] at hactive ⊢
    refine ⟨fun hboth => absurd (hactive.mp hboth.1) hboth.2, fun hends => nomatch hends⟩
  · have hcalls := h.calls
    rw [hcpu] at hcalls
    simp only [System.finish, Cpu.owes, List.append_nil]
    exact hcalls

theorem Sound.cpuStep {s t : System H} (h : Sound beyond table s)
    (hstep : CpuStep g beyond table s t) : Sound beyond table t := by
  cases hstep with
  | acknowledge hidle hn hfirst => exact h.take hidle hn.1
  | spurious hidle hnone => exact h.spurious hidle
  | finish hcpu => exact h.finish hcpu

theorem sound_of_reachable {s : System H} (h : Reachable g beyond table s) :
    Sound beyond table s := by
  induction h with
  | refl => exact sound_boot
  | tail _ hstep ih =>
      cases hstep with
      | raise n => exact ih.raise n
      | cpu hcpu => exact ih.cpuStep hcpu

end Invariant

section Progress

variable {g : Gic} {beyond : Nat → Option H} {table : Table H}

open Classical in
/-- The interrupts that are pending and signalled. -/
noncomputable def waiting (g : Gic) (s : System H) : Finset Irq :=
  Finset.univ.filter fun n => s.pending n = true ∧ g.Signals n

theorem mem_waiting {s : System H} {n : Irq} :
    n ∈ waiting g s ↔ s.pending n = true ∧ g.Signals n := by
  classical
  rw [waiting, Finset.mem_filter]
  exact and_iff_right (Finset.mem_univ n)

def Cpu.busy : Cpu H → Nat
  | .idle => 0
  | .handling _ => 1

/-- The accesses that are left to the CPU if no more interrupts come. -/
noncomputable def work (g : Gic) (s : System H) : Nat := 2 * (waiting g s).card + s.cpu.busy

/-- `k` accesses of the CPU, with no interrupt in between. -/
inductive CpuRun (g : Gic) (beyond : Nat → Option H) (table : Table H) :
    Nat → System H → System H → Prop
  | nil (s : System H) : CpuRun g beyond table 0 s s
  | cons {k : Nat} {s t u : System H} (hstep : CpuStep g beyond table s t)
      (hrest : CpuRun g beyond table k t u) : CpuRun g beyond table (k + 1) s u

theorem candidate_of_idle {s : System H} (h : Sound beyond table s) (hidle : s.cpu = .idle)
    {n : Irq} : Candidate g s n ↔ n ∈ waiting g s := by
  rw [mem_waiting, Candidate]
  refine ⟨fun hc => ⟨hc.1, hc.2.1⟩, fun hw => ⟨hw.1, hw.2, fun a ha => ?_⟩⟩
  rw [h.active_of_idle hidle a] at ha
  cases ha

theorem exists_cpuStep (g : Gic) (beyond : Nat → Option H) (table : Table H) (s : System H) :
    ∃ t, CpuStep g beyond table s t := by
  classical
  cases hcpu : s.cpu with
  | handling h => exact ⟨_, .finish hcpu⟩
  | idle =>
      by_cases hnone : ∀ n, ¬ Candidate g s n
      · exact ⟨_, .spurious hcpu hnone⟩
      · obtain ⟨n₀, hn₀⟩ := not_forall_not.mp hnone
        obtain ⟨n, hn, hfirst⟩ := Finset.exists_min_image
          (Finset.univ.filter fun n => Candidate g s n) (fun n => (g.priority n).toNat)
          ⟨n₀, by simpa using hn₀⟩
        refine ⟨_, .acknowledge hcpu (by simpa using hn)
          fun k hk => BitVec.le_def.mpr (hfirst k ?_)⟩
        simpa using hk

theorem exists_cpuRun (g : Gic) (beyond : Nat → Option H) (table : Table H) (k : Nat)
    (s : System H) : ∃ t, CpuRun g beyond table k s t := by
  induction k generalizing s with
  | zero => exact ⟨s, .nil s⟩
  | succ k ih =>
      obtain ⟨t, hstep⟩ := exists_cpuStep g beyond table s
      obtain ⟨u, hrest⟩ := ih t
      exact ⟨u, .cons hstep hrest⟩

theorem waiting_take {s : System H} {n : Irq} :
    waiting g (s.take beyond table n) = (waiting g s).erase n := by
  ext k
  rw [Finset.mem_erase, mem_waiting, mem_waiting, System.take]
  by_cases hk : k = n
  · subst hk
    simp
  · simp [hk]

theorem waiting_subset {s t : System H} (hstep : CpuStep g beyond table s t) :
    waiting g t ⊆ waiting g s := by
  cases hstep with
  | acknowledge hidle hn hfirst =>
      rw [waiting_take]
      exact Finset.erase_subset _ _
  | spurious hidle hnone => exact Finset.Subset.refl _
  | finish hcpu => exact Finset.Subset.refl _

/-- Every access is one less to do, unless there is nothing to take. -/
theorem work_step {s t : System H} (h : Sound beyond table s)
    (hstep : CpuStep g beyond table s t) : work g t + 1 = work g s ∨ waiting g s = ∅ := by
  cases hstep with
  | @acknowledge n hidle hn hfirst =>
      left
      have hmem := (candidate_of_idle h hidle).mp hn
      have hpos : 0 < (waiting g s).card := Finset.card_pos.mpr ⟨n, hmem⟩
      have hbusy : (s.take beyond table n).cpu.busy = 1 := rfl
      rw [work, work, waiting_take, Finset.card_erase_of_mem hmem, hbusy, hidle, Cpu.busy]
      omega
  | spurious hidle hnone =>
      right
      rw [Finset.eq_empty_iff_forall_notMem]
      exact fun n hn => hnone n ((candidate_of_idle h hidle).mpr hn)
  | @finish hd hcpu =>
      left
      have hwaiting : waiting g (s.finish hd) = waiting g s := by
        ext n
        rw [mem_waiting, mem_waiting, System.finish]
      have hbusy : (s.finish hd).cpu.busy = 0 := rfl
      rw [work, work, hwaiting, hbusy, hcpu, Cpu.busy]

theorem waiting_of_cpuRun {k : Nat} {s t : System H} (h : Sound beyond table s)
    (hrun : CpuRun g beyond table k s t) (hk : work g s ≤ k ∨ waiting g s = ∅) :
    waiting g t = ∅ := by
  induction hrun with
  | nil s =>
      refine hk.elim (fun hle => ?_) id
      rw [work] at hle
      exact Finset.card_eq_zero.mp (by omega)
  | @cons k s t u hstep hrest ih =>
      have hstays (hempty : waiting g s = ∅) : waiting g t = ∅ :=
        Finset.subset_empty.mp (hempty ▸ waiting_subset hstep)
      apply ih (h.cpuStep hstep)
      rcases hk with hle | hempty
      · exact (work_step h hstep).imp (fun hless => by omega) hstays
      · exact .inr (hstays hempty)

end Progress

/-- In every interleaving of interrupts with the accesses of `handle_irq`, no interrupt is
lost and none is taken twice: each one was acknowledged as often as it became pending,
but for the one time it may be pending now.  Between two interrupts none is left active,
and the handlers that were called are those of the interrupts taken, in their order. -/
theorem interrupts_conserved {g : Gic} {beyond : Nat → Option H} {table : Table H}
    {s : System H} (h : Reachable g beyond table s) :
    (∀ n, s.taken.count n + (s.pending n).toNat = s.raised n) ∧
      (s.cpu = .idle → (∀ n, s.active n = false) ∧
        s.calls = s.taken.flatMap (dispatched beyond table)) := by
  have hsound := sound_of_reachable h
  refine ⟨hsound.conserved, fun hidle => ⟨hsound.active_of_idle hidle, ?_⟩⟩
  have hcalls := hsound.calls
  rw [hidle] at hcalls
  exact (List.append_nil _).symm.trans hcalls

/-- A controller that signals every interrupt, at one priority. -/
def openGic : Gic := ⟨true, fun _ => true, fun _ => 0x80, 0xFF, true⟩

def three : Irq := ⟨3, by decide⟩

def oneHandler : Table Unit := fun n => if n.val = 3 then some () else none

def served : System Unit :=
  ((boot.raise three).take (fun _ => none) oneHandler three).finish
    (handleIrq (fun _ => none) oneHandler 3)

theorem reachable_served : Reachable openGic (fun _ => none) oneHandler served := by
  have hnone : ∀ a, (boot.raise three : System Unit).active a = false := fun _ => rfl
  have htake : CpuStep openGic (fun _ => none) oneHandler (boot.raise three)
      ((boot.raise three).take (fun _ => none) oneHandler three) := by
    refine .acknowledge rfl ⟨rfl, ⟨rfl, rfl, by decide, rfl⟩, fun a ha => ?_⟩ fun k _ => ?_
    · rw [hnone a] at ha
      cases ha
    · exact BitVec.le_def.mpr (Nat.le_refl _)
  have hraise : Reachable openGic (fun _ => none) oneHandler (boot.raise three) :=
    .single (.raise boot three)
  exact (hraise.tail (.cpu htake)).tail (.cpu (.finish rfl))

theorem interrupts_conserved_served :
    served.taken.count three + (served.pending three).toNat = 1 ∧ served.calls = [((), 3)] :=
  ⟨(interrupts_conserved reachable_served).1 three,
    ((interrupts_conserved reachable_served).2 rfl).2⟩

/-- Once no more interrupts come, repeated calls of `handle_irq` take everything that is
signalled, with two accesses for each interrupt, and no call is ever stuck. -/
theorem interrupts_drained {g : Gic} {beyond : Nat → Option H} {table : Table H} {s : System H}
    (h : Reachable g beyond table s) {k : Nat} (hk : work g s ≤ k) :
    (∃ t, CpuRun g beyond table k s t) ∧
      ∀ t, CpuRun g beyond table k s t → ∀ n, t.pending n = true → ¬ g.Signals n := by
  refine ⟨exists_cpuRun g beyond table k s, ?_⟩
  intro t hrun n hpending hsignals
  have hempty := waiting_of_cpuRun (sound_of_reachable h) hrun (.inl hk)
  have hmem : n ∈ waiting g t := mem_waiting.mpr ⟨hpending, hsignals⟩
  rw [hempty] at hmem
  exact Finset.notMem_empty n hmem

theorem interrupts_drained_three :
    work openGic (boot.raise three : System Unit) ≤ 2 ∧
      ∀ t, CpuRun openGic (fun _ => none) oneHandler 2 (boot.raise three) t →
        ∀ n, t.pending n = true → ¬ openGic.Signals n := by
  have hsubset : waiting openGic (boot.raise three : System Unit) ⊆ {three} := by
    intro n hn
    rw [Finset.mem_singleton]
    by_contra hne
    have hpending : (boot.raise three : System Unit).pending n = false :=
      Function.update_of_ne hne _ _
    rw [mem_waiting, hpending] at hn
    cases hn.1
  have hwork : work openGic (boot.raise three : System Unit) ≤ 2 := by
    have hcard := Finset.card_le_card hsubset
    rw [Finset.card_singleton] at hcard
    have hbusy : (boot.raise three : System Unit).cpu.busy = 0 := rfl
    rw [work, hbusy]
    omega
  exact ⟨hwork, (interrupts_drained (.single (.raise boot three)) hwork).2⟩

end ShlteOs.GicRuns
