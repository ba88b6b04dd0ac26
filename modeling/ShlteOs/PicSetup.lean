import Mathlib.Data.BitVec
import Mathlib.Data.List.Pairwise
import Mathlib.Tactic.IntervalCases

/-!
The pair of 8259A interrupt controllers of x86_64 and the driver that sets them up.
The driver programs both chips anew, so nothing of their earlier state is left.  Over
runs of requests, acknowledgements and ends of interrupt the in-service registers stand
for a stack: the last interrupt acknowledged is the first one ended.
-/

namespace ShlteOs.PicSetup

section Device

/-- What a chip takes the next write to its data port for. -/
inductive Phase
  | ready
  | icw2
  | icw3
  | icw4
  deriving DecidableEq

/-- The registers of an 8259A, and where it is in its initialization. -/
structure Chip where
  imr : BitVec 8
  irr : BitVec 8
  isr : BitVec 8
  base : BitVec 8
  cascade : BitVec 8
  icw4 : BitVec 8
  phase : Phase
  wantsIcw4 : Bool
  single : Bool
  deriving DecidableEq

/-- The first command word resets the chip. -/
def Chip.begin (c : Chip) (v : BitVec 8) : Chip :=
  { c with
    imr := 0, irr := 0, isr := 0, icw4 := 0
    phase := .icw2, wantsIcw4 := v.getLsbD 0, single := v.getLsbD 1 }

/-- The in-service interrupt of the highest priority ends. -/
def Chip.endInterrupt (c : Chip) : Chip :=
  match (List.range 8).find? c.isr.getLsbD with
  | some i => { c with isr := c.isr &&& ~~~BitVec.twoPow 8 i }
  | none => c

/-- A write to the command port: the start of an initialisation or a non-specific end
of interrupt.  Of the other command words none is ever written here. -/
def Chip.command (c : Chip) (v : BitVec 8) : Chip :=
  if v.getLsbD 4 then c.begin v
  else if v = 0x20 then c.endInterrupt
  else c

def Chip.afterIcw3 (c : Chip) : Phase :=
  if c.wantsIcw4 then .icw4 else .ready

/-- A byte at the data port: the next command word, or the mask. -/
def Chip.data (c : Chip) (v : BitVec 8) : Chip :=
  match c.phase with
  | .ready => { c with imr := v }
  | .icw2 => { c with base := v, phase := if c.single then c.afterIcw3 else .icw3 }
  | .icw3 => { c with cascade := v, phase := c.afterIcw3 }
  | .icw4 => { c with icw4 := v, phase := .ready }

/-- The request a chip passes on: unmasked, and above everything in service. -/
def Chip.selected (c : Chip) (requests : BitVec 8) : Option Nat :=
  if c.phase = .ready ∧ c.icw4.getLsbD 0 then
    (List.range 8).find? fun i =>
      requests.getLsbD i && !c.imr.getLsbD i &&
        (List.range (i + 1)).all fun j => !c.isr.getLsbD j
  else none

/-- The acknowledged request is in service, unless the chip ends interrupts by itself. -/
def Chip.serve (c : Chip) (i : Nat) : Chip :=
  { c with
    irr := c.irr &&& ~~~BitVec.twoPow 8 i
    isr := if c.icw4.getLsbD 1 then c.isr else c.isr ||| BitVec.twoPow 8 i }

def Chip.vector (c : Chip) (i : Nat) : BitVec 8 :=
  c.base &&& 0xF8 ||| BitVec.ofNat 8 i

structure Pics where
  primary : Chip
  secondary : Chip
  deriving DecidableEq

/-- The requests at the primary chip; the output of the secondary is wired to line 2. -/
def Pics.requests (s : Pics) : BitVec 8 :=
  if (s.secondary.selected s.secondary.irr).isSome then s.primary.irr ||| 0x04
  else s.primary.irr

def Chip.request (c : Chip) (i : Nat) : Chip :=
  { c with irr := c.irr ||| BitVec.twoPow 8 i }

/-- A device raises one of the sixteen lines; at line 2 there is no device. -/
def Pics.raise (s : Pics) (line : Nat) : Pics :=
  if line = 2 then s
  else if line < 8 then { s with primary := s.primary.request line }
  else { s with secondary := s.secondary.request (line - 8) }

/-- The CPU acknowledges an interrupt and gets its vector, from the chip whose line the
primary selected. -/
def Pics.acknowledge (s : Pics) : Option (Pics × BitVec 8) :=
  match s.primary.selected s.requests with
  | none => none
  | some i =>
      if s.primary.cascade.getLsbD i then
        match s.secondary.selected s.secondary.irr with
        | none => none
        | some j =>
            if s.secondary.cascade.toNat % 8 = i then
              some (⟨s.primary.serve i, s.secondary.serve j⟩, s.secondary.vector j)
            else none
      else some ({ s with primary := s.primary.serve i }, s.primary.vector i)

inductive Port
  | pic1Cmd
  | pic1Data
  | pic2Cmd
  | pic2Data

def Pics.outb (s : Pics) (port : Port) (v : BitVec 8) : Pics :=
  match port with
  | .pic1Cmd => { s with primary := s.primary.command v }
  | .pic1Data => { s with primary := s.primary.data v }
  | .pic2Cmd => { s with secondary := s.secondary.command v }
  | .pic2Data => { s with secondary := s.secondary.data v }

def Pics.inb (s : Pics) (port : Port) : BitVec 8 :=
  match port with
  | .pic1Cmd => s.primary.irr
  | .pic1Data => s.primary.imr
  | .pic2Cmd => s.secondary.irr
  | .pic2Data => s.secondary.imr

end Device

section Driver

def picSendEoi (s : Pics) : Pics :=
  (s.outb .pic2Cmd 0x20).outb .pic1Cmd 0x20

/-- `pic_remap`, which keeps the masks. -/
def picRemap (s : Pics) : Pics :=
  let mask1 := s.inb .pic1Data
  let mask2 := s.inb .pic2Data
  let s := (s.outb .pic1Cmd 0x11).outb .pic2Cmd 0x11
  let s := (s.outb .pic1Data 0x20).outb .pic2Data 0x28
  let s := (s.outb .pic1Data 0x04).outb .pic2Data 0x02
  let s := (s.outb .pic1Data 0x01).outb .pic2Data 0x01
  (s.outb .pic1Data mask1).outb .pic2Data mask2

def picMaskAll (s : Pics) : Pics :=
  (s.outb .pic1Data 0xFF).outb .pic2Data 0xFF

/-- The value is computed as an `int` and stored as a byte. -/
def unmasked (value : BitVec 8) (irq : Nat) : BitVec 8 :=
  (value.setWidth 32 &&& ~~~(1#32 <<< irq)).setWidth 8

def picUnmask (s : Pics) (irq : Nat) : Pics :=
  if irq < 8 then s.outb .pic1Data (unmasked (s.inb .pic1Data) irq)
  else s.outb .pic2Data (unmasked (s.inb .pic2Data) (irq - 8))

def interruptInit (s : Pics) : Pics :=
  picUnmask (picMaskAll (picRemap s)) 1

end Driver

theorem picRemap_eq (s : Pics) :
    picRemap s =
      { primary := ⟨s.primary.imr, 0, 0, 0x20, 0x04, 0x01, .ready, true, false⟩
        secondary := ⟨s.secondary.imr, 0, 0, 0x28, 0x02, 0x01, .ready, true, false⟩ } :=
  rfl

theorem interruptInit_eq (s : Pics) :
    interruptInit s =
      { primary := ⟨0xFD, 0, 0, 0x20, 0x04, 0x01, .ready, true, false⟩
        secondary := ⟨0xFF, 0, 0, 0x28, 0x02, 0x01, .ready, true, false⟩ } := by
  have hmask : unmasked 0xFF 1 = 0xFD := by decide
  rw [interruptInit, picRemap_eq, ← hmask]
  rfl

section Lines

theorem getLsbD_set (x : BitVec 8) {i : Nat} (hi : i < 8) (j : Nat) :
    (x ||| BitVec.twoPow 8 i).getLsbD j = (x.getLsbD j || decide (j = i)) := by
  rw [BitVec.getLsbD_or, BitVec.getLsbD_twoPow]
  simp [hi, eq_comm]

theorem getLsbD_clear (x : BitVec 8) (i j : Nat) :
    (x &&& ~~~BitVec.twoPow 8 i).getLsbD j = (x.getLsbD j && decide (j ≠ i)) := by
  by_cases hj : j < 8
  · by_cases hij : i = j
    · simp [hij]
    · simp [hj, Ne.symm hij]
  · rw [BitVec.getLsbD_of_ge _ _ (by omega), BitVec.getLsbD_of_ge _ _ (by omega)]
    rfl

theorem getLsbD_unmasked (value : BitVec 8) (irq j : Nat) :
    (unmasked value irq).getLsbD j = (value.getLsbD j && decide (j ≠ irq)) := by
  by_cases hj : j < 8
  · rw [unmasked, ← BitVec.twoPow_eq]
    by_cases hij : irq = j
    · simp [hij, show j < 32 by omega]
    · simp [hj, show j < 32 by omega, Ne.symm hij]
  · rw [BitVec.getLsbD_of_ge _ _ (by omega), BitVec.getLsbD_of_ge _ _ (by omega)]
    rfl

/-- The request that a chip passes on. -/
structure Chip.Passes (c : Chip) (requests : BitVec 8) (i : Nat) : Prop where
  line : i < 8
  requested : requests.getLsbD i = true
  open_mask : c.imr.getLsbD i = false
  above : ∀ j ≤ i, c.isr.getLsbD j = false

theorem passes_of_selected {c : Chip} {requests : BitVec 8} {i : Nat}
    (h : c.selected requests = some i) : c.Passes requests i := by
  rw [Chip.selected] at h
  split at h
  · have hmem := List.mem_of_find?_eq_some h
    have hholds := List.find?_some h
    simp only [Bool.and_eq_true, Bool.not_eq_true', List.all_eq_true, List.mem_range,
      Nat.lt_succ_iff] at hholds
    exact ⟨List.mem_range.mp hmem, hholds.1.1, hholds.1.2, hholds.2⟩
  · cases h

/-- The chip has been programmed by `interrupt_init`. -/
structure Chip.Configured (c : Chip) (base cascade : BitVec 8) : Prop where
  phase : c.phase = .ready
  icw4 : c.icw4 = 0x01
  base : c.base = base
  cascade : c.cascade = cascade

theorem selected_isSome {c : Chip} {base cascade requests : BitVec 8} {i : Nat}
    (hc : c.Configured base cascade) (h : c.Passes requests i) :
    (c.selected requests).isSome := by
  have hready : c.phase = .ready ∧ c.icw4.getLsbD 0 := ⟨hc.phase, by rw [hc.icw4]; decide⟩
  rw [Chip.selected, if_pos hready, List.find?_isSome]
  refine ⟨i, List.mem_range.mpr h.line, ?_⟩
  simp only [Bool.and_eq_true, Bool.not_eq_true', List.all_eq_true, List.mem_range,
    Nat.lt_succ_iff]
  exact ⟨⟨h.requested, h.open_mask⟩, h.above⟩

theorem selected_lone {c : Chip} {base cascade requests : BitVec 8} {i : Nat}
    (hc : c.Configured base cascade) (hidle : c.isr = 0) (hi : i < 8)
    (hlone : ∀ j, requests.getLsbD j = true ↔ j = i) :
    c.selected requests = if c.imr.getLsbD i then none else some i := by
  cases hsel : c.selected requests with
  | none =>
      cases hmask : c.imr.getLsbD i with
      | true => rfl
      | false =>
          have hpass : c.Passes requests i :=
            ⟨hi, (hlone i).mpr rfl, hmask, fun j _ => by rw [hidle]; simp⟩
          exact absurd hsel (Option.isSome_iff_ne_none.mp (selected_isSome hc hpass))
  | some j =>
      have hpass := passes_of_selected hsel
      obtain rfl := (hlone j).mp hpass.requested
      rw [hpass.open_mask]
      rfl

theorem selected_idle {c : Chip} : c.selected 0 = none := by
  cases hsel : c.selected 0 with
  | none => rfl
  | some j =>
      have hreq := (passes_of_selected hsel).requested
      simp at hreq

end Lines

section Setup

/-- Both chips programmed, and the lines that `irqs` and the driver itself unmasked. -/
structure Opened (irqs : List (Fin 16)) (s : Pics) : Prop where
  primary : s.primary.Configured 0x20 0x04
  secondary : s.secondary.Configured 0x28 0x02
  primaryMask : ∀ j < 8, s.primary.imr.getLsbD j = false ↔ j = 1 ∨ ∃ irq ∈ irqs, irq.val = j
  secondaryMask : ∀ j < 8, s.secondary.imr.getLsbD j = false ↔ ∃ irq ∈ irqs, irq.val = j + 8

theorem opened_interruptInit (s : Pics) : Opened [] (interruptInit s) := by
  rw [interruptInit_eq]
  refine ⟨⟨rfl, rfl, rfl, rfl⟩, ⟨rfl, rfl, rfl, rfl⟩, ?_, ?_⟩
  · intro j hj
    interval_cases j <;> simp
  · intro j hj
    interval_cases j <;> simp

theorem data_ready {c : Chip} (h : c.phase = .ready) (v : BitVec 8) :
    c.data v = { c with imr := v } := by
  rw [Chip.data, h]

theorem picUnmask_low {irqs : List (Fin 16)} {s : Pics} (h : Opened irqs s) {irq : Nat}
    (hirq : irq < 8) :
    picUnmask s irq =
      { s with primary := { s.primary with imr := unmasked s.primary.imr irq } } := by
  rw [picUnmask, if_pos hirq, Pics.outb, data_ready h.primary.phase]
  rfl

theorem picUnmask_high {irqs : List (Fin 16)} {s : Pics} (h : Opened irqs s) {irq : Nat}
    (hirq : ¬irq < 8) :
    picUnmask s irq =
      { s with
        secondary := { s.secondary with imr := unmasked s.secondary.imr (irq - 8) } } := by
  rw [picUnmask, if_neg hirq, Pics.outb, data_ready h.secondary.phase]
  rfl

theorem Opened.picUnmask {irqs : List (Fin 16)} {s : Pics} (h : Opened irqs s)
    (irq : Fin 16) : Opened (irq :: irqs) (picUnmask s irq) := by
  by_cases hirq : irq.val < 8
  · rw [picUnmask_low h hirq]
    refine ⟨⟨h.primary.phase, h.primary.icw4, h.primary.base, h.primary.cascade⟩,
      h.secondary, ?_, ?_⟩
    · intro j hj
      rw [getLsbD_unmasked, Bool.and_eq_false_iff, h.primaryMask j hj, decide_eq_false_iff_not,
        not_not, List.exists_mem_cons_iff]
      exact ⟨fun h => by rcases h with (h | h) | h <;> simp [h], fun h => by
        rcases h with h | h | h <;> simp [h]⟩
    · intro j hj
      rw [h.secondaryMask j hj, List.exists_mem_cons_iff]
      exact ⟨.inr, fun h => h.resolve_left (by omega)⟩
  · rw [picUnmask_high h hirq]
    refine ⟨h.primary, ⟨h.secondary.phase, h.secondary.icw4, h.secondary.base,
      h.secondary.cascade⟩, ?_, ?_⟩
    · intro j hj
      rw [h.primaryMask j hj, List.exists_mem_cons_iff]
      exact ⟨fun h => h.imp_right .inr, fun h => h.imp_right fun h => h.resolve_left (by omega)⟩
    · intro j hj
      have hline : j = irq.val - 8 ↔ irq.val = j + 8 := by omega
      rw [getLsbD_unmasked, Bool.and_eq_false_iff, h.secondaryMask j hj,
        decide_eq_false_iff_not, not_not, List.exists_mem_cons_iff, hline, or_comm]

/-- Nothing is requested and nothing in service. -/
structure Idle (s : Pics) : Prop where
  primaryRequests : s.primary.irr = 0
  primaryService : s.primary.isr = 0
  secondaryRequests : s.secondary.irr = 0
  secondaryService : s.secondary.isr = 0

theorem Idle.picUnmask {irqs : List (Fin 16)} {s : Pics} (ho : Opened irqs s) (h : Idle s)
    (irq : Nat) : Idle (picUnmask s irq) := by
  by_cases hirq : irq < 8
  · rw [picUnmask_low ho hirq]
    exact ⟨h.primaryRequests, h.primaryService, h.secondaryRequests, h.secondaryService⟩
  · rw [picUnmask_high ho hirq]
    exact ⟨h.primaryRequests, h.primaryService, h.secondaryRequests, h.secondaryService⟩

theorem opened_foldl (irqs : List (Fin 16)) {opened : List (Fin 16)} {s : Pics}
    (ho : Opened opened s) (hi : Idle s) :
    Opened (irqs.reverse ++ opened) (irqs.foldl (fun s irq => PicSetup.picUnmask s irq) s) ∧
      Idle (irqs.foldl (fun s irq => PicSetup.picUnmask s irq) s) := by
  induction irqs generalizing opened s with
  | nil => exact ⟨ho, hi⟩
  | cons irq irqs ih =>
      rw [List.reverse_cons, List.append_assoc, List.singleton_append]
      exact ih (ho.picUnmask irq) (hi.picUnmask ho irq)

end Setup

section Vectors

theorem vector_primary {c : Chip} {cascade : BitVec 8} (hc : c.Configured 0x20 cascade) {i : Nat}
    (hi : i < 8) : c.vector i = BitVec.ofNat 8 (0x20 + i) := by
  rw [Chip.vector, hc.base]
  interval_cases i <;> rfl

theorem vector_secondary {c : Chip} {cascade : BitVec 8} (hc : c.Configured 0x28 cascade)
    {j : Nat} (hj : j < 8) : c.vector j = BitVec.ofNat 8 (0x28 + j) := by
  rw [Chip.vector, hc.base]
  interval_cases j <;> rfl

theorem cascade_line {c : Chip} {base : BitVec 8} (hc : c.Configured base 0x04) (i : Nat) :
    c.cascade.getLsbD i = true ↔ i = 2 := by
  have hline : (0x04 : BitVec 8) = BitVec.twoPow 8 2 := rfl
  rw [hc.cascade, hline, BitVec.getLsbD_twoPow]
  simp [eq_comm]

theorem lone_twoPow {i : Nat} (hi : i < 8) (j : Nat) :
    ((0 : BitVec 8) ||| BitVec.twoPow 8 i).getLsbD j = true ↔ j = i := by
  rw [getLsbD_set _ hi]
  simp

theorem acknowledge_primary {s : Pics} {i : Nat} (hp : s.primary.Configured 0x20 0x04)
    (hsel : s.primary.selected s.requests = some i) (hi : i ≠ 2) :
    s.acknowledge =
      some ({ s with primary := s.primary.serve i }, BitVec.ofNat 8 (0x20 + i)) := by
  have hcascade := mt (cascade_line hp i).mp hi
  rw [Pics.acknowledge, hsel, ← vector_primary hp (passes_of_selected hsel).line]
  simp only [hcascade, Bool.false_eq_true, if_false]

theorem acknowledge_secondary {s : Pics} {j : Nat} (hp : s.primary.Configured 0x20 0x04)
    (hs : s.secondary.Configured 0x28 0x02) (hsel : s.primary.selected s.requests = some 2)
    (hj : s.secondary.selected s.secondary.irr = some j) :
    s.acknowledge =
      some (⟨s.primary.serve 2, s.secondary.serve j⟩, BitVec.ofNat 8 (0x28 + j)) := by
  have hcascade := (cascade_line hp 2).mpr rfl
  have hid : s.secondary.cascade.toNat % 8 = 2 := by rw [hs.cascade]; rfl
  rw [Pics.acknowledge, hsel, ← vector_secondary hs (passes_of_selected hj).line]
  simp only [hcascade, if_true, hj, hid]

end Vectors

section Single

variable {s : Pics}

theorem Chip.Configured.request {c : Chip} {base cascade : BitVec 8}
    (h : c.Configured base cascade) (i : Nat) : (c.request i).Configured base cascade :=
  ⟨h.phase, h.icw4, h.base, h.cascade⟩

theorem lone_request {c : Chip} (hquiet : c.irr = 0) {i : Nat} (hi : i < 8) (j : Nat) :
    (c.request i).irr.getLsbD j = true ↔ j = i := by
  rw [Chip.request, hquiet]
  exact lone_twoPow hi j

theorem acknowledge_none (h : s.primary.selected s.requests = none) : s.acknowledge = none := by
  rw [Pics.acknowledge, h]

theorem requests_of_none (h : s.secondary.selected s.secondary.irr = none) :
    s.requests = s.primary.irr := by
  rw [Pics.requests, h]
  rfl

theorem requests_of_some {j : Nat} (h : s.secondary.selected s.secondary.irr = some j) :
    s.requests = s.primary.irr ||| BitVec.twoPow 8 2 := by
  rw [Pics.requests, h]
  rfl

theorem acknowledge_lone_primary (hp : s.primary.Configured 0x20 0x04)
    (hidle : s.primary.isr = 0) (hquiet : s.secondary.irr = 0) {line : Nat} (hline : line < 8)
    (hwired : line ≠ 2) (hlone : ∀ j, s.primary.irr.getLsbD j = true ↔ j = line) :
    s.acknowledge.map Prod.snd =
      if s.primary.imr.getLsbD line then none else some (BitVec.ofNat 8 (0x20 + line)) := by
  have hsel := selected_lone hp hidle hline hlone
  rw [← requests_of_none (by rw [hquiet, selected_idle])] at hsel
  cases hmask : s.primary.imr.getLsbD line with
  | true =>
      rw [hmask] at hsel
      rw [acknowledge_none hsel]
      rfl
  | false =>
      rw [hmask] at hsel
      rw [acknowledge_primary hp hsel hwired]
      rfl

theorem acknowledge_lone_secondary (hp : s.primary.Configured 0x20 0x04)
    (hs : s.secondary.Configured 0x28 0x02) (hpidle : s.primary.isr = 0)
    (hsidle : s.secondary.isr = 0) (hquiet : s.primary.irr = 0) {j : Nat} (hj : j < 8)
    (hlone : ∀ i, s.secondary.irr.getLsbD i = true ↔ i = j) :
    s.acknowledge.map Prod.snd =
      if s.secondary.imr.getLsbD j || s.primary.imr.getLsbD 2 then none
      else some (BitVec.ofNat 8 (0x28 + j)) := by
  have hsel := selected_lone hs hsidle hj hlone
  cases hmask : s.secondary.imr.getLsbD j with
  | true =>
      rw [hmask] at hsel
      rw [acknowledge_none (by rw [requests_of_none hsel, hquiet, selected_idle])]
      rfl
  | false =>
      rw [hmask] at hsel
      have hfirst := selected_lone hp hpidle (by decide : 2 < 8) (lone_twoPow (by decide))
      rw [← hquiet, ← requests_of_some hsel] at hfirst
      cases hline : s.primary.imr.getLsbD 2 with
      | true =>
          rw [hline] at hfirst
          rw [acknowledge_none hfirst]
          rfl
      | false =>
          rw [hline] at hfirst
          rw [acknowledge_secondary hp hs hfirst hsel]
          rfl

end Single

/-- Whatever the chips were doing before, after `interrupt_init` and any sequence of
`pic_unmask` a single request gives the vector from 0x20 on if its line was unmasked,
and for the upper eight only if the line of the secondary chip was unmasked with it;
else nothing is signalled. -/
theorem raised_delivered (s : Pics) (irqs : List (Fin 16)) (k : Fin 16) :
    (((irqs.foldl (fun s irq => picUnmask s irq) (interruptInit s)).raise k).acknowledge).map
        Prod.snd =
      if k.val ≠ 2 ∧ (k.val = 1 ∨ k ∈ irqs) ∧ (8 ≤ k.val → (2 : Fin 16) ∈ irqs) then
        some (BitVec.ofNat 8 (0x20 + k.val))
      else none := by
  have hidle : Idle (interruptInit s) := by
    rw [interruptInit_eq]
    exact ⟨rfl, rfl, rfl, rfl⟩
  obtain ⟨ho, hi⟩ := opened_foldl irqs (opened_interruptInit s) hidle
  generalize irqs.foldl (fun s irq => picUnmask s irq) (interruptInit s) = t at ho hi
  have hmem : ∀ irq : Fin 16, (∃ i ∈ irqs.reverse ++ [], i.val = irq.val) ↔ irq ∈ irqs := by
    intro irq
    rw [List.append_nil]
    constructor
    · rintro ⟨i, hi, heq⟩
      rw [← Fin.ext heq]
      exact List.mem_reverse.mp hi
    · intro hirq
      exact ⟨irq, List.mem_reverse.mpr hirq, rfl⟩
  by_cases hk : k.val < 8
  · have hopen := (ho.primaryMask k.val hk).trans (or_congr_right (hmem k))
    by_cases hwired : k.val = 2
    · rw [if_neg (fun h => h.1 hwired), Pics.raise, if_pos hwired, acknowledge_none]
      · rfl
      · rw [requests_of_none (by rw [hi.secondaryRequests, selected_idle]), hi.primaryRequests,
          selected_idle]
    · have halone := acknowledge_lone_primary (s := ⟨t.primary.request k, t.secondary⟩)
        (ho.primary.request k) hi.primaryService hi.secondaryRequests hk hwired
        (lone_request hi.primaryRequests hk)
      rw [Pics.raise, if_neg hwired, if_pos hk, halone]
      cases hmask : (t.primary.request k.val).imr.getLsbD k.val with
      | true =>
          rw [if_pos rfl, if_neg]
          rintro ⟨-, h, -⟩
          exact Bool.false_ne_true ((hopen.mpr h).symm.trans hmask)
      | false => rw [if_neg (by decide), if_pos ⟨hwired, hopen.mp hmask, fun h => by omega⟩]
  · obtain ⟨j, hj⟩ : ∃ j, k.val = j + 8 := ⟨k.val - 8, by omega⟩
    have hopen : t.secondary.imr.getLsbD j = false ↔ k ∈ irqs := by
      rw [ho.secondaryMask j (by omega), ← hj]
      exact hmem k
    have hline := (ho.primaryMask 2 (by decide)).trans (or_congr_right (hmem 2))
    have halone := acknowledge_lone_secondary (s := ⟨t.primary, t.secondary.request j⟩)
      ho.primary (ho.secondary.request j) hi.primaryService hi.secondaryService
      hi.primaryRequests (by omega) (lone_request hi.secondaryRequests (by omega))
    rw [hj, Pics.raise, if_neg (by omega), if_neg (by omega), Nat.add_sub_cancel, halone]
    cases hmask : (t.secondary.request j).imr.getLsbD j with
    | true =>
        rw [if_pos (Bool.true_or _), if_neg]
        rintro ⟨-, h, -⟩
        exact Bool.false_ne_true ((hopen.mpr (h.resolve_left (by omega))).symm.trans hmask)
    | false =>
        rw [Bool.false_or]
        cases hsecond : t.primary.imr.getLsbD 2 with
        | true =>
            rw [if_pos rfl, if_neg]
            rintro ⟨-, -, h⟩
            exact Bool.false_ne_true ((hline.mpr (.inr (h (by omega)))).symm.trans hsecond)
        | false =>
            rw [if_neg (by decide), if_pos, Nat.add_comm j 8, ← Nat.add_assoc]
            exact ⟨by omega, .inr (hopen.mp hmask),
              fun _ => (hline.mp hsecond).resolve_left (by decide)⟩

section Nesting

/-- The line of the primary chip that a vector came in on. -/
def level (vector : BitVec 8) : Nat :=
  if vector.toNat < 0x28 then vector.toNat - 0x20 else 2

/-- The chips with the levels of the interrupts not yet ended, the newest first, and the
vectors handed to `handle_irq`, which prints its argument and does nothing else. -/
structure Machine where
  pics : Pics
  inService : List Nat
  delivered : List (BitVec 8)

def boot (s : Pics) : Machine where
  pics := interruptInit s
  inService := []
  delivered := []

/-- What can happen next: a device asks, the kernel unmasks, the CPU takes an interrupt,
or its handler sends the end of interrupt. -/
inductive Event
  | request (line : Fin 16)
  | unmask (irq : Fin 16)
  | acknowledge
  | sendEoi

/-- One event.  The CPU takes an interrupt whenever the chips offer one. -/
def Machine.step (m : Machine) : Event → Machine
  | .request line => { m with pics := m.pics.raise line }
  | .unmask irq => { m with pics := picUnmask m.pics irq }
  | .acknowledge =>
      match m.pics.acknowledge with
      | some (pics, vector) =>
          { pics := pics
            inService := level vector :: m.inService
            delivered := vector :: m.delivered }
      | none => m
  | .sendEoi => { m with pics := picSendEoi m.pics, inService := m.inService.tail }

def run (events : List Event) (m : Machine) : Machine :=
  events.foldl Machine.step m

/-- The in-service register of the primary chip holds the stack, and at most one
interrupt of the secondary is in service, under line 2. -/
structure Nested (irqs : List (Fin 16)) (m : Machine) : Prop where
  opened : Opened irqs m.pics
  service : ∀ i, m.pics.primary.isr.getLsbD i = true ↔ i ∈ m.inService
  ordered : m.inService.Pairwise (· < ·)
  cascaded : ∀ j, m.pics.secondary.isr.getLsbD j = true → 2 ∈ m.inService
  alone : ∀ j j', m.pics.secondary.isr.getLsbD j = true →
    m.pics.secondary.isr.getLsbD j' = true → j = j'
  delivered : ∀ v ∈ m.delivered, ∃ k : Fin 16,
    v = BitVec.ofNat 8 (0x20 + k.val) ∧ k.val ≠ 2 ∧ (k.val = 1 ∨ k ∈ irqs)

theorem nested_boot (s : Pics) : Nested [] (boot s) := by
  have hpics : (boot s).pics = interruptInit s := rfl
  refine ⟨opened_interruptInit s, ?_, List.Pairwise.nil, ?_, ?_, fun v hv => by cases hv⟩
  · intro i
    rw [hpics, interruptInit_eq]
    simp [boot]
  · intro j hj
    rw [hpics, interruptInit_eq] at hj
    simp at hj
  · intro j j' hj
    rw [hpics, interruptInit_eq] at hj
    simp at hj

theorem Chip.Configured.serve {c : Chip} {base cascade : BitVec 8}
    (h : c.Configured base cascade) (i : Nat) : (c.serve i).Configured base cascade :=
  ⟨h.phase, h.icw4, h.base, h.cascade⟩

theorem getLsbD_isr_serve {c : Chip} {base cascade : BitVec 8} (h : c.Configured base cascade)
    {i : Nat} (hi : i < 8) (j : Nat) :
    (c.serve i).isr.getLsbD j = (c.isr.getLsbD j || decide (j = i)) := by
  have hmanual : c.icw4.getLsbD 1 = false := by rw [h.icw4]; decide
  rw [Chip.serve, hmanual, if_neg (by decide), getLsbD_set _ hi]

theorem acknowledge_cases {s t : Pics} {v : BitVec 8} (hp : s.primary.Configured 0x20 0x04)
    (hs : s.secondary.Configured 0x28 0x02) (h : s.acknowledge = some (t, v)) :
    (∃ i, i ≠ 2 ∧ s.primary.Passes s.requests i ∧
      t = ⟨s.primary.serve i, s.secondary⟩ ∧ v = BitVec.ofNat 8 (0x20 + i)) ∨
    (∃ j, s.primary.Passes s.requests 2 ∧ s.secondary.Passes s.secondary.irr j ∧
      t = ⟨s.primary.serve 2, s.secondary.serve j⟩ ∧ v = BitVec.ofNat 8 (0x28 + j)) := by
  cases hsel : s.primary.selected s.requests with
  | none =>
      rw [acknowledge_none hsel] at h
      cases h
  | some i =>
      by_cases hi : i = 2
      · subst hi
        cases hj : s.secondary.selected s.secondary.irr with
        | none =>
            rw [Pics.acknowledge, hsel] at h
            simp only [(cascade_line hp 2).mpr rfl, if_true, hj] at h
            cases h
        | some j =>
            rw [acknowledge_secondary hp hs hsel hj] at h
            cases h
            exact .inr ⟨j, passes_of_selected hsel, passes_of_selected hj, rfl, rfl⟩
      · rw [acknowledge_primary hp hsel hi] at h
        cases h
        exact .inl ⟨i, hi, passes_of_selected hsel, rfl, rfl⟩

theorem level_primary {i : Nat} (hi : i < 8) : level (BitVec.ofNat 8 (0x20 + i)) = i := by
  interval_cases i <;> rfl

theorem level_secondary {j : Nat} (hj : j < 8) : level (BitVec.ofNat 8 (0x28 + j)) = 2 := by
  interval_cases j <;> rfl

variable {irqs : List (Fin 16)} {m : Machine}

theorem Nested.push (h : Nested irqs m) {i : Nat}
    (hpass : m.pics.primary.Passes m.pics.requests i) :
    (∀ j, (m.pics.primary.serve i).isr.getLsbD j = true ↔ j ∈ i :: m.inService) ∧
      (i :: m.inService).Pairwise (· < ·) := by
  constructor
  · intro j
    rw [getLsbD_isr_serve h.opened.primary hpass.line, Bool.or_eq_true, decide_eq_true_iff,
      h.service, List.mem_cons, or_comm]
  · refine List.pairwise_cons.mpr ⟨?_, h.ordered⟩
    intro j hj
    by_contra hle
    have hset := (h.service j).mpr hj
    rw [hpass.above j (by omega)] at hset
    cases hset

theorem Nested.acknowledge_primary (h : Nested irqs m) {i : Nat} (hi : i ≠ 2)
    (hpass : m.pics.primary.Passes m.pics.requests i) :
    Nested irqs
      { pics := ⟨m.pics.primary.serve i, m.pics.secondary⟩
        inService := i :: m.inService
        delivered := BitVec.ofNat 8 (0x20 + i) :: m.delivered } := by
  have hpush := h.push hpass
  have hline := hpass.line
  refine ⟨⟨h.opened.primary.serve i, h.opened.secondary, h.opened.primaryMask,
    h.opened.secondaryMask⟩, hpush.1, hpush.2, ?_, h.alone, ?_⟩
  · intro j hj
    exact List.mem_cons_of_mem i (h.cascaded j hj)
  · intro v hv
    rcases List.mem_cons.mp hv with rfl | hv
    · refine ⟨⟨i, by omega⟩, rfl, hi, ?_⟩
      refine ((h.opened.primaryMask i hline).mp hpass.open_mask).imp_right ?_
      rintro ⟨irq, hirq, rfl⟩
      exact hirq
    · exact h.delivered v hv

theorem Nested.acknowledge_secondary (h : Nested irqs m) {j : Nat}
    (hpass : m.pics.primary.Passes m.pics.requests 2)
    (hsecond : m.pics.secondary.Passes m.pics.secondary.irr j) :
    Nested irqs
      { pics := ⟨m.pics.primary.serve 2, m.pics.secondary.serve j⟩
        inService := 2 :: m.inService
        delivered := BitVec.ofNat 8 (0x28 + j) :: m.delivered } := by
  have hpush := h.push hpass
  have hj := hsecond.line
  -- line 2 was not in service, so nothing was in service at the secondary
  have hidle : ∀ i, m.pics.secondary.isr.getLsbD i = false := by
    intro i
    rw [Bool.eq_false_iff]
    intro hset
    have hline := (h.service 2).mpr (h.cascaded i hset)
    rw [hpass.above 2 le_rfl] at hline
    cases hline
  have honly : ∀ i, (m.pics.secondary.serve j).isr.getLsbD i = true → i = j := by
    intro i hset
    rw [getLsbD_isr_serve h.opened.secondary hj, hidle, Bool.false_or, decide_eq_true_iff]
      at hset
    exact hset
  refine ⟨⟨h.opened.primary.serve 2, h.opened.secondary.serve j, h.opened.primaryMask,
    h.opened.secondaryMask⟩, hpush.1, hpush.2, fun _ _ => List.mem_cons_self, ?_, ?_⟩
  · intro i i' hset hset'
    rw [honly i hset, honly i' hset']
  · intro v hv
    rcases List.mem_cons.mp hv with rfl | hv
    · refine ⟨⟨8 + j, by omega⟩, ?_, ?_, .inr ?_⟩
      · exact congrArg (BitVec.ofNat 8) (Nat.add_assoc 0x20 8 j)
      · exact Nat.ne_of_gt (Nat.lt_of_lt_of_le (by decide) (Nat.le_add_right 8 j))
      · obtain ⟨irq, hirq, heq⟩ := (h.opened.secondaryMask j hj).mp hsecond.open_mask
        have hline : irq = ⟨8 + j, by omega⟩ := Fin.ext (heq.trans (Nat.add_comm j 8))
        rw [← hline]
        exact hirq
    · exact h.delivered v hv

theorem Nested.acknowledge (h : Nested irqs m) : Nested irqs (m.step .acknowledge) := by
  rw [Machine.step]
  cases hack : m.pics.acknowledge with
  | none => exact h
  | some result =>
      rcases acknowledge_cases h.opened.primary h.opened.secondary hack with
        ⟨i, hi, hpass, ht, hv⟩ | ⟨j, hpass, hsecond, ht, hv⟩
      · simp only [ht, hv, level_primary hpass.line]
        exact h.acknowledge_primary hi hpass
      · simp only [ht, hv, level_secondary hsecond.line]
        exact h.acknowledge_secondary hpass hsecond

theorem isr_endInterrupt {c : Chip} {i : Nat} (hi : i < 8) (hset : c.isr.getLsbD i = true)
    (hleast : ∀ j < i, c.isr.getLsbD j = false) :
    c.endInterrupt = { c with isr := c.isr &&& ~~~BitVec.twoPow 8 i } := by
  have hfind : (List.range 8).find? c.isr.getLsbD = some i := by
    rw [List.find?_range_eq_some]
    exact ⟨hset, List.mem_range.mpr hi, fun j hj => by rw [hleast j hj]; rfl⟩
  rw [Chip.endInterrupt, hfind]

theorem endInterrupt_idle {c : Chip} (hidle : ∀ j, c.isr.getLsbD j = false) :
    c.endInterrupt = c := by
  have hfind : (List.range 8).find? c.isr.getLsbD = none := by
    rw [List.find?_range_eq_none]
    exact fun j _ => by rw [hidle j]; rfl
  rw [Chip.endInterrupt, hfind]

theorem endInterrupt_alone {c : Chip}
    (halone : ∀ j j', c.isr.getLsbD j = true → c.isr.getLsbD j' = true → j = j') (i : Nat) :
    c.endInterrupt.isr.getLsbD i = false := by
  by_cases hany : ∃ j, c.isr.getLsbD j = true
  · obtain ⟨j, hj⟩ := hany
    have hline : j < 8 := BitVec.lt_of_getLsbD hj
    have hleast : ∀ l < j, c.isr.getLsbD l = false := by
      intro l hl
      rw [Bool.eq_false_iff]
      intro hset
      have := halone l j hset hj
      omega
    rw [isr_endInterrupt hline hj hleast, getLsbD_clear, Bool.and_eq_false_iff,
      decide_eq_false_iff_not, not_not]
    cases hset : c.isr.getLsbD i with
    | true => exact .inr (halone i j hset hj)
    | false => exact .inl rfl
  · have hidle : ∀ j, c.isr.getLsbD j = false := fun j =>
      Bool.eq_false_iff.mpr fun hj => hany ⟨j, hj⟩
    rw [endInterrupt_idle hidle]
    exact hidle i

theorem picSendEoi_eq (s : Pics) :
    picSendEoi s = ⟨s.primary.endInterrupt, s.secondary.endInterrupt⟩ :=
  rfl

theorem Chip.Configured.endInterrupt {c : Chip} {base cascade : BitVec 8}
    (h : c.Configured base cascade) : c.endInterrupt.Configured base cascade := by
  rw [Chip.endInterrupt]
  split
  · exact ⟨h.phase, h.icw4, h.base, h.cascade⟩
  · exact h

theorem imr_endInterrupt (c : Chip) : c.endInterrupt.imr = c.imr := by
  rw [Chip.endInterrupt]
  split <;> rfl

theorem Opened.picSendEoi {s : Pics} (h : Opened irqs s) : Opened irqs (picSendEoi s) := by
  rw [picSendEoi_eq]
  refine ⟨h.primary.endInterrupt, h.secondary.endInterrupt, ?_, ?_⟩
  · intro j hj
    rw [imr_endInterrupt]
    exact h.primaryMask j hj
  · intro j hj
    rw [imr_endInterrupt]
    exact h.secondaryMask j hj

theorem Nested.pop (h : Nested irqs m) (i : Nat) :
    m.pics.primary.endInterrupt.isr.getLsbD i = true ↔ i ∈ m.inService.tail := by
  have hserved := h.service
  have hordered := h.ordered
  cases hstack : m.inService with
  | nil =>
      rw [hstack] at hserved
      have hidle : ∀ j, m.pics.primary.isr.getLsbD j = false := fun j =>
        Bool.eq_false_iff.mpr fun hj => List.not_mem_nil ((hserved j).mp hj)
      rw [endInterrupt_idle hidle]
      exact hserved i
  | cons top rest =>
      rw [hstack] at hserved hordered
      have htop := (hserved top).mpr List.mem_cons_self
      have hbelow := (List.pairwise_cons.mp hordered).1
      have hleast : ∀ j < top, m.pics.primary.isr.getLsbD j = false := by
        intro j hj
        rw [Bool.eq_false_iff]
        intro hset
        rcases List.mem_cons.mp ((hserved j).mp hset) with rfl | hrest
        · exact Nat.lt_irrefl _ hj
        · exact Nat.lt_asymm hj (hbelow j hrest)
      rw [isr_endInterrupt (BitVec.lt_of_getLsbD htop) htop hleast, getLsbD_clear,
        Bool.and_eq_true, decide_eq_true_iff, hserved, List.mem_cons, List.tail_cons]
      constructor
      · rintro ⟨hmem, hne⟩
        exact hmem.resolve_left hne
      · intro hrest
        exact ⟨.inr hrest, Nat.ne_of_gt (hbelow i hrest)⟩

/-- The end of interrupt goes to both chips, whichever of them it was for: the secondary
has at most one interrupt in service, and never one that the primary has not. -/
theorem Nested.sendEoi (h : Nested irqs m) : Nested irqs (m.step .sendEoi) := by
  have hquiet := endInterrupt_alone h.alone
  refine ⟨h.opened.picSendEoi, h.pop, h.ordered.tail, ?_, ?_, h.delivered⟩
  · intro j hj
    rw [Machine.step, picSendEoi_eq, hquiet j] at hj
    cases hj
  · intro j j' hj
    rw [Machine.step, picSendEoi_eq, hquiet j] at hj
    cases hj

theorem Nested.request (h : Nested irqs m) (line : Fin 16) :
    Nested irqs (m.step (.request line)) := by
  have ho := h.opened
  rw [Machine.step, Pics.raise]
  split
  · exact h
  · split
    · exact ⟨⟨ho.primary.request line, ho.secondary, ho.primaryMask, ho.secondaryMask⟩,
        h.service, h.ordered, h.cascaded, h.alone, h.delivered⟩
    · exact ⟨⟨ho.primary, ho.secondary.request _, ho.primaryMask, ho.secondaryMask⟩,
        h.service, h.ordered, h.cascaded, h.alone, h.delivered⟩

theorem isr_picUnmask {s : Pics} (ho : Opened irqs s) (irq : Nat) :
    (picUnmask s irq).primary.isr = s.primary.isr ∧
      (picUnmask s irq).secondary.isr = s.secondary.isr := by
  by_cases hirq : irq < 8
  · rw [picUnmask_low ho hirq]
    exact ⟨rfl, rfl⟩
  · rw [picUnmask_high ho hirq]
    exact ⟨rfl, rfl⟩

theorem Nested.unmask (h : Nested irqs m) (irq : Fin 16) :
    Nested (irq :: irqs) (m.step (.unmask irq)) := by
  obtain ⟨hprimary, hsecondary⟩ := isr_picUnmask h.opened irq.val
  refine ⟨h.opened.picUnmask irq, ?_, h.ordered, ?_, ?_, ?_⟩
  · rw [Machine.step, hprimary]
    exact h.service
  · rw [Machine.step, hsecondary]
    exact h.cascaded
  · rw [Machine.step, hsecondary]
    exact h.alone
  · intro v hv
    obtain ⟨k, hk, hwired, hopen⟩ := h.delivered v hv
    exact ⟨k, hk, hwired, hopen.imp_right (List.mem_cons_of_mem irq)⟩

theorem Nested.run (h : Nested irqs m) (events : List Event) :
    ∃ irqs', (∀ k, k ∈ irqs' ↔ k ∈ irqs ∨ .unmask k ∈ events) ∧
      Nested irqs' (run events m) := by
  induction events generalizing irqs m with
  | nil => exact ⟨irqs, fun k => by simp, h⟩
  | cons event events ih =>
      have hkeep : Nested irqs (m.step event) → (∀ k, event ≠ .unmask k) →
          ∃ irqs', (∀ k, k ∈ irqs' ↔ k ∈ irqs ∨ .unmask k ∈ event :: events) ∧
            Nested irqs' (PicSetup.run (event :: events) m) := by
        intro hstep hother
        obtain ⟨irqs', hmem, hrun⟩ := ih hstep
        refine ⟨irqs', fun k => ?_, hrun⟩
        have hne : Event.unmask k ≠ event := fun heq => hother k heq.symm
        rw [hmem, List.mem_cons, or_iff_right (a := Event.unmask k = event) hne]
      cases event with
      | request line => exact hkeep (h.request line) fun k hk => by cases hk
      | acknowledge => exact hkeep h.acknowledge fun k hk => by cases hk
      | sendEoi => exact hkeep h.sendEoi fun k hk => by cases hk
      | unmask irq =>
          obtain ⟨irqs', hmem, hrun⟩ := ih (h.unmask irq)
          refine ⟨irqs', fun k => ?_, hrun⟩
          rw [hmem, List.mem_cons, List.mem_cons, Event.unmask.injEq, or_assoc, or_left_comm]

theorem level_delivered_step {event : Event} (hevent : event ≠ .sendEoi)
    (h : m.delivered.map level = m.inService) :
    (m.step event).delivered.map level = (m.step event).inService := by
  cases event with
  | request line => exact h
  | unmask irq => exact h
  | sendEoi => exact absurd rfl hevent
  | acknowledge =>
      rw [Machine.step]
      split
      · rw [List.map_cons, h]
      · exact h

end Nesting

/-- Over every run of requests, unmaskings, acknowledgements and calls of `pic_send_eoi`
the in-service register of the primary chip is the stack of the interrupts not yet ended,
the secondary has something in service only under line 2, and every vector delivered is
that of an unmasked line. -/
theorem nested_run (s : Pics) (events : List Event) :
    (∀ i, (run events (boot s)).pics.primary.isr.getLsbD i = true ↔
        i ∈ (run events (boot s)).inService) ∧
      (run events (boot s)).inService.Pairwise (· < ·) ∧
      ((run events (boot s)).pics.secondary.isr ≠ 0 → 2 ∈ (run events (boot s)).inService) ∧
      ∀ v ∈ (run events (boot s)).delivered, ∃ k : Fin 16,
        v = BitVec.ofNat 8 (0x20 + k.val) ∧ k.val ≠ 2 ∧
          (k.val = 1 ∨ Event.unmask k ∈ events) := by
  obtain ⟨irqs, hmem, h⟩ := (nested_boot s).run events
  refine ⟨h.service, h.ordered, ?_, ?_⟩
  · intro hbusy
    by_contra hline
    apply hbusy
    apply BitVec.eq_of_getLsbD_eq
    intro j hj
    have hclear : (run events (boot s)).pics.secondary.isr.getLsbD j ≠ true :=
      fun hset => hline (h.cascaded j hset)
    rw [Bool.eq_false_iff.mpr hclear]
    simp
  · intro v hv
    obtain ⟨k, hk, hwired, hopen⟩ := h.delivered v hv
    refine ⟨k, hk, hwired, hopen.imp_right ?_⟩
    intro hirq
    exact ((hmem k).mp hirq).resolve_left List.not_mem_nil

/-- `handle_irq` does not call `pic_send_eoi`.  In a run without such calls every
interrupt delivered is above all the earlier ones, so that no vector comes twice and
after eight of them none comes at all. -/
theorem delivered_without_eoi (s : Pics) (events : List Event)
    (hsilent : Event.sendEoi ∉ events) :
    ((run events (boot s)).delivered.map level).Pairwise (· < ·) ∧
      (run events (boot s)).delivered.Nodup ∧ (run events (boot s)).delivered.length ≤ 8 := by
  obtain ⟨irqs, -, h⟩ := (nested_boot s).run events
  have hlevels : (run events (boot s)).delivered.map level =
      (run events (boot s)).inService := by
    refine List.foldlRecOn (b := boot s) (motive := fun m =>
      m.delivered.map level = m.inService) events Machine.step rfl ?_
    intro m hm event hevent
    exact level_delivered_step (fun heq => hsilent (heq ▸ hevent)) hm
  have hordered := h.ordered
  rw [← hlevels] at hordered
  have hnodup : ((run events (boot s)).delivered.map level).Nodup := hordered.imp Nat.ne_of_lt
  refine ⟨hordered, hnodup.of_map, ?_⟩
  have hlines : (run events (boot s)).delivered.map level ⊆ List.range 8 := by
    intro i hi
    rw [hlevels] at hi
    exact List.mem_range.mpr (BitVec.lt_of_getLsbD ((h.service i).mpr hi))
  calc (run events (boot s)).delivered.length
      = ((run events (boot s)).delivered.map level).length := by rw [List.length_map]
    _ ≤ (List.range 8).length := (List.subperm_of_subset hnodup hlines).length_le
    _ = 8 := List.length_range

/-- A key that is pressed twice while no end of interrupt is sent. -/
theorem delivered_without_eoi_keyboard :
    Event.sendEoi ∉ [.request 1, .acknowledge, .request 1, .acknowledge] ∧
      ∀ s : Pics, (run [.request 1, .acknowledge, .request 1, .acknowledge]
        (boot s)).delivered.length ≤ 8 :=
  ⟨by simp, fun s => (delivered_without_eoi s _ (by simp)).2.2⟩

end ShlteOs.PicSetup
