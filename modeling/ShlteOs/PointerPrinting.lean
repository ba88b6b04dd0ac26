import ShlteOs.SprintfNumerals
import ShlteOs.StringFields

/-!
The pointers of the two formatters.  `vsprintf` writes the low eight hexadecimal
digits of a pointer, whatever stands above them.  `vsprintf_impl` asks `snprintf`
for `0x%lx`, a length modifier that `vsprintf` does not know, and then stores
nothing of the text it gets back.
-/

namespace ShlteOs.PointerPrinting

open ShlteOs.ByteMemory
open ShlteOs.BufferCursor
open ShlteOs.StringFormat (Strings ch chs digitChar limit nibble pointerShifts convert emit)
open ShlteOs.PrintkFormat hiding digitValue
open ShlteOs.BoundedFormatting (fullText)
open ShlteOs.SprintfNumerals

section Specification

/-- `vsprintf`, and `vsprintf_impl` with the size of its buffer. -/
inductive Engine where
  | vsprintf
  | vsprintfImpl (size : Nat)
  deriving DecidableEq, Repr

/-- The loop of the engine, at `%p` with the output `out`, goes on behind the
directive with the output `out'`. -/
def Continues (strings : Strings) (engine : Engine) (v : Word) (out out' : Cursor Byte) : Prop :=
  match engine with
  | .vsprintf =>
      ∀ rest ap, StringFormat.formatLoop strings (ch '%' :: ch 'p' :: rest) (v :: ap) out =
        StringFormat.formatLoop strings rest ap out'
  | .vsprintfImpl size =>
      ∀ written, ∃ written', ∀ fuel rest ap,
        formatLoop strings (roomFor size) (fuel + 1) (ch '%' :: ch 'p' :: rest) (v :: ap)
            ⟨out, written⟩ =
          formatLoop strings (roomFor size) fuel rest ap ⟨out', written'⟩

/-- The stores that lead from one output to the next put the text at the positions
from the cursor on, and nothing anywhere else. -/
structure Stores (text : List Byte) (out out' : Cursor Byte) (stores : Log Byte) : Prop where
  log : out'.log = stores ++ out.log
  pos : out'.pos = out.pos + text.length
  put : ∀ k < text.length, content stores (out.pos + k) = text[k]?
  only : ∀ w ∈ stores, out.pos ≤ w.1 ∧ w.1 < out.pos + text.length

/-- Hexadecimal digits that evaluate to the pointer. -/
structure InFull (v : Word) (digits : List Byte) : Prop where
  nonempty : digits ≠ []
  hex : ∀ c ∈ digits, ∃ d < 16, c = digitChar d
  value : numeralValue 16 digits = v.toNat

/-- `0x` and digits are stored that tell the whole pointer. -/
def PrintsInFull (strings : Strings) (engine : Engine) (v : Word) (out : Cursor Byte) : Prop :=
  ∃ out' stores digits, Continues strings engine v out out' ∧
    Stores (chs ['0', 'x'] ++ digits) out out' stores ∧ InFull v digits

/-- The two pointers leave the same bytes behind. -/
def PrintAlike (strings : Strings) (engine : Engine) (v w : Word) (out : Cursor Byte) : Prop :=
  ∃ outv outw, Continues strings engine v out outv ∧ Continues strings engine w out outw ∧
    outv.pos = outw.pos ∧ ∀ k, content outv.log k = content outw.log k

/-- The ten characters of `vsprintf` fit below its limit. -/
def Engine.Fits (engine : Engine) (out : Cursor Byte) : Prop :=
  engine = .vsprintf → out.pos + 10 ≤ limit

end Specification

section Stores

theorem putAll_log (text : List Byte) (out : Cursor Byte) :
    (out.putAll text).log = ((⟨out.pos, []⟩ : Cursor Byte).putAll text).log ++ out.log := by
  induction text generalizing out with
  | nil => rfl
  | cons c text ih =>
      have hleft := ih (out.put c)
      have hright := ih ((⟨out.pos, []⟩ : Cursor Byte).put c)
      show ((out.put c).putAll text).log =
        (((⟨out.pos, []⟩ : Cursor Byte).put c).putAll text).log ++ out.log
      rw [hleft, hright, List.append_assoc]
      rfl

theorem eq_of_stores_putAll {text text' : List Byte} {out : Cursor Byte} {stores : Log Byte}
    (h : Stores text' out (out.putAll text) stores) : text' = text := by
  have hlen : text'.length = text.length := by
    have hpos := h.pos
    rw [Cursor.putAll_pos] at hpos
    omega
  have hstores : ((⟨out.pos, []⟩ : Cursor Byte).putAll text).log = stores :=
    List.append_cancel_right ((putAll_log text out).symm.trans h.log)
  apply List.ext_getElem?
  intro k
  rcases Nat.lt_or_ge k text.length with hk | hk
  · rw [← h.put k (hlen ▸ hk), ← hstores]
    exact Cursor.content_putAll ⟨out.pos, []⟩ text hk
  · rw [List.getElem?_eq_none hk, List.getElem?_eq_none (hlen ▸ hk)]

theorem mem_putAll_log {text : List Byte} {out : Cursor Byte} {w : Nat × Byte}
    (h : w ∈ (out.putAll text).log) :
    w ∈ out.log ∨ (out.pos ≤ w.1 ∧ w.1 < out.pos + text.length) := by
  induction text generalizing out with
  | nil => exact .inl h
  | cons c text ih =>
      rw [List.length_cons]
      rcases @ih (out.put c) h with hlog | ⟨hle, hlt⟩
      · rcases List.mem_cons.mp hlog with rfl | hold
        · exact .inr ⟨le_rfl, Nat.lt_add_of_pos_right (Nat.succ_pos _)⟩
        · exact .inl hold
      · rw [Cursor.put_pos] at hle hlt
        exact .inr ⟨by omega, by omega⟩

theorem stores_putAll (text : List Byte) (out : Cursor Byte) :
    Stores text out (out.putAll text) ((⟨out.pos, []⟩ : Cursor Byte).putAll text).log := by
  refine ⟨putAll_log text out, Cursor.putAll_pos out text, ?_, ?_⟩
  · intro k hk
    exact Cursor.content_putAll ⟨out.pos, []⟩ text hk
  · intro w hw
    rcases mem_putAll_log hw with hold | hnew
    · exact absurd hold List.not_mem_nil
    · exact hnew

end Stores

section Vsprintf

variable (strings : Strings)

theorem putDigits_of_room (v : Word) (shifts : List Nat) (out : Cursor Byte)
    (hroom : out.pos + shifts.length ≤ limit) :
    shifts.foldl (fun out shift => if out.pos ≥ limit then out else out.put (nibble v shift)) out =
      out.putAll (shifts.map (nibble v)) := by
  induction shifts generalizing out with
  | nil => rfl
  | cons shift shifts ih =>
      rw [List.length_cons] at hroom
      have hrest : (out.put (nibble v shift)).pos + shifts.length ≤ limit := by
        rw [Cursor.put_pos]
        omega
      rw [List.foldl_cons, if_neg (by omega), ih _ hrest]
      rfl

theorem emit_pointer (v : Word) {out : Cursor Byte} (hroom : out.pos + 10 ≤ limit) :
    emit out (.pointer v) = out.putAll (fullText (.pointer v)) := by
  rw [emit, if_pos (by omega), putDigits_of_room v pointerShifts _ hroom]
  rfl

theorem nibble_eq (v : Word) (shift : Nat) :
    nibble v shift = digitChar (v.toNat / 2 ^ shift % 16) := by
  have hmask : ((v >>> shift) &&& 0xF).toNat = v.toNat / 2 ^ shift % 16 := by
    rw [BitVec.toNat_and, BitVec.toNat_ushiftRight, Nat.shiftRight_eq_div_pow]
    exact Nat.and_two_pow_sub_one_eq_mod _ 4
  rw [nibble, hmask]

theorem numeralValue_positions (n x : Nat) :
    numeralValue 16 ((List.range n).reverse.map fun i => digitChar (x / 16 ^ i % 16)) =
      x % 16 ^ n := by
  induction n generalizing x with
  | zero => exact (Nat.mod_one x).symm
  | succ n ih =>
      have hhigh : (fun i => digitChar (x / 16 ^ i % 16)) ∘ Nat.succ =
          fun i => digitChar (x / 16 / 16 ^ i % 16) := by
        funext i
        rw [Function.comp_apply, Nat.div_div_eq_div_mul, ← Nat.pow_succ']
      have hlast : digitValue (digitChar (x / 16 ^ 0 % 16)) = x % 16 := by
        rw [Nat.pow_zero, Nat.div_one]
        exact digitValue_digitChar (Nat.mod_lt _ (by decide))
      rw [List.range_succ_eq_map, List.reverse_cons, List.map_append, List.map_singleton,
        numeralValue_append, ← List.map_reverse, List.map_map, hhigh, ih (x / 16), hlast,
        Nat.pow_succ', Nat.mod_mul, Nat.mul_comm, Nat.add_comm]

theorem map_nibble_eq (v : Word) :
    pointerShifts.map (nibble v) =
      (List.range 8).reverse.map fun i => digitChar (v.toNat / 16 ^ i % 16) := by
  have hshifts : pointerShifts = (List.range 8).reverse.map (4 * ·) := rfl
  rw [hshifts, List.map_map]
  apply List.map_congr_left
  intro i _
  rw [Function.comp_apply, nibble_eq, Nat.pow_mul]

theorem numeralValue_nibbles (v : Word) :
    numeralValue 16 (pointerShifts.map (nibble v)) = v.toNat % 2 ^ 32 := by
  have hpow : (16 : Nat) ^ 8 = 2 ^ 32 := rfl
  rw [map_nibble_eq, numeralValue_positions, hpow]

theorem continues_vsprintf_iff (v : Word) {out out' : Cursor Byte}
    (hroom : out.pos + 10 ≤ limit) :
    Continues strings .vsprintf v out out' ↔ out' = out.putAll (fullText (.pointer v)) := by
  have hstep : ∀ rest ap,
      StringFormat.formatLoop strings (ch '%' :: ch 'p' :: rest) (v :: ap) out =
        StringFormat.formatLoop strings rest ap (out.putAll (fullText (.pointer v))) := by
    intro rest ap
    rw [BoundedFormatting.formatLoop_directive strings (by omega), ← emit_pointer v hroom]
    rfl
  constructor
  · intro h
    have hnul := (h [0] []).symm.trans (hstep [0] [])
    rw [BoundedFormatting.formatLoop_nul, BoundedFormatting.formatLoop_nul] at hnul
    exact Option.some.inj hnul
  · rintro rfl
    exact hstep

end Vsprintf

section Impl

variable (strings : Strings)

/-- The text in the number buffer is the format itself: `vsprintf` copies the
directive `%l` it does not know, and then the `x`. -/
theorem pointerText_eq (v : Word) :
    pointerText strings v = some (chs ['0', 'x', '%', 'l', 'x']) := by
  rfl

theorem directive_pointer (v : Word) (rest : List Byte) (ap : List Word) :
    directive strings (ch 'p' :: rest) (v :: ap) = some (List.replicate 5 .digit, rest, ap) := by
  refine FormatAgreement.directive_plain rfl ?_
  rw [conversion, if_neg (by decide), if_neg (by decide), if_neg (by decide), if_pos rfl]
  simp only [StringFormat.vaArg, pointerText_eq, Option.bind_eq_bind, Option.bind_some]
  rfl

theorem formatLoop_pointer (lim : Int) (v : Word) (fuel : Nat) (rest : List Byte)
    (ap : List Word) (out : Printed) :
    formatLoop strings lim (fuel + 1) (ch '%' :: ch 'p' :: rest) (v :: ap) out =
      formatLoop strings lim fuel rest ap ((List.replicate 5 Emit.digit).foldl (put lim) out) := by
  rw [formatLoop, if_neg StringFormat.percent_ne_zero, if_neg (not_not.mpr rfl),
    directive_pointer strings]
  rfl

theorem foldl_digit_cursor (lim : Int) (n : Nat) {out out' : Printed}
    (h : out.cursor = out'.cursor) :
    ((List.replicate n Emit.digit).foldl (put lim) out).cursor =
      ((List.replicate n Emit.digit).foldl (put lim) out').cursor := by
  induction n generalizing out out' with
  | zero => exact h
  | succ n ih =>
      rw [List.replicate_succ, List.foldl_cons, List.foldl_cons]
      apply ih
      rw [put, put, h]
      split
      · rfl
      · exact h

theorem formatLoop_pointer_cursor (lim : Int) (v : Word) (out : Cursor Byte) (written : Int) :
    ∃ written', ∀ fuel rest ap,
      formatLoop strings lim (fuel + 1) (ch '%' :: ch 'p' :: rest) (v :: ap) ⟨out, written⟩ =
        formatLoop strings lim fuel rest ap
          ⟨((List.replicate 5 Emit.digit).foldl (put lim) ⟨out, 0⟩).cursor, written'⟩ := by
  have hsame := foldl_digit_cursor lim 5
    (show (⟨out, 0⟩ : Printed).cursor = (⟨out, written⟩ : Printed).cursor from rfl)
  refine ⟨((List.replicate 5 Emit.digit).foldl (put lim) ⟨out, written⟩).written,
    fun fuel rest ap => ?_⟩
  rw [formatLoop_pointer, hsame]

theorem continues_impl_iff (size : Nat) (v : Word) (out out' : Cursor Byte) :
    Continues strings (.vsprintfImpl size) v out out' ↔
      out' = ((List.replicate 5 Emit.digit).foldl (put (roomFor size)) ⟨out, 0⟩).cursor := by
  constructor
  · intro h
    obtain ⟨written', hloop⟩ := h 0
    have hnul := hloop 1 [0] []
    rw [formatLoop_pointer, formatLoop, if_pos rfl, formatLoop, if_pos rfl] at hnul
    exact (congrArg Printed.cursor (Option.some.inj hnul)).symm
  · intro h
    rw [h]
    exact formatLoop_pointer_cursor strings (roomFor size) v out

end Impl

section Pointers

variable (strings : Strings)

theorem printsInFull_vsprintf_iff (v : Word) {out : Cursor Byte} (hroom : out.pos + 10 ≤ limit) :
    PrintsInFull strings .vsprintf v out ↔ v.toNat < 2 ^ 32 := by
  constructor
  · rintro ⟨out', stores, digits, hloop, hstores, hfull⟩
    rw [continues_vsprintf_iff strings v hroom] at hloop
    rw [hloop] at hstores
    have hdigits : digits = pointerShifts.map (nibble v) :=
      List.append_cancel_left (eq_of_stores_putAll hstores)
    have hvalue := hfull.value
    rw [hdigits, numeralValue_nibbles] at hvalue
    omega
  · intro hv
    refine ⟨_, _, pointerShifts.map (nibble v), (continues_vsprintf_iff strings v hroom).mpr rfl,
      stores_putAll _ _, ?_, ?_, ?_⟩
    · exact List.cons_ne_nil _ _
    · intro c hc
      obtain ⟨shift, -, rfl⟩ := List.mem_map.mp hc
      exact ⟨_, Nat.mod_lt _ (by decide), nibble_eq v shift⟩
    · rw [numeralValue_nibbles, Nat.mod_eq_of_lt hv]

theorem not_printsInFull_impl (size : Nat) (v : Word) (out : Cursor Byte) :
    ¬ PrintsInFull strings (.vsprintfImpl size) v out := by
  rintro ⟨out', stores, digits, hloop, hstores, -⟩
  rw [continues_impl_iff] at hloop
  have hlog := hstores.log
  rw [hloop, NumberRendering.foldl_digit_log] at hlog
  have hempty : stores = [] := List.append_cancel_right (hlog.symm.trans (List.nil_append _).symm)
  have hfirst := hstores.put 0 (Nat.zero_lt_succ _)
  rw [hempty] at hfirst
  cases hfirst

theorem content_fullText (v : Word) (out : Cursor Byte) {k : Nat} (hk : k < 8) :
    content (out.putAll (fullText (.pointer v))).log (out.pos + (k + 2)) =
      (pointerShifts.map (nibble v))[k]? :=
  Cursor.content_putAll out (fullText (.pointer v)) (Nat.add_lt_add_right hk 2)

theorem fullText_eq_of_low {v w : Word} (h : v.toNat % 2 ^ 32 = w.toNat % 2 ^ 32) :
    fullText (.pointer v) = fullText (.pointer w) := by
  have hnibble : ∀ shift ∈ pointerShifts, nibble v shift = nibble w shift := by
    intro shift hshift
    have hdigit : v.toNat / 2 ^ shift % 16 = w.toNat / 2 ^ shift % 16 := by
      simp only [pointerShifts, List.mem_cons, List.not_mem_nil, or_false] at hshift
      rcases hshift with rfl | rfl | rfl | rfl | rfl | rfl | rfl | rfl <;> omega
    rw [nibble_eq, nibble_eq, hdigit]
  rw [fullText, fullText, List.map_congr_left hnibble]

theorem printAlike_vsprintf_iff (v w : Word) {out : Cursor Byte} (hroom : out.pos + 10 ≤ limit) :
    PrintAlike strings .vsprintf v w out ↔ v.toNat % 2 ^ 32 = w.toNat % 2 ^ 32 := by
  constructor
  · rintro ⟨outv, outw, hv, hw, -, hsame⟩
    rw [continues_vsprintf_iff strings v hroom] at hv
    rw [continues_vsprintf_iff strings w hroom] at hw
    have hdigits : pointerShifts.map (nibble v) = pointerShifts.map (nibble w) := by
      apply List.ext_getElem?
      intro k
      rcases Nat.lt_or_ge k 8 with hk | hk
      · rw [← content_fullText v out hk, ← content_fullText w out hk, ← hv, ← hw]
        exact hsame _
      · rw [List.getElem?_eq_none hk, List.getElem?_eq_none hk]
    rw [← numeralValue_nibbles v, ← numeralValue_nibbles w, hdigits]
  · intro h
    refine ⟨_, _, (continues_vsprintf_iff strings v hroom).mpr rfl,
      (continues_vsprintf_iff strings w hroom).mpr rfl, ?_, ?_⟩
    · rw [fullText_eq_of_low h]
    · rw [fullText_eq_of_low h]
      exact fun _ => rfl

theorem printAlike_impl (size : Nat) (v w : Word) (out : Cursor Byte) :
    PrintAlike strings (.vsprintfImpl size) v w out :=
  ⟨_, _, (continues_impl_iff strings size v out _).mpr rfl,
    (continues_impl_iff strings size w out _).mpr rfl, rfl, fun _ => rfl⟩

/-- A pointer prints in full exactly when `vsprintf` prints it and it lies below
4 GiB. Two pointers print alike when the low halves are the same, and in
`vsprintf_impl` always. -/
theorem printsInFull_iff (engine : Engine) (v w : Word) (out : Cursor Byte)
    (hfits : engine.Fits out) :
    (PrintsInFull strings engine v out ↔ engine = .vsprintf ∧ v.toNat < 2 ^ 32) ∧
      (PrintAlike strings engine v w out ↔
        engine ≠ .vsprintf ∨ v.toNat % 2 ^ 32 = w.toNat % 2 ^ 32) := by
  cases engine with
  | vsprintf =>
      have hroom := hfits rfl
      rw [printsInFull_vsprintf_iff strings v hroom, printAlike_vsprintf_iff strings v w hroom]
      exact ⟨⟨fun hv => ⟨rfl, hv⟩, fun h => h.2⟩,
        ⟨.inr, fun h => h.resolve_left fun hne => hne rfl⟩⟩
  | vsprintfImpl size =>
      refine ⟨⟨fun h => absurd h (not_printsInFull_impl strings size v out), ?_⟩, ?_⟩
      · rintro ⟨hengine, -⟩
        cases hengine
      · exact ⟨fun _ => .inl fun hengine => Engine.noConfusion hengine,
          fun _ => printAlike_impl strings size v w out⟩

theorem printsInFull_iff_start :
    (PrintsInFull (fun _ => none) .vsprintf 0x1000 .start ↔
        Engine.vsprintf = .vsprintf ∧ (0x1000 : Word).toNat < 2 ^ 32) ∧
      (PrintAlike (fun _ => none) .vsprintf 0x1000 0x2000 .start ↔
        Engine.vsprintf ≠ .vsprintf ∨
          (0x1000 : Word).toNat % 2 ^ 32 = (0x2000 : Word).toNat % 2 ^ 32) :=
  printsInFull_iff (fun _ => none) .vsprintf 0x1000 0x2000 .start fun _ => by decide

/-- `0` and `0x100000000` are both printed as `0x00000000`, and `printk` prints
nothing of a pointer. -/
theorem not_printsInFull_fourGiB :
    ¬ PrintsInFull (fun _ => none) .vsprintf 0x100000000 .start ∧
      PrintAlike (fun _ => none) .vsprintf 0 0x100000000 .start ∧
      ¬ PrintsInFull (fun _ => none) (.vsprintfImpl 512) 0x1000 .start ∧
      PrintAlike (fun _ => none) (.vsprintfImpl 512) 0x1000 0x2000 .start := by
  have hroom : (Cursor.start : Cursor Byte).pos + 10 ≤ limit := by decide
  refine ⟨fun h => ?_, ?_, not_printsInFull_impl _ _ _ _, printAlike_impl _ _ _ _ _⟩
  · exact absurd ((printsInFull_vsprintf_iff _ _ hroom).mp h) (by decide)
  · exact (printAlike_vsprintf_iff _ _ _ hroom).mpr (by decide)

end Pointers

end ShlteOs.PointerPrinting
