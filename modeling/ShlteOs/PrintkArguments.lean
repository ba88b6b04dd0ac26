import ShlteOs.FormatReads

/-!
The arguments `vsprintf_impl` takes for its integer conversions, and the
numbers it passes on to `format_number`.  A run of the loop is recorded with
these calls; erasing the record gives the loop back.
-/

namespace ShlteOs.PrintkArguments

open ShlteOs.ByteMemory
open ShlteOs.PrefixParsing
open ShlteOs.StringFormat (Strings ch chs isDigit vaArg percent_ne_zero)
open ShlteOs.PrintkFormat
open ShlteOs.PrintkBounds (layout vsprintfImpl_eq_layout)
open ShlteOs.FormatReads (parseHeader directive_of_header layout_literal layout_directive
  flagStep digitStep parseFlags_eq_scan parseDigits_eq_scan)

/-- The number part of a call of `format_number`. -/
structure NumberCall where
  value : Word
  base : Nat
  isSigned : Bool
  sign : Option Byte

/-- The call an integer conversion makes for the argument slot `v`. -/
def numberCall (flags : Flags) (lenMod : LenMod) (spec : Byte) (v : Word) : Option NumberCall :=
  if spec = ch 'd' ∨ spec = ch 'i' then
    let value := signedArg lenMod v
    some
      { value := if value.toInt < 0 then -value else value
        base := 10
        isSigned := true
        sign := signOf flags value }
  else if spec = ch 'u' then
    some { value := unsignedArg lenMod v, base := 10, isSigned := false, sign := none }
  else if spec = ch 'x' ∨ spec = ch 'X' then
    some { value := unsignedArg lenMod v, base := 16, isSigned := false, sign := none }
  else none

theorem conversion_of_numberCall (strings : Strings) {flags : Flags} (width precision : Int)
    {lenMod : LenMod} {spec : Byte} {v : Word} {call : NumberCall} (ap : List Word)
    (h : numberCall flags lenMod spec v = some call) :
    conversion strings flags width precision lenMod spec (v :: ap) =
      some (numberField flags width call.sign
        (formatNumber call.value call.base call.isSigned call.sign flags precision), ap) := by
  rw [numberCall] at h
  rw [conversion]
  split_ifs at h ⊢
  · cases h
    rfl
  · cases h
    rfl
  · cases h
    rfl

/-- The output of the loop, the calls of `format_number` it made, and the arguments it
left. -/
structure Recorded where
  output : List Emit
  calls : List NumberCall
  rest : List Word

/-- The call a conversion makes, if it is one of a number. -/
def recordedCalls (flags : Flags) (lenMod : LenMod) (spec : Byte) (ap : List Word) :
    List NumberCall :=
  (vaArg ap).elim [] fun r => (numberCall flags lenMod spec r.1).toList

/-- The loop of `vsprintf_impl` with its calls of `format_number` and the
arguments it leaves. -/
def record (strings : Strings) : Nat → List Byte → List Word → Option Recorded
  | 0, _, _ => none
  | _ + 1, [], _ => none
  | fuel + 1, c :: fmt, ap =>
      if c = 0 then some { output := [], calls := [], rest := ap }
      else if c ≠ ch '%' then
        (record strings fuel fmt ap).map fun r => { r with output := .literal c :: r.output }
      else
        (parseHeader fmt).bind fun x =>
          match x.2 with
          | [] => none
          | spec :: fmt =>
              (conversion strings x.1.1 x.1.2.1 x.1.2.2.1 x.1.2.2.2 spec ap).bind fun y =>
                (record strings fuel fmt y.2).map fun r =>
                  { output := y.1 ++ r.output
                    calls := recordedCalls x.1.1 x.1.2.2.2 spec ap ++ r.calls
                    rest := r.rest }

theorem directive_of_header_nil (strings : Strings) {fmt : List Byte} {ap : List Word}
    {header : Flags × Int × Int × LenMod} (h : parseHeader fmt = some (header, [])) :
    directive strings fmt ap = none := by
  obtain ⟨s₁, hflags, h⟩ := andThen_eq_some.mp h
  obtain ⟨s₂, hwidth, h⟩ := andThen_eq_some.mp h
  obtain ⟨s₃, hprecision, hlenMod⟩ := andThen_eq_some.mp h
  simp only [directive, hflags, hwidth, hprecision, hlenMod, Option.bind_eq_bind,
    Option.bind_some]

theorem directive_of_header_none (strings : Strings) {fmt : List Byte} {ap : List Word}
    (h : parseHeader fmt = none) : directive strings fmt ap = none := by
  rcases hdir : directive strings fmt ap with _ | r
  · rfl
  · simp only [directive, Option.bind_eq_bind, Option.bind_eq_some_iff, Prod.exists] at hdir
    obtain ⟨flags, s₁, hflags, width, s₂, hwidth, precision, s₃, hprecision,
      lenMod, s₄, hlenMod, -⟩ := hdir
    have hheader : parseHeader fmt = some ((flags, width, precision, lenMod), s₄) :=
      andThen_eq_some.mpr ⟨s₁, hflags, andThen_eq_some.mpr ⟨s₂, hwidth,
        andThen_eq_some.mpr ⟨s₃, hprecision, hlenMod⟩⟩⟩
    rw [h] at hheader
    cases hheader

/-- The record changes nothing: its output is the output of the loop. -/
theorem record_output (strings : Strings) (fuel : Nat) (fmt : List Byte) (ap : List Word) :
    (record strings fuel fmt ap).map Recorded.output = layout strings fuel fmt ap := by
  induction fuel generalizing fmt ap with
  | zero => rfl
  | succ fuel ih =>
      cases fmt with
      | nil => rfl
      | cons c fmt =>
          by_cases hnul : c = 0
          · rw [record, layout, if_pos hnul, if_pos hnul]
            rfl
          · by_cases hc : c = ch '%'
            · subst hc
              rw [record, if_neg percent_ne_zero, if_neg (not_not.mpr rfl), layout_directive]
              rcases hheader : parseHeader fmt with _ | ⟨header, _ | ⟨spec, rest⟩⟩
              · rw [directive_of_header_none strings hheader]
                rfl
              · rw [directive_of_header_nil strings hheader]
                rfl
              · rw [directive_of_header strings hheader]
                simp only [Option.bind_some]
                rcases conversion strings header.1 header.2.1 header.2.2.1 header.2.2.2 spec ap
                  with _ | ⟨es, ap'⟩
                · rfl
                · simp only [Option.bind_some, Option.map_some, Option.map_map, ← ih]
                  rfl
            · rw [record, if_neg hnul, if_pos hc, layout_literal strings hc hnul, ← ih,
                Option.map_map, Option.map_map]
              rfl

theorem vsprintfImpl_eq_record (strings : Strings) (size : Nat) (fmt : List Byte) (ap : List Word) :
    vsprintfImpl strings size fmt ap =
      (record strings fmt.length fmt ap).map fun r =>
        terminate size (r.output.foldl (put (roomFor size)) .start) := by
  rw [vsprintfImpl_eq_layout, ← record_output, Option.map_map, Function.comp_def]

section Formats

inductive FlagChar where
  | plus
  | space
  | hash
  | zero
  | left

def FlagChar.char : FlagChar → Byte
  | .plus => ch '+'
  | .space => ch ' '
  | .hash => ch '#'
  | .zero => ch '0'
  | .left => ch '-'

inductive Modifier where
  | none
  | h
  | l
  | ll
  | z
  deriving DecidableEq

def Modifier.chars : Modifier → List Byte
  | .none => []
  | .h => chs ['h']
  | .l => chs ['l']
  | .ll => chs ['l', 'l']
  | .z => chs ['z']

inductive Spec where
  | d
  | i
  | u
  | x
  | upperX
  deriving DecidableEq

def Spec.char : Spec → Byte
  | .d => ch 'd'
  | .i => ch 'i'
  | .u => ch 'u'
  | .x => ch 'x'
  | .upperX => ch 'X'

def Spec.signed : Spec → Bool
  | .d => true
  | .i => true
  | _ => false

def digitByte (d : Nat) : Byte := BitVec.ofNat 8 (48 + d)

/-- The flags, width and precision of a directive. -/
structure Options where
  flags : List FlagChar := []
  width : Option (Fin 9 × List (Fin 10)) := none
  precision : Option (List (Fin 10)) := none

/-- The flags, the width and the precision as they are written. -/
def Options.chars (o : Options) : List Byte :=
  o.flags.map FlagChar.char ++
    (o.width.elim [] fun w => digitByte (w.1.val + 1) :: w.2.map fun d => digitByte d.val) ++
    (o.precision.elim [] fun p => ch '.' :: p.map fun d => digitByte d.val)

/-- The value of an argument slot at the C type a conversion asks for.  A type
narrower than the slot lies in its low bits. -/
def argument (modifier : Modifier) (signed : Bool) (slot : Word) : Int :=
  match modifier with
  | .none => if signed then (slot.setWidth 32).toInt else (slot.setWidth 32).toNat
  | .h => if signed then (slot.setWidth 16).toInt else (slot.setWidth 16).toNat
  | .l | .ll | .z => if signed then slot.toInt else slot.toNat

/-- A `short` is passed as the `int` it is promoted to. -/
def Typed (modifier : Modifier) (signed : Bool) (slot : Word) : Prop :=
  modifier = .h →
    slot.setWidth 32 =
      if signed then (slot.setWidth 16).signExtend 32 else (slot.setWidth 16).setWidth 32

/-- An integer conversion with the argument that is passed for it. -/
structure Number where
  options : Options
  modifier : Modifier
  spec : Spec
  slot : Word
  typed : Typed modifier spec.signed slot

def Number.chars (n : Number) : List Byte :=
  ch '%' :: (n.options.chars ++ (n.modifier.chars ++ [n.spec.char]))

/-- The value the caller meant to pass. -/
def Number.argument (n : Number) : Int :=
  PrintkArguments.argument n.modifier n.spec.signed n.slot

/-- A format is made of characters and number directives. -/
inductive Piece where
  | literal (c : Byte) (hnul : c ≠ 0) (hc : c ≠ ch '%')
  | number (n : Number)

def Piece.chars : Piece → List Byte
  | .literal c _ _ => [c]
  | .number n => n.chars

def Piece.number? : Piece → Option Number
  | .literal _ _ _ => none
  | .number n => some n

def text (pieces : List Piece) : List Byte := pieces.flatMap Piece.chars

def numbers (pieces : List Piece) : List Number := pieces.filterMap Piece.number?

def slots (pieces : List Piece) : List Word := (numbers pieces).map Number.slot

end Formats

section Headers

def flagChars : List Byte := chs ['+', ' ', '#', '0', '-']

/-- A character that ends flags, width and precision. -/
def Plain (c : Byte) : Prop := c ∉ flagChars ∧ isDigit c = false ∧ c ≠ ch '.'

instance (c : Byte) : Decidable (Plain c) := inferInstanceAs (Decidable (_ ∧ _ ∧ _))

theorem flagStep_of_not_mem {c : Byte} (h : c ∉ flagChars) (flags : Flags) :
    flagStep flags c = none := by
  simp only [flagChars, chs, List.map_cons, List.map_nil, List.mem_cons, List.not_mem_nil,
    or_false, not_or] at h
  obtain ⟨hplus, hspace, hhash, hzero, hleft⟩ := h
  simp only [flagStep, hplus, hspace, hhash, hzero, hleft, if_false]

def addFlag (flags : Flags) : FlagChar → Flags
  | .plus => { flags with plus := true }
  | .space => { flags with space := true }
  | .hash => { flags with hash := true }
  | .zero => { flags with zero := true }
  | .left => { flags with left := true }

theorem flagStep_char (flags : Flags) (f : FlagChar) :
    flagStep flags f.char = some (addFlag flags f) := by
  cases f with
  | plus => rfl
  | space => rfl
  | hash => rfl
  | zero => rfl
  | left => rfl

theorem foldl_addFlag_left (fs : List FlagChar) (flags : Flags) :
    (fs.foldl addFlag flags).left = true ↔ flags.left = true ∨ .left ∈ fs := by
  induction fs generalizing flags with
  | nil => simp
  | cons f fs ih =>
      rw [List.foldl_cons, ih]
      cases f <;> simp [addFlag]

theorem foldl_addFlag_plus (fs : List FlagChar) (flags : Flags) :
    (fs.foldl addFlag flags).plus = true ↔ flags.plus = true ∨ .plus ∈ fs := by
  induction fs generalizing flags with
  | nil => simp
  | cons f fs ih =>
      rw [List.foldl_cons, ih]
      cases f <;> simp [addFlag]

theorem foldl_addFlag_space (fs : List FlagChar) (flags : Flags) :
    (fs.foldl addFlag flags).space = true ↔ flags.space = true ∨ .space ∈ fs := by
  induction fs generalizing flags with
  | nil => simp
  | cons f fs ih =>
      rw [List.foldl_cons, ih]
      cases f <;> simp [addFlag]

theorem parseFlags_chars (fs : List FlagChar) {c : Byte} (hc : c ∉ flagChars) (r : List Byte) :
    parseFlags {} (fs.map FlagChar.char ++ c :: r) = some (fs.foldl addFlag {}, c :: r) := by
  rw [parseFlags_eq_scan]
  exact scan_map flagStep_char (flagStep_of_not_mem hc) fs {} r

theorem isDigit_digitByte (d : Fin 10) : isDigit (digitByte d.val) = true := by
  revert d
  decide

theorem digitValue_digitByte (d : Fin 10) : digitValue (digitByte d.val) = d.val := by
  revert d
  decide

/-- The value of digits behind a number. -/
def decimal (acc : Nat) (ds : List (Fin 10)) : Nat := ds.foldl (fun acc d => acc * 10 + d.val) acc

theorem foldl_wrapInt (ds : List (Fin 10)) (acc : Nat) :
    ds.foldl (fun (acc : Int) d => wrapInt (acc * 10 + d.val)) (wrapInt acc) =
      wrapInt (decimal acc ds) := by
  induction ds generalizing acc with
  | nil => rw [decimal, List.foldl_nil, List.foldl_nil]
  | cons d ds ih =>
      have hwrap : wrapInt (wrapInt acc * 10 + d.val) = wrapInt (acc * 10 + d.val : Nat) := by
        rw [wrapInt, wrapInt, wrapInt, ← Int.bmod_add_bmod, Int.bmod_mul_bmod, Int.bmod_add_bmod,
          Nat.cast_add, Nat.cast_mul, Nat.cast_ofNat]
      rw [List.foldl_cons, hwrap, ih, decimal, decimal, List.foldl_cons]

theorem parseDigits_chars (ds : List (Fin 10)) (acc : Nat) {c : Byte} (hc : isDigit c = false)
    (r : List Byte) :
    parseDigits (wrapInt acc) ((ds.map fun d => digitByte d.val) ++ c :: r) =
      some (wrapInt (decimal acc ds), c :: r) := by
  have hstep : ∀ (acc : Int) (d : Fin 10),
      digitStep acc (digitByte d.val) = some (wrapInt (acc * 10 + d.val)) := by
    intro acc d
    rw [digitStep, if_pos (isDigit_digitByte d), digitValue_digitByte]
  have hstop : ∀ acc, digitStep acc c = none := by
    intro acc
    rw [digitStep, hc]
    rfl
  rw [parseDigits_eq_scan, scan_map hstep hstop, foldl_wrapInt]

theorem first_digit (d : Fin 9) :
    (ch '1' ≤ digitByte (d.val + 1) ∧ digitByte (d.val + 1) ≤ ch '9') ∧
      digitByte (d.val + 1) ∉ flagChars := by
  revert d
  decide

theorem isDigit_of_first {c : Byte} (h : ch '1' ≤ c ∧ c ≤ ch '9') : isDigit c = true := by
  have hle : ch '0' ≤ ch '1' := by decide
  exact decide_eq_true ⟨BitVec.le_trans hle h.1, h.2⟩

def widthValue (w : Option (Fin 9 × List (Fin 10))) : Nat :=
  w.elim 0 fun w => decimal (w.1.val + 1) w.2

/-- What `precision` holds behind the directive, `-1` for none. -/
def precisionValue (p : Option (List (Fin 10))) : Int :=
  p.elim (-1) fun ds => wrapInt (decimal 0 ds)

theorem digitValue_first (d : Fin 9) :
    digitValue (digitByte (d.val + 1)) = wrapInt (d.val + 1 : Nat) := by
  revert d
  decide

theorem parsePrecision_chars (p : Option (List (Fin 10))) {c : Byte} (hc : Plain c)
    (r : List Byte) :
    parsePrecision ((p.elim [] fun p => ch '.' :: p.map fun d => digitByte d.val) ++ c :: r) =
      some (precisionValue p, c :: r) := by
  cases p with
  | none => exact if_neg hc.2.2
  | some ds =>
      have hzero : wrapInt (0 : Nat) = 0 := by decide
      have hdigits := parseDigits_chars ds 0 hc.2.1 r
      rw [hzero] at hdigits
      rw [Option.elim_some, List.cons_append, parsePrecision, if_pos rfl, hdigits, precisionValue,
        Option.elim_some]

theorem parseWidth_chars (w : Option (Fin 9 × List (Fin 10))) {c : Byte}
    (hc : isDigit c = false) (r : List Byte) :
    parseWidth ((w.elim [] fun w => digitByte (w.1.val + 1) :: w.2.map fun d => digitByte d.val) ++
      c :: r) = some (wrapInt (widthValue w), c :: r) := by
  cases w with
  | none =>
      refine if_neg fun hfirst => ?_
      rw [isDigit_of_first hfirst] at hc
      cases hc
  | some w =>
      refine (if_pos (first_digit w.1).1).trans ?_
      rw [digitValue_first]
      exact parseDigits_chars w.2 (w.1.val + 1) hc r

theorem parseHeader_options (o : Options) {c : Byte} (hc : Plain c) {r r' : List Byte}
    {lenMod : LenMod} (h : parseLenMod (c :: r) = some (lenMod, r')) :
    parseHeader (o.chars ++ c :: r) =
      some ((o.flags.foldl addFlag {}, wrapInt (widthValue o.width), precisionValue o.precision,
        lenMod), r') := by
  obtain ⟨fs, w, p⟩ := o
  have hprecision := parsePrecision_chars p hc r
  obtain ⟨b, s, hs, hflag, hdigit⟩ : ∃ b s,
      (p.elim [] fun p => ch '.' :: p.map fun d => digitByte d.val) ++ c :: r = b :: s ∧
        b ∉ flagChars ∧ isDigit b = false := by
    cases p with
    | none => exact ⟨c, r, rfl, hc.1, hc.2.1⟩
    | some ds => exact ⟨_, _, rfl, by decide, by decide⟩
  rw [hs] at hprecision
  have hwidth := parseWidth_chars w hdigit s
  obtain ⟨a, t, ht, hfirst⟩ : ∃ a t,
      (w.elim [] fun w => digitByte (w.1.val + 1) :: w.2.map fun d => digitByte d.val) ++
        b :: s = a :: t ∧ a ∉ flagChars := by
    cases w with
    | none => exact ⟨b, s, rfl, hflag⟩
    | some w => exact ⟨_, _, rfl, (first_digit w.1).2⟩
  rw [ht] at hwidth
  rw [Options.chars, List.append_assoc, List.append_assoc, hs, ht]
  exact andThen_of_some (parseFlags_chars fs hfirst t)
    (andThen_of_some hwidth (andThen_of_some hprecision h))

/-- How the parser reads a modifier; it does not know `z`. -/
def Modifier.lenMod : Modifier → LenMod
  | .none => .none
  | .h => .short
  | .l => .long
  | .ll => .longLong
  | .z => .none

/-- A `z` is not a length modifier but the conversion character. -/
def Modifier.left (m : Modifier) (s : List Byte) : List Byte :=
  if m = .z then ch 'z' :: s else s

theorem parseLenMod_chars (m : Modifier) (spec : Spec) (r : List Byte) :
    ∃ c s, m.chars ++ spec.char :: r = c :: s ∧ Plain c ∧
      parseLenMod (c :: s) = some (m.lenMod, m.left (spec.char :: r)) := by
  cases m with
  | none =>
      refine ⟨spec.char, r, rfl, ?_⟩
      cases spec with
      | d => exact ⟨by decide, rfl⟩
      | i => exact ⟨by decide, rfl⟩
      | u => exact ⟨by decide, rfl⟩
      | x => exact ⟨by decide, rfl⟩
      | upperX => exact ⟨by decide, rfl⟩
  | l =>
      refine ⟨ch 'l', spec.char :: r, rfl, by decide, ?_⟩
      cases spec with
      | d => rfl
      | i => rfl
      | u => rfl
      | x => rfl
      | upperX => rfl
  | h => exact ⟨ch 'h', _, rfl, by decide, rfl⟩
  | ll => exact ⟨ch 'l', _, rfl, by decide, rfl⟩
  | z => exact ⟨ch 'z', _, rfl, by decide, rfl⟩

theorem parseHeader_number (n : Number) (r : List Byte) :
    ∃ flags width precision,
      parseHeader (n.options.chars ++ (n.modifier.chars ++ n.spec.char :: r)) =
        some ((flags, width, precision, n.modifier.lenMod),
          n.modifier.left (n.spec.char :: r)) := by
  obtain ⟨c, s, hs, hc, hlenMod⟩ := parseLenMod_chars n.modifier n.spec r
  rw [hs]
  exact ⟨_, _, _, parseHeader_options n.options hc hlenMod⟩

end Headers

section Values

theorem magnitude_toNat (w : Word) :
    (if w.toInt < 0 then -w else w).toNat = w.toInt.natAbs := by
  have hlt := w.isLt
  rw [BitVec.toInt_eq_toNat_cond]
  split_ifs with hhalf hneg hneg
  · omega
  · omega
  · rw [BitVec.toNat_neg]
    omega
  · omega

theorem toInt_low_eq_iff (v : Word) :
    (v.setWidth 32).toInt = v.toInt ↔ -2 ^ 31 ≤ v.toInt ∧ v.toInt < 2 ^ 31 := by
  have hlt := v.isLt
  rw [BitVec.toInt_setWidth, Int.bmod_def, BitVec.toInt_eq_toNat_cond]
  split_ifs
  · omega
  · omega
  · omega
  · omega

theorem toNat_low (v : Word) : ((v.setWidth 32).setWidth 64).toNat = (v.setWidth 32).toNat := by
  have hlt := (v.setWidth 32).isLt
  rw [BitVec.toNat_setWidth]
  omega

theorem toNat_low_eq_iff (v : Word) :
    (v.setWidth 32).toNat = v.toNat ↔ v.toNat < 2 ^ 32 := by
  rw [BitVec.toNat_setWidth]
  omega

/-- The magnitude and the sign of a call are those of `x`. -/
def Carries (call : NumberCall) (x : Int) : Prop :=
  call.value.toNat = x.natAbs ∧ (call.sign = some (ch '-') ↔ x < 0)

/-- The value a conversion makes of an argument slot. -/
def fetched (lenMod : LenMod) (signed : Bool) (v : Word) : Int :=
  if signed then (signedArg lenMod v).toInt else (unsignedArg lenMod v).toNat

theorem signOf_eq_minus_iff (flags : Flags) (value : Word) :
    signOf flags value = some (ch '-') ↔ value.toInt < 0 := by
  have hplus : ch '+' ≠ ch '-' := by decide
  have hspace : ch ' ' ≠ ch '-' := by decide
  rw [signOf]
  split_ifs with hneg
  · exact iff_of_true rfl hneg
  · exact iff_of_false (fun h => hplus (Option.some_inj.mp h)) hneg
  · exact iff_of_false (fun h => hspace (Option.some_inj.mp h)) hneg
  · exact iff_of_false (fun h => nomatch h) hneg

theorem carries_signed_iff (flags : Flags) (w : Word) (x : Int) :
    Carries
        { value := if w.toInt < 0 then -w else w
          base := 10
          isSigned := true
          sign := signOf flags w } x ↔ w.toInt = x := by
  rw [Carries, magnitude_toNat, signOf_eq_minus_iff]
  omega

theorem carries_unsigned_iff (w : Word) (base : Nat) {x : Int} (hx : 0 ≤ x) :
    Carries { value := w, base := base, isSigned := false, sign := none } x ↔
      (w.toNat : Int) = x := by
  have hsign : (none : Option Byte) ≠ some (ch '-') := fun h => nomatch h
  constructor
  · rintro ⟨hvalue, -⟩
    have hvalue : w.toNat = x.natAbs := hvalue
    omega
  · rintro rfl
    exact ⟨rfl, iff_of_false hsign (Int.not_lt.mpr hx)⟩

theorem numberCall_spec (flags : Flags) (lenMod : LenMod) (spec : Spec) (v : Word) :
    ∃ call, numberCall flags lenMod spec.char v = some call ∧
      ∀ x, (spec.signed = false → 0 ≤ x) →
        (Carries call x ↔ fetched lenMod spec.signed v = x) := by
  cases spec with
  | d => exact ⟨_, rfl, fun x _ => carries_signed_iff flags _ x⟩
  | i => exact ⟨_, rfl, fun x _ => carries_signed_iff flags _ x⟩
  | u => exact ⟨_, rfl, fun x hx => carries_unsigned_iff _ _ (hx rfl)⟩
  | x => exact ⟨_, rfl, fun x hx => carries_unsigned_iff _ _ (hx rfl)⟩
  | upperX => exact ⟨_, rfl, fun x hx => carries_unsigned_iff _ _ (hx rfl)⟩

/-- The modifier is not `z`, and a `long` argument fits into 32 bits. -/
def Number.Fetched (n : Number) : Prop :=
  n.modifier ≠ .z ∧
    (n.modifier = .l →
      if n.spec.signed then -2 ^ 31 ≤ n.argument ∧ n.argument < 2 ^ 31 else n.argument < 2 ^ 32)

theorem argument_nonneg (m : Modifier) (slot : Word) : 0 ≤ argument m false slot := by
  cases m with
  | none => exact Int.natCast_nonneg _
  | h => exact Int.natCast_nonneg _
  | l => exact Int.natCast_nonneg _
  | ll => exact Int.natCast_nonneg _
  | z => exact Int.natCast_nonneg _

theorem fetched_low (lenMod : LenMod) (h : lenMod ≠ .longLong) (signed : Bool) (v : Word) :
    fetched lenMod signed v = argument .none signed v := by
  cases signed with
  | false =>
      simp only [fetched, argument, unsignedArg, h, if_false, Bool.false_eq_true, toNat_low]
  | true =>
      simp only [fetched, argument, signedArg, h, if_false, if_true]
      exact BitVec.toInt_signExtend_of_le (by decide)

theorem argument_short {signed : Bool} {slot : Word} (h : Typed .h signed slot) :
    argument .none signed slot = argument .h signed slot := by
  have hlow := h rfl
  cases signed with
  | false =>
      have hshort := (slot.setWidth 16).isLt
      simp only [argument, hlow, Bool.false_eq_true, if_false, BitVec.toNat_setWidth]
      omega
  | true =>
      simp only [argument, hlow, if_true]
      exact BitVec.toInt_signExtend_of_le (by decide)

theorem fetched_eq_iff {m : Modifier} (hz : m ≠ .z) {signed : Bool} {slot : Word}
    (htyped : Typed m signed slot) :
    fetched m.lenMod signed slot = argument m signed slot ↔
      (m = .l →
        if signed then -2 ^ 31 ≤ argument m signed slot ∧ argument m signed slot < 2 ^ 31
        else argument m signed slot < 2 ^ 32) := by
  cases m with
  | none => exact iff_of_true (fetched_low _ (by decide) _ _) (fun h => nomatch h)
  | h =>
      have hlow := fetched_low .short (by decide) signed slot
      exact iff_of_true (hlow.trans (argument_short htyped)) (fun h => nomatch h)
  | ll =>
      refine iff_of_true ?_ (fun h => nomatch h)
      cases signed with
      | false => rfl
      | true => rfl
  | z => exact absurd rfl hz
  | l =>
      rw [forall_prop_of_true rfl, fetched_low _ (by decide)]
      cases signed with
      | false =>
          have hiff := toNat_low_eq_iff slot
          simp only [argument, Bool.false_eq_true, if_false]
          omega
      | true => exact toInt_low_eq_iff slot

end Values

section Runs

variable (strings : Strings)

theorem record_nul (fuel : Nat) (tail : List Byte) (ap : List Word) :
    record strings (fuel + 1) (0 :: tail) ap = some { output := [], calls := [], rest := ap } := by
  rw [record, if_pos rfl]

theorem record_literal {c : Byte} (hnul : c ≠ 0) (hc : c ≠ ch '%') (fuel : Nat)
    (fmt : List Byte) (ap : List Word) :
    record strings (fuel + 1) (c :: fmt) ap =
      (record strings fuel fmt ap).map fun r => { r with output := .literal c :: r.output } := by
  rw [record, if_neg hnul, if_pos hc]

theorem record_directive {fmt rest : List Byte} {header : Flags × Int × Int × LenMod}
    {spec : Byte} (hheader : parseHeader fmt = some (header, spec :: rest)) {ap ap' : List Word}
    {es : List Emit}
    (hconv : conversion strings header.1 header.2.1 header.2.2.1 header.2.2.2 spec ap =
      some (es, ap')) (fuel : Nat) :
    record strings (fuel + 1) (ch '%' :: fmt) ap =
      (record strings fuel rest ap').map fun r =>
        { output := es ++ r.output
          calls := recordedCalls header.1 header.2.2.2 spec ap ++ r.calls
          rest := r.rest } := by
  rw [record, if_neg percent_ne_zero, if_neg (not_not.mpr rfl), hheader]
  simp only [Option.bind_some, hconv]

theorem record_number (n : Number) (hz : n.modifier ≠ .z) (fuel : Nat) (fmt : List Byte)
    (v : Word) (ap : List Word) :
    ∃ es call,
      record strings (fuel + 1) (n.chars ++ fmt) (v :: ap) =
          (record strings fuel fmt ap).map (fun r =>
            { output := es ++ r.output, calls := call :: r.calls, rest := r.rest }) ∧
        ∀ x, (n.spec.signed = false → 0 ≤ x) →
          (Carries call x ↔ fetched n.modifier.lenMod n.spec.signed v = x) := by
  obtain ⟨flags, width, precision, hheader⟩ := parseHeader_number n fmt
  obtain ⟨call, hcall, hcarries⟩ := numberCall_spec flags n.modifier.lenMod n.spec v
  rw [Modifier.left, if_neg hz] at hheader
  obtain ⟨es, hconv⟩ : ∃ es, conversion strings flags width precision n.modifier.lenMod
      n.spec.char (v :: ap) = some (es, ap) :=
    ⟨_, conversion_of_numberCall strings width precision ap hcall⟩
  refine ⟨es, call, ?_, hcarries⟩
  rw [Number.chars, List.cons_append, List.append_assoc, List.append_assoc, List.singleton_append,
    record_directive strings hheader hconv]
  simp only [recordedCalls, vaArg, Option.elim_some, hcall, Option.toList_some,
    List.singleton_append]

theorem record_z (n : Number) (hz : n.modifier = .z) (fuel : Nat) (fmt : List Byte)
    (ap : List Word) :
    record strings (fuel + 2) (n.chars ++ fmt) ap =
      (record strings fuel fmt ap).map fun r =>
        { r with output := .counted (ch 'z') :: .literal n.spec.char :: r.output } := by
  obtain ⟨flags, width, precision, hheader⟩ := parseHeader_number n fmt
  rw [Modifier.left, if_pos hz] at hheader
  have hconv : conversion strings flags width precision n.modifier.lenMod (ch 'z') ap =
      some ([.counted (ch 'z')], ap) := rfl
  have hcalls : recordedCalls flags n.modifier.lenMod (ch 'z') ap = [] := by
    cases ap with
    | nil => rfl
    | cons v ap => rfl
  have hspec : n.spec.char ≠ 0 ∧ n.spec.char ≠ ch '%' := by
    cases n.spec with
    | d => decide
    | i => decide
    | u => decide
    | x => decide
    | upperX => decide
  rw [Number.chars, List.cons_append, List.append_assoc, List.append_assoc, List.singleton_append,
    record_directive strings hheader hconv, record_literal strings hspec.1 hspec.2, Option.map_map]
  simp only [hcalls]
  rfl

/-- The call made for an argument slot carries the value it fetches. -/
def Fetches (n : Number) (v : Word) (call : NumberCall) : Prop :=
  ∀ x, (n.spec.signed = false → 0 ≤ x) →
    (Carries call x ↔ fetched n.modifier.lenMod n.spec.signed v = x)

/-- The conversions that take an argument. -/
def takers (pieces : List Piece) : List Number :=
  (numbers pieces).filter fun n => n.modifier ≠ .z

theorem takers_of_z {n : Number} (hz : n.modifier = .z) (pieces : List Piece) :
    takers (.number n :: pieces) = takers pieces :=
  List.filter_cons_of_neg (by simpa using hz)

theorem takers_of_not_z {n : Number} (hz : n.modifier ≠ .z) (pieces : List Piece) :
    takers (.number n :: pieces) = n :: takers pieces :=
  List.filter_cons_of_pos (by simpa using hz)

theorem text_cons (piece : Piece) (pieces : List Piece) :
    text (piece :: pieces) = piece.chars ++ text pieces := rfl

theorem two_le_length_chars (n : Number) : 2 ≤ n.chars.length := by
  simp only [Number.chars, List.length_cons, List.length_append]
  omega

theorem three_le_length_chars {n : Number} (hz : n.modifier = .z) : 3 ≤ n.chars.length := by
  simp only [Number.chars, hz, List.length_cons, List.length_append, Modifier.chars, chs,
    List.length_map]
  omega

/-- Each conversion that takes an argument takes the next one, and the calls are
made in this order. -/
theorem record_takers (pieces : List Piece) (tail : List Byte) {fuel : Nat}
    (hfuel : (text pieces).length < fuel) {vs : List Word}
    (hvs : vs.length = (takers pieces).length) (spare : List Word) :
    ∃ r, record strings fuel (text pieces ++ 0 :: tail) (vs ++ spare) = some r ∧
      r.rest = spare ∧
      List.Forall₂ (fun p call => Fetches p.1 p.2 call) ((takers pieces).zip vs) r.calls := by
  induction pieces generalizing fuel vs with
  | nil =>
      obtain ⟨fuel, rfl⟩ := Nat.exists_eq_succ_of_ne_zero (Nat.ne_zero_of_lt hfuel)
      obtain rfl := List.eq_nil_of_length_eq_zero hvs
      exact ⟨_, record_nul strings fuel tail _, rfl, .nil⟩
  | cons piece pieces ih =>
      obtain ⟨fuel, rfl⟩ := Nat.exists_eq_succ_of_ne_zero (Nat.ne_zero_of_lt hfuel)
      rw [text_cons, List.length_append] at hfuel
      rw [text_cons, List.append_assoc]
      cases piece with
      | literal c hnul hc =>
          have hlen : (text pieces).length < fuel := by
            simp only [Piece.chars, List.length_singleton] at hfuel
            omega
          obtain ⟨r, hr, hrest, hcalls⟩ := ih hlen hvs
          rw [Piece.chars, List.singleton_append, record_literal strings hnul hc, hr]
          exact ⟨_, rfl, hrest, hcalls⟩
      | number n =>
          rw [Piece.chars] at hfuel ⊢
          by_cases hz : n.modifier = .z
          · have hlong := three_le_length_chars hz
            obtain ⟨fuel, rfl⟩ := Nat.exists_eq_succ_of_ne_zero (show fuel ≠ 0 by omega)
            rw [takers_of_z hz] at hvs ⊢
            obtain ⟨r, hr, hrest, hcalls⟩ := ih (show (text pieces).length < fuel by omega) hvs
            rw [record_z strings n hz, hr]
            exact ⟨_, rfl, hrest, hcalls⟩
          · have hlong := two_le_length_chars n
            rw [takers_of_not_z hz] at hvs ⊢
            obtain ⟨v, vs, rfl⟩ := List.exists_cons_of_length_eq_add_one hvs
            rw [List.length_cons, List.length_cons] at hvs
            obtain ⟨r, hr, hrest, hcalls⟩ :=
              ih (show (text pieces).length < fuel by omega) (Nat.succ_inj.mp hvs)
            obtain ⟨es, call, hrecord, hfetches⟩ :=
              record_number strings n hz fuel (text pieces ++ 0 :: tail) v (vs ++ spare)
            rw [List.cons_append, hrecord, hr]
            exact ⟨_, rfl, hrest, .cons hfetches hcalls⟩

/-- One argument is taken for each conversion, in order, and `format_number` gets
the magnitude and the sign of its value. -/
def Decodes (pieces : List Piece) (tail : List Byte) (spare : List Word) : Prop :=
  ∃ r, record strings (text pieces ++ 0 :: tail).length (text pieces ++ 0 :: tail)
      (slots pieces ++ spare) = some r ∧
    r.rest = spare ∧
    List.Forall₂ (fun (n : Number) call => Carries call n.argument) (numbers pieces) r.calls

theorem carries_iff_fetched {n : Number} (hz : n.modifier ≠ .z) {call : NumberCall}
    (h : Fetches n n.slot call) : Carries call n.argument ↔ n.Fetched := by
  have hsign : n.spec.signed = false → 0 ≤ n.argument := by
    intro hunsigned
    rw [Number.argument, hunsigned]
    exact argument_nonneg _ _
  rw [h n.argument hsign, Number.argument, fetched_eq_iff hz n.typed, Number.Fetched,
    and_iff_right hz]
  rfl

theorem forall₂_carries_iff {ns : List Number} {calls : List NumberCall}
    (hz : ∀ n ∈ ns, n.modifier ≠ .z)
    (h : List.Forall₂ (fun (n : Number) call => Fetches n n.slot call) ns calls) :
    List.Forall₂ (fun (n : Number) call => Carries call n.argument) ns calls ↔
      ∀ n ∈ ns, n.Fetched := by
  induction h with
  | nil => exact iff_of_true .nil (fun n hn => nomatch hn)
  | cons hhead htail ih =>
      obtain ⟨hn, hns⟩ := List.forall_mem_cons.mp hz
      rw [List.forall₂_cons, List.forall_mem_cons, carries_iff_fetched hn hhead, ih hns]

theorem decodes_iff_of_no_z {pieces : List Piece}
    (hz : ∀ n ∈ numbers pieces, n.modifier ≠ .z) (tail : List Byte) (spare : List Word) :
    Decodes strings pieces tail spare ↔ ∀ n ∈ numbers pieces, n.Fetched := by
  have htakers : takers pieces = numbers pieces :=
    List.filter_eq_self.mpr fun n hn => by simpa using hz n hn
  obtain ⟨r, hr, hrest, hcalls⟩ := record_takers strings pieces tail
    (show (text pieces).length < (text pieces ++ 0 :: tail).length by simp)
    (show (slots pieces).length = (takers pieces).length by rw [htakers, slots, List.length_map])
    spare
  rw [htakers, slots, ← List.map_prod_left_eq_zip, List.forall₂_map_left_iff] at hcalls
  rw [← forall₂_carries_iff hz hcalls]
  constructor
  · rintro ⟨r', hr', -, hcarries⟩
    obtain rfl := Option.some_inj.mp (hr'.symm.trans hr)
    exact hcarries
  · intro hcarries
    exact ⟨r, hr, hrest, hcarries⟩

/-- The arguments are decoded exactly when no conversion has the modifier `z` and
all `long` arguments fit into 32 bits. -/
theorem decodes_iff_fetched (pieces : List Piece) (tail : List Byte) (spare : List Word) :
    Decodes strings pieces tail spare ↔ ∀ n ∈ numbers pieces, n.Fetched := by
  by_cases hz : ∀ n ∈ numbers pieces, n.modifier ≠ .z
  · exact decodes_iff_of_no_z strings hz tail spare
  · refine iff_of_false ?_ fun h => hz fun n hn => (h n hn).1
    rintro ⟨r', hr', hrest', -⟩
    -- The arguments of the `z` conversions are left over.
    have hle : (takers pieces).length ≤ (slots pieces).length := by
      rw [slots, List.length_map]
      exact List.length_filter_le _ _
    obtain ⟨r, hr, hrest, -⟩ := record_takers strings pieces tail
      (show (text pieces).length < (text pieces ++ 0 :: tail).length by simp)
      (List.length_take_of_le hle) ((slots pieces).drop (takers pieces).length ++ spare)
    rw [← List.append_assoc, List.take_append_drop] at hr
    obtain rfl := Option.some_inj.mp (hr'.symm.trans hr)
    have hlen := congrArg List.length (hrest.symm.trans hrest')
    rw [List.length_append, List.length_drop, slots, List.length_map] at hlen
    apply hz
    have hall := List.length_filter_eq_length_iff.mp (show (takers pieces).length = _ by
      rw [slots, List.length_map] at hle
      omega)
    intro n hn
    simpa using hall n hn

end Runs

/-- `%lx` with the argument `2 ^ 32`, and `%zu` with a page size. -/
theorem not_decodes_wide_and_z :
    ¬ Decodes (fun _ => none)
        [.number ⟨{}, .l, .x, 0x100000000, fun h => nomatch h⟩] [] [] ∧
      ¬ Decodes (fun _ => none)
        [.number ⟨{}, .z, .u, 4096, fun h => nomatch h⟩] [] [] := by
  constructor
  · rw [decodes_iff_of_no_z]
    · intro h
      have hfits := (h _ (List.mem_singleton.mpr rfl)).2 rfl
      exact absurd hfits (by decide)
    · intro n hn
      obtain rfl := List.mem_singleton.mp hn
      decide
  · rintro ⟨r, hr, hrest, -⟩
    cases hr
    cases hrest

end ShlteOs.PrintkArguments
