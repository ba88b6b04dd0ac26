import ShlteOs.FormatAgreement
import ShlteOs.PrintkArguments

/-!
The `%s` conversion of `vsprintf_impl`.  Flags, width and precision shape the field
as they do for `printf`, as long as the length of the string and the room in the
buffer survive their conversion to `int`.
-/

namespace ShlteOs.StringFields

open ShlteOs.ByteMemory
open ShlteOs.BufferCursor
open ShlteOs.StringFormat (Strings ch stringArg vaArg percent_ne_zero)
open ShlteOs.PrintkFormat
open ShlteOs.PrintkBounds (wrapInt_eq)
open ShlteOs.FormatReads (parseHeader directive_of_header)
open ShlteOs.PrintkArguments
open ShlteOs.FormatAgreement (foldl_put_shows forall₂_counted)

deriving instance DecidableEq for FlagChar

section Specification

/-- The field of a text, with blanks on one side. -/
def adjust (left : Bool) (pad : Nat) (shown : List Byte) : List Byte :=
  if left then shown ++ List.replicate pad (ch ' ') else List.replicate pad (ch ' ') ++ shown

/-- The characters of a string that a precision leaves. -/
def shown (precision : Option (List (Fin 10))) (s : List Byte) : List Byte :=
  precision.elim s fun p => s.take (decimal 0 p)

/-- The field a directive asks for. -/
def fieldText (o : Options) (s : List Byte) : List Byte :=
  adjust (decide (.left ∈ o.flags)) (widthValue o.width - (shown o.precision s).length)
    (shown o.precision s)

/-- Width and precision are numbers of type `int`. -/
structure InRange (o : Options) : Prop where
  width : widthValue o.width < 2 ^ 31
  precision : ∀ p, o.precision = some p → decimal 0 p < 2 ^ 31

/-- The loop stores the field, counts it, and goes on behind the directive. -/
def Appends (strings : Strings) (size : Nat) (o : Options) (v : Word) (s : List Byte)
    (out : Printed) : Prop :=
  ∀ fuel rest ap,
    formatLoop strings (roomFor size) (fuel + 1) (ch '%' :: (o.chars ++ ch 's' :: rest)) (v :: ap)
        out =
      formatLoop strings (roomFor size) fuel rest ap
        ⟨out.cursor.putAll (fieldText o s), out.written + (fieldText o s).length⟩

/-- The conversions to `int` do no harm: `(int)slen > precision` tells whether the
string is longer than the precision, and `(int)size - 1` has room for the field. -/
structure IntsSuffice (size : Nat) (o : Options) (s : List Byte) (pos : Nat) : Prop where
  precision : ∀ p, o.precision = some p →
    s.length ≤ decimal 0 p ∨ (decimal 0 p : Int) < wrapInt s.length
  room : fieldText o s = [] ∨ (pos + (fieldText o s).length : Int) ≤ roomFor size

end Specification

section Code

theorem length_adjust (left : Bool) (pad : Nat) (shown : List Byte) :
    (adjust left pad shown).length = pad + shown.length := by
  rw [adjust]
  split_ifs
  · rw [List.length_append, List.length_replicate, Nat.add_comm]
  · rw [List.length_append, List.length_replicate]

def shownLength (precision : Int) (s : List Byte) : Nat :=
  if 0 ≤ precision ∧ precision < wrapInt s.length then precision.toNat else s.length

/-- The field as the code computes it, with its conversions to `int`. -/
def codeField (o : Options) (s : List Byte) : List Byte :=
  adjust (decide (.left ∈ o.flags))
    (wrapInt (wrapInt (widthValue o.width) -
      wrapInt (shownLength (precisionValue o.precision) s))).toNat
    (s.take (shownLength (precisionValue o.precision) s))

theorem stringField_eq (o : Options) (s : List Byte) :
    stringField (o.flags.foldl addFlag {}) (wrapInt (widthValue o.width))
      (precisionValue o.precision) s = (codeField o s).map .counted := by
  have hleft := foldl_addFlag_left o.flags {}
  simp only [stringField, codeField, adjust, padding, shownLength, decide_eq_true_eq]
  by_cases hmem : .left ∈ o.flags
  · have hflag := hleft.mpr (.inr hmem)
    rw [if_pos hflag, if_pos hflag, if_pos hmem, List.nil_append, List.map_append,
      List.map_replicate]
  · have hflag : ¬ (o.flags.foldl addFlag {}).left = true := by
      rw [hleft]
      rintro (hdefault | hmem')
      · cases hdefault
      · exact hmem hmem'
    rw [if_neg hflag, if_neg hflag, if_neg hmem, List.append_nil, List.map_append,
      List.map_replicate]

theorem conversion_string {strings : Strings} {v : Word} {s : List Byte}
    (hs : stringArg strings v = some s) (flags : Flags) (width precision : Int) (lenMod : LenMod)
    (ap : List Word) :
    conversion strings flags width precision lenMod (ch 's') (v :: ap) =
      some (stringField flags width precision s, ap) := by
  rw [conversion, if_neg (by decide), if_neg (by decide), if_neg (by decide), if_neg (by decide),
    if_pos rfl]
  simp only [vaArg, hs, Option.bind_eq_bind, Option.bind_some]

theorem directive_string (strings : Strings) (o : Options) {v : Word} {s : List Byte}
    (hs : stringArg strings v = some s) (rest : List Byte) (ap : List Word) :
    directive strings (o.chars ++ ch 's' :: rest) (v :: ap) =
      some ((codeField o s).map .counted, rest, ap) := by
  have hheader := parseHeader_options o (show Plain (ch 's') by decide)
    (show parseLenMod (ch 's' :: rest) = some (.none, ch 's' :: rest) from rfl)
  rw [directive_of_header strings hheader, conversion_string hs, ← stringField_eq, Option.map_some]

theorem foldl_counted_written (lim : Int) (t : List Byte) (out : Printed) :
    ((t.map Emit.counted).foldl (put lim) out).written = out.written + t.length := by
  induction t generalizing out with
  | nil => exact (Int.add_zero _).symm
  | cons c t ih =>
      have hstep : (put lim out (.counted c)).written = out.written + 1 := by
        rw [put]
        split_ifs
        · rfl
        · rfl
      rw [List.map_cons, List.foldl_cons, ih, hstep, List.length_cons]
      omega

theorem foldl_counted_pos (lim : Int) (t : List Byte) (out : Printed)
    (hpos : (out.cursor.pos : Int) ≤ lim) :
    (((t.map Emit.counted).foldl (put lim) out).cursor.pos : Int) ≤ lim := by
  induction t generalizing out with
  | nil => exact hpos
  | cons c t ih =>
      rw [List.map_cons, List.foldl_cons]
      apply ih
      rw [put]
      split_ifs with hroom
      · rw [Cursor.put_pos]
        omega
      · exact hpos

theorem room_of_pos {lim : Int} {t : List Byte} {out : Printed}
    (h : ((t.map Emit.counted).foldl (put lim) out).cursor.pos = out.cursor.pos + t.length) :
    t = [] ∨ (out.cursor.pos + t.length : Int) ≤ lim := by
  rcases Int.lt_or_le lim out.cursor.pos with hno | hroom
  · have hsame := PrintkBounds.foldl_put_no_room (t.map Emit.counted) out hno.le (by
      intro e he
      obtain ⟨c, -, rfl⟩ := List.mem_map.mp he
      rfl)
    rw [hsame] at h
    exact .inl (List.eq_nil_of_length_eq_zero (by omega))
  · have hle := foldl_counted_pos lim t out hroom
    rw [h] at hle
    exact .inr (by omega)

theorem formatLoop_string (strings : Strings) (lim : Int) (o : Options) {v : Word} {s : List Byte}
    (hs : stringArg strings v = some s) (out : Printed) (fuel : Nat) (rest : List Byte)
    (ap : List Word) :
    formatLoop strings lim (fuel + 1) (ch '%' :: (o.chars ++ ch 's' :: rest)) (v :: ap) out =
      formatLoop strings lim fuel rest ap
        (((codeField o s).map Emit.counted).foldl (put lim) out) := by
  rw [formatLoop, if_neg percent_ne_zero, if_neg (not_not.mpr rfl), directive_string strings o hs]
  rfl

/-- The loop appends the field exactly when the code's field is stored and counted
as the right one is. -/
theorem appends_iff_fold (strings : Strings) (size : Nat) (o : Options) {v : Word} {s : List Byte}
    (hs : stringArg strings v = some s) (out : Printed) :
    Appends strings size o v s out ↔
      ((codeField o s).map Emit.counted).foldl (put (roomFor size)) out =
        ⟨out.cursor.putAll (fieldText o s), out.written + (fieldText o s).length⟩ := by
  constructor
  · intro h
    have hend := h 1 [0] []
    rw [formatLoop_string strings _ o hs, formatLoop, if_pos rfl, formatLoop, if_pos rfl] at hend
    exact Option.some_inj.mp hend
  · intro h fuel rest ap
    rw [formatLoop_string strings _ o hs, h]

end Code

section Ints

theorem wrapInt_of_lt {n : Nat} (h : n < 2 ^ 31) : wrapInt n = n := by
  rw [wrapInt_eq]
  split_ifs
  · omega
  · omega

theorem wrapInt_le (n : Nat) : wrapInt n ≤ n := by
  rw [wrapInt_eq]
  split_ifs
  · omega
  · omega

theorem roomFor_lt_int (size : Nat) : roomFor size < 2 ^ 31 := by
  rw [roomFor, wrapInt_eq]
  split_ifs
  · omega
  · omega

variable {o : Options} {s : List Byte}

theorem precision_of_length (hrange : InRange o)
    (hlength : (codeField o s).length = (fieldText o s).length) :
    ∀ p, o.precision = some p →
      s.length ≤ decimal 0 p ∨ (decimal 0 p : Int) < wrapInt s.length := by
  intro p hp
  by_contra hnot
  obtain ⟨hlong, hmissed⟩ := not_or.mp hnot
  have hprecision := hrange.precision p hp
  have hwidth := hrange.width
  have hvalue : precisionValue o.precision = decimal 0 p := by
    rw [hp, precisionValue, Option.elim_some, wrapInt_of_lt hprecision]
  have hall : shownLength (precisionValue o.precision) s = s.length := by
    rw [shownLength, hvalue, if_neg fun h => hmissed h.2]
  have hbig : 2 ^ 31 ≤ s.length := by
    by_contra hsmall
    rw [wrapInt_of_lt (Nat.lt_of_not_le hsmall)] at hmissed
    omega
  rw [codeField, fieldText, length_adjust, length_adjust, hall, List.take_length, shown, hp,
    Option.elim_some, List.length_take] at hlength
  omega

theorem shownLength_eq (hrange : InRange o)
    (hprecision : ∀ p, o.precision = some p →
      s.length ≤ decimal 0 p ∨ (decimal 0 p : Int) < wrapInt s.length) :
    s.take (shownLength (precisionValue o.precision) s) = shown o.precision s ∧
      shownLength (precisionValue o.precision) s = (shown o.precision s).length := by
  have hle := wrapInt_le s.length
  cases hp : o.precision with
  | none =>
      have hall : shownLength (precisionValue none) s = s.length :=
        if_neg fun h => absurd h.1 (by decide)
      rw [hall]
      exact ⟨List.take_length, rfl⟩
  | some p =>
      have hvalue : precisionValue (some p) = decimal 0 p := by
        rw [precisionValue, Option.elim_some, wrapInt_of_lt (hrange.precision p hp)]
      rw [hvalue, shownLength, shown, Option.elim_some, List.length_take]
      rcases hprecision p hp with hshort | hcut
      · have hlen := wrapInt_of_lt (lt_of_le_of_lt hshort (hrange.precision p hp))
        rw [if_neg (by omega), List.take_length, List.take_of_length_le hshort]
        exact ⟨rfl, (Nat.min_eq_right hshort).symm⟩
      · rw [if_pos ⟨Int.natCast_nonneg _, hcut⟩, Int.toNat_natCast]
        exact ⟨rfl, (Nat.min_eq_left (by omega)).symm⟩

theorem codeField_eq (hrange : InRange o)
    (hprecision : ∀ p, o.precision = some p →
      s.length ≤ decimal 0 p ∨ (decimal 0 p : Int) < wrapInt s.length)
    (hshort : (shown o.precision s).length < 2 ^ 31) : codeField o s = fieldText o s := by
  obtain ⟨htake, hlength⟩ := shownLength_eq hrange hprecision
  have hwidth := hrange.width
  have hpad : (wrapInt (wrapInt (widthValue o.width) -
      wrapInt (shownLength (precisionValue o.precision) s))).toNat =
        widthValue o.width - (shown o.precision s).length := by
    rw [hlength, wrapInt_of_lt hwidth, wrapInt_of_lt hshort, wrapInt_eq]
    split_ifs
    · omega
    · omega
  rw [codeField, fieldText, hpad, htake]

theorem intsSuffice_of_appends {strings : Strings} {size : Nat} {v : Word} {out : Printed}
    (hrange : InRange o) (hs : stringArg strings v = some s)
    (h : Appends strings size o v s out) : IntsSuffice size o s out.cursor.pos := by
  have hfold := (appends_iff_fold strings size o hs out).mp h
  have hwritten := congrArg Printed.written hfold
  have hpos := congrArg (fun r => r.cursor.pos) hfold
  rw [foldl_counted_written] at hwritten
  have hlength : (codeField o s).length = (fieldText o s).length := by
    have hwritten' : out.written + (codeField o s).length =
      out.written + (fieldText o s).length := hwritten
    omega
  simp only [Cursor.putAll_pos, ← hlength] at hpos
  refine ⟨precision_of_length hrange hlength, ?_⟩
  rw [← hlength]
  rcases room_of_pos hpos with hnil | hroom
  · rw [hnil] at hlength
    exact .inl (List.eq_nil_of_length_eq_zero hlength.symm)
  · exact .inr hroom

end Ints

/-- The `%s` conversion appends its field exactly when the conversions to `int` do
no harm. -/
theorem appends_iff (strings : Strings) (size : Nat) (o : Options) (v : Word) (s : List Byte)
    (out : Printed) (hrange : InRange o) (hs : stringArg strings v = some s) :
    Appends strings size o v s out ↔ IntsSuffice size o s out.cursor.pos := by
  constructor
  · exact intsSuffice_of_appends hrange hs
  · intro h
    have hlim := roomFor_lt_int size
    have hlength := length_adjust (decide (.left ∈ o.flags))
      (widthValue o.width - (shown o.precision s).length) (shown o.precision s)
    have hshort : (shown o.precision s).length < 2 ^ 31 := by
      rcases h.room with hnil | hroom
      · have hzero : (fieldText o s).length = 0 := by rw [hnil]; rfl
        rw [fieldText] at hzero
        omega
      · rw [fieldText] at hroom
        omega
    rw [appends_iff_fold strings size o hs, codeField_eq hrange h.precision hshort]
    rcases h.room with hnil | hroom
    · rw [hnil]
      simp [Cursor.putAll]
    · exact foldl_put_shows (forall₂_counted _) hroom

/-- The options of `%-5.2s`. -/
def leftFive : Options where
  flags := [.left]
  width := some (⟨4, by decide⟩, [])
  precision := some [⟨2, by decide⟩]

theorem appends_leftFive :
    Appends (fun _ => some [ch 'a', ch 'b', ch 'c']) 512 leftFive 1 [ch 'a', ch 'b', ch 'c']
      .start := by
  refine (appends_iff _ 512 leftFive 1 _ .start ⟨by decide, ?_⟩ rfl).mpr ⟨?_, .inr (by decide)⟩
  · intro p hp
    cases hp
    decide
  · intro p hp
    cases hp
    exact .inr (by decide)

/-- The options of `%.1s`. -/
def firstOnly : Options where
  precision := some [⟨1, by decide⟩]

def repeated (n : Nat) : List Byte := List.replicate n (ch 'a')

/-- Of a string of `2 ^ 31` bytes `%.1s` prints everything: its length is a negative
`int`, which is not above the precision. -/
theorem not_appends_long :
    InRange firstOnly ∧ (fieldText firstOnly (repeated (2 ^ 31))).length = 1 ∧
      ¬ Appends (fun _ => some (repeated (2 ^ 31))) 512 firstOnly 1 (repeated (2 ^ 31)) .start := by
  have hrange : InRange firstOnly := by
    refine ⟨by decide, ?_⟩
    intro p hp
    cases hp
    decide
  have hs : (repeated (2 ^ 31)).length = 2 ^ 31 := List.length_replicate
  generalize repeated (2 ^ 31) = s at *
  refine ⟨hrange, ?_, ?_⟩
  · have hshown : (shown firstOnly.precision s).length = 1 := by
      rw [show shown firstOnly.precision s = s.take 1 from rfl, List.length_take, hs]
      decide
    rw [fieldText, length_adjust, hshown]
    rfl
  · intro h
    have hwrap : wrapInt s.length = -2 ^ 31 := by
      rw [hs]
      decide
    rcases (intsSuffice_of_appends hrange rfl h).precision _ rfl with hshort | hcut
    · rw [hs] at hshort
      exact absurd hshort (by decide)
    · rw [hwrap] at hcut
      exact absurd hcut (by decide)

end ShlteOs.StringFields
