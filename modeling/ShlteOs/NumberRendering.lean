import Mathlib.Data.Nat.Digits.Lemmas
import ShlteOs.PrintkArguments

/-!
The integer conversions of `vsprintf_impl` compared with those of `printf`.  The
loop that should copy the digits of a number moves the cursor and stores nothing,
so that no number is ever printed.
-/

namespace ShlteOs.NumberRendering

open ShlteOs.ByteMemory
open ShlteOs.BufferCursor
open ShlteOs.StringFormat (Strings ch digitChar)
open ShlteOs.PrintkFormat
open ShlteOs.PrintkBounds
open ShlteOs.FormatReads (directive_of_header expands_directive_iff expands_nul)
open ShlteOs.PrintkArguments

section Printf

inductive NumberFlag where
  | left
  | zero
  | plus
  deriving DecidableEq

def NumberFlag.flagChar : NumberFlag → FlagChar
  | .left => .left
  | .zero => .zero
  | .plus => .plus

def upperDigitChar (d : Nat) : Byte :=
  if d < 10 then BitVec.ofNat 8 (48 + d) else BitVec.ofNat 8 (65 + d - 10)

/-- A numeral, most significant digit first; zero has one digit. -/
def digitsText (char : Nat → Byte) (base n : Nat) : List Byte :=
  if n = 0 then [char 0] else (Nat.digits base n).reverse.map char

/-- The digits `printf` prints for an `int` or `unsigned int`. -/
def numberText (v : BitVec 32) : Spec → List Byte
  | .d => digitsText digitChar 10 v.toInt.natAbs
  | .i => digitsText digitChar 10 v.toInt.natAbs
  | .u => digitsText digitChar 10 v.toNat
  | .x => digitsText digitChar 16 v.toNat
  | .upperX => digitsText upperDigitChar 16 v.toNat

/-- The sign in front of a number: of the flags only `+` shows one. -/
def signText (fs : List NumberFlag) (v : BitVec 32) (spec : Spec) : List Byte :=
  if spec.signed then
    if v.toInt < 0 then [ch '-'] else if .plus ∈ fs then [ch '+'] else []
  else []

/-- The text of an integer conversion as the C standard has it. -/
def printfText (fs : List NumberFlag) (width : Nat) (spec : Spec) (v : BitVec 32) : List Byte :=
  let sign := signText fs v spec
  let digits := numberText v spec
  let pad := width - (sign.length + digits.length)
  if .left ∈ fs then sign ++ digits ++ List.replicate pad (ch ' ')
  else if .zero ∈ fs then sign ++ List.replicate pad (ch '0') ++ digits
  else List.replicate pad (ch ' ') ++ sign ++ digits

def numberOptions (fs : List NumberFlag) (w : Option (Fin 9 × List (Fin 10))) : Options :=
  { flags := fs.map NumberFlag.flagChar
    width := w }

def numberDirective (fs : List NumberFlag) (w : Option (Fin 9 × List (Fin 10))) (spec : Spec) :
    List Byte :=
  ch '%' :: ((numberOptions fs w).chars ++ [spec.char])

/-- The bytes of the text have been stored at the start of the buffer. -/
def Renders (result : Option Printed) (text : List Byte) : Prop :=
  ∃ out, result = some out ∧ ∀ k < text.length, content out.cursor.log k = text[k]?

end Printf

section Stores

theorem content_of_inside {α : Type} {size k : Nat} {log : Log α} (h : Inside size log)
    (hk : size ≤ k) : content log k = none := by
  induction log with
  | nil => rfl
  | cons w log ih =>
      obtain ⟨j, a⟩ := w
      obtain ⟨hj, hlog⟩ := inside_cons.mp h
      rw [content_cons_of_ne log (by omega)]
      exact ih hlog

theorem content_put_of_lt {lim : Int} {out : Printed} (e : Emit) {k : Nat}
    (hk : k < out.cursor.pos) :
    content (put lim out e).cursor.log k = content out.cursor.log k := by
  have hput : ∀ c, content (out.cursor.put c).log k = content out.cursor.log k :=
    fun c => content_cons_of_ne _ (Nat.ne_of_lt hk)
  cases e with
  | literal c =>
      simp only [put]
      split_ifs
      · exact hput c
      · rfl
  | counted c =>
      simp only [put]
      split_ifs
      · exact hput c
      · rfl
  | forced c => exact hput c
  | digit =>
      simp only [put]
      split_ifs
      · rfl
      · rfl

theorem content_foldl_put_of_lt {lim : Int} (es : List Emit) {out : Printed}
    (htrails : out.cursor.Trails) {k : Nat} (hk : k < out.cursor.pos) :
    content (es.foldl (put lim) out).cursor.log k = content out.cursor.log k := by
  induction es generalizing out with
  | nil => rfl
  | cons e es ih =>
      obtain ⟨htrails', hmono, -⟩ := put_spec lim e htrails
      exact (ih htrails' (Nat.lt_of_lt_of_le hk hmono)).trans (content_put_of_lt e hk)

theorem put_pos_le (lim : Int) (out : Printed) (e : Emit) :
    (put lim out e).cursor.pos ≤ out.cursor.pos + 1 := by
  cases e with
  | forced c => exact le_rfl
  | _ =>
      simp only [put]
      split_ifs
      · exact le_rfl
      · exact Nat.le_succ _

theorem foldl_put_pos_le (lim : Int) (es : List Emit) (out : Printed) :
    (es.foldl (put lim) out).cursor.pos ≤ out.cursor.pos + es.length := by
  induction es generalizing out with
  | nil => exact le_rfl
  | cons e es ih =>
      have hstep := put_pos_le lim out e
      have hrest := ih (put lim out e)
      rw [List.foldl_cons, List.length_cons]
      omega

theorem foldl_digit_log (lim : Int) (n : Nat) (out : Printed) :
    ((List.replicate n Emit.digit).foldl (put lim) out).cursor.log = out.cursor.log := by
  induction n generalizing out with
  | zero => rfl
  | succ n ih =>
      rw [List.replicate_succ, List.foldl_cons, ih, put]
      split_ifs
      · rfl
      · rfl

theorem content_digit {lim : Int} {before behind : List Emit} {n k : Nat}
    (hforced : ∀ e ∈ behind, isForced e = false) (hle : before.length ≤ k)
    (hlt : k < before.length + n ∨ behind = []) :
    content
        ((before ++ List.replicate n Emit.digit ++ behind).foldl (put lim) .start).cursor.log k =
      none := by
  have hstart : Printed.start.cursor.Trails := Cursor.trails_start
  have hzero : Printed.start.cursor.pos = 0 := rfl
  have hbefore :
      content ((before ++ List.replicate n Emit.digit).foldl (put lim) .start).cursor.log k =
        none := by
    have hpos := foldl_put_pos_le lim before .start
    rw [List.foldl_append, foldl_digit_log]
    exact content_of_inside (foldl_put_spec lim before hstart).1 (by omega)
  obtain ⟨htrails, -, hfits, hfull⟩ :=
    foldl_put_spec lim (before ++ List.replicate n Emit.digit) hstart
  rw [List.length_append, List.length_replicate, hzero] at hfits hfull
  rw [List.foldl_append]
  rcases hlt with hlt | rfl
  · rcases Int.lt_or_le lim (before.length + n) with hno | hroom
    · rw [foldl_put_no_room _ _ (hfull (by omega)) hforced, hbefore]
    · have hpos := hfits (by omega)
      rw [Nat.zero_add] at hpos
      exact (content_foldl_put_of_lt behind htrails (by omega)).trans hbefore
  · exact hbefore

theorem content_terminate (size : Nat) (out : Printed) (k : Nat) :
    content (terminate size out).cursor.log k = content out.cursor.log k ∨
      content (terminate size out).cursor.log k = some 0 := by
  have hcons : ∀ j, content ((j, 0) :: out.cursor.log) k = content out.cursor.log k ∨
      content ((j, 0) :: out.cursor.log) k = some (0 : Byte) := by
    intro j
    rcases eq_or_ne k j with rfl | hne
    · exact .inr (content_cons_self _ _ _)
    · exact .inl (content_cons_of_ne _ hne)
  rw [terminate]
  split_ifs
  · exact hcons _
  · exact hcons _
  · exact .inl rfl

end Stores

section Fields

theorem toNat_wrapInt_le {x : Int} (h : -2 ^ 31 ≤ x) : (wrapInt x).toNat ≤ x.toNat := by
  rw [wrapInt_eq]
  split_ifs
  · omega
  · omega

theorem length_reverseDigits_le (base fuel value : Nat) :
    (reverseDigits base fuel value).length ≤ fuel := by
  induction fuel generalizing value with
  | zero => exact le_rfl
  | succ fuel ih =>
      rw [reverseDigits]
      split_ifs
      · exact Nat.succ_le_succ (ih _)
      · exact Nat.zero_le _

theorem length_formatNumber (value : Word) (base : Nat) (isSigned : Bool) (sign : Option Byte)
    (flags : Flags) :
    0 < (formatNumber value base isSigned sign flags (-1)).length ∧
      (formatNumber value base isSigned sign flags (-1)).length ≤ 64 := by
  rw [formatNumber]
  split_ifs with hzero hsign hminus hhash
  · exact ⟨by decide, by decide⟩
  · exact ⟨by decide, by decide⟩
  · exact ⟨by decide, by decide⟩
  · exact ⟨by decide, by decide⟩
  · rw [List.length_reverse]
    refine ⟨?_, length_reverseDigits_le _ _ _⟩
    have hpos : 0 < value.toNat := by
      refine Nat.pos_of_ne_zero fun h => hzero ⟨BitVec.eq_of_toNat_eq h, by decide⟩
    rw [reverseDigits, if_pos hpos]
    exact Nat.succ_pos _

def flagsOf (fs : List NumberFlag) : Flags := (fs.map NumberFlag.flagChar).foldl addFlag {}

theorem flagsOf_left (fs : List NumberFlag) : (flagsOf fs).left = true ↔ .left ∈ fs := by
  rw [flagsOf, foldl_addFlag_left, List.mem_map]
  constructor
  · rintro (hdefault | ⟨f, hf, hchar⟩)
    · cases hdefault
    · cases f <;> cases hchar
      exact hf
  · exact fun h => .inr ⟨_, h, rfl⟩

theorem flagsOf_plus (fs : List NumberFlag) : (flagsOf fs).plus = true ↔ .plus ∈ fs := by
  rw [flagsOf, foldl_addFlag_plus, List.mem_map]
  constructor
  · rintro (hdefault | ⟨f, hf, hchar⟩)
    · cases hdefault
    · cases f <;> cases hchar
      exact hf
  · exact fun h => .inr ⟨_, h, rfl⟩

theorem flagsOf_space (fs : List NumberFlag) : ¬ (flagsOf fs).space = true := by
  rw [flagsOf, foldl_addFlag_space, List.mem_map]
  rintro (hdefault | ⟨f, -, hchar⟩)
  · cases hdefault
  · cases f <;> cases hchar

theorem numberCall_sign (fs : List NumberFlag) (spec : Spec) (slot : Word) :
    ∃ call, numberCall (flagsOf fs) .none spec.char slot = some call ∧
      call.sign.toList = signText fs (slot.setWidth 32) spec := by
  have hsigned : ∀ value : Word, value.toInt = (slot.setWidth 32).toInt →
      (signOf (flagsOf fs) value).toList =
        if (slot.setWidth 32).toInt < 0 then [ch '-'] else if .plus ∈ fs then [ch '+'] else [] := by
    intro value hvalue
    simp only [signOf, hvalue, flagsOf_plus]
    split_ifs with hneg hplus hspace
    · rfl
    · rfl
    · exact absurd hspace (flagsOf_space fs)
    · rfl
  have hvalue : (signedArg .none slot).toInt = (slot.setWidth 32).toInt :=
    BitVec.toInt_signExtend_of_le (by decide)
  cases spec with
  | d => exact ⟨_, rfl, hsigned _ hvalue⟩
  | i => exact ⟨_, rfl, hsigned _ hvalue⟩
  | u => exact ⟨_, rfl, rfl⟩
  | x => exact ⟨_, rfl, rfl⟩
  | upperX => exact ⟨_, rfl, rfl⟩

theorem toNat_pad_le {n : Nat} (hn : n ≤ 64) (width : Nat) (sign : Option Byte) :
    (if sign = none then wrapInt (wrapInt width - n)
      else wrapInt (wrapInt (wrapInt width - n) - 1)).toNat ≤
      width - (n + sign.toList.length) := by
  have hpad : wrapInt (wrapInt width - n) = wrapInt (width - n) := Int.bmod_sub_bmod
  have hsigned : wrapInt (wrapInt (width - n) - 1) = wrapInt (width - n - 1) := Int.bmod_sub_bmod
  cases sign with
  | none =>
      have hle := toNat_wrapInt_le (show -2 ^ 31 ≤ (width - n : Int) by omega)
      rw [if_pos rfl, hpad]
      simp only [Option.toList_none, List.length_nil]
      omega
  | some c =>
      have hle := toNat_wrapInt_le (show -2 ^ 31 ≤ (width - n - 1 : Int) by omega)
      rw [if_neg (by simp), hpad, hsigned]
      simp only [Option.toList_some, List.length_singleton]
      omega

theorem numberField_parts (fs : List NumberFlag) (width : Nat) (sign : Option Byte)
    {num : List Byte} (hnum : num.length ≤ 64) :
    ∃ before behind, numberField (flagsOf fs) (wrapInt width) sign num =
        before ++ List.replicate num.length Emit.digit ++ behind ∧
      (∀ e ∈ behind, isForced e = false) ∧
      (if .left ∈ fs then before.length = sign.toList.length
        else behind = [] ∧
          before.length ≤ width - (num.length + sign.toList.length) + sign.toList.length) := by
  have hpad := toNat_pad_le hnum width sign
  simp only [numberField]
  generalize (if sign = none then wrapInt (wrapInt width - num.length)
    else wrapInt (wrapInt (wrapInt width - num.length) - 1)) = pad at *
  by_cases hmem : .left ∈ fs
  · have hleft := (flagsOf_left fs).mpr hmem
    rw [if_pos hleft, if_pos hleft, List.nil_append]
    refine ⟨_, _, rfl, fun e he => ?_, ?_⟩
    · obtain rfl := List.eq_of_mem_replicate he
      rfl
    · rw [if_pos hmem]
      exact List.length_map _
  · have hleft : ¬ (flagsOf fs).left = true := fun h => hmem ((flagsOf_left fs).mp h)
    rw [if_neg hleft, if_neg hleft]
    refine ⟨_, _, rfl, (fun e he => nomatch he), ?_⟩
    rw [if_neg hmem, List.length_append, List.length_map, padding, List.length_replicate]
    exact ⟨rfl, Nat.add_le_add_right hpad _⟩

end Fields

section Text

theorem digitsText_ne_zero {char : Nat → Byte} {base : Nat} (hbase : 1 < base)
    (hchar : ∀ d < base, char d ≠ 0) (n : Nat) : ∀ c ∈ digitsText char base n, c ≠ 0 := by
  intro c hc
  rw [digitsText] at hc
  split_ifs at hc with hzero
  · rw [List.mem_singleton.mp hc]
    exact hchar 0 (by omega)
  · obtain ⟨d, hd, rfl⟩ := List.mem_map.mp hc
    exact hchar d (Nat.digits_lt_base hbase (List.mem_reverse.mp hd))

theorem digitsText_ne_nil (char : Nat → Byte) (base n : Nat) : digitsText char base n ≠ [] := by
  rw [digitsText]
  split_ifs with hzero
  · exact List.cons_ne_nil _ _
  · intro hnil
    rw [List.map_eq_nil_iff, List.reverse_eq_nil_iff, Nat.digits_eq_nil_iff_eq_zero] at hnil
    exact hzero hnil

theorem digitChar_ne_zero {d : Nat} (h : d < 16) : digitChar d ≠ 0 := by
  interval_cases d <;> decide

theorem upperDigitChar_ne_zero {d : Nat} (h : d < 16) : upperDigitChar d ≠ 0 := by
  interval_cases d <;> decide

theorem numberText_ne_zero (v : BitVec 32) (spec : Spec) : ∀ c ∈ numberText v spec, c ≠ 0 := by
  have hdecimal := @digitsText_ne_zero digitChar 10 (by decide) fun d hd =>
    digitChar_ne_zero (by omega)
  have hhex := @digitsText_ne_zero digitChar 16 (by decide) fun d hd => digitChar_ne_zero hd
  have hupper := @digitsText_ne_zero upperDigitChar 16 (by decide) fun d hd =>
    upperDigitChar_ne_zero hd
  cases spec with
  | d => exact hdecimal _
  | i => exact hdecimal _
  | u => exact hdecimal _
  | x => exact hhex _
  | upperX => exact hupper _

theorem numberText_ne_nil (v : BitVec 32) (spec : Spec) : numberText v spec ≠ [] := by
  cases spec with
  | d => exact digitsText_ne_nil _ _ _
  | i => exact digitsText_ne_nil _ _ _
  | u => exact digitsText_ne_nil _ _ _
  | x => exact digitsText_ne_nil _ _ _
  | upperX => exact digitsText_ne_nil _ _ _

theorem printfText_digit (fs : List NumberFlag) (width : Nat) (spec : Spec) (v : BitVec 32) :
    ∃ k c, k < (printfText fs width spec v).length ∧ (printfText fs width spec v)[k]? = some c ∧
      c ≠ 0 ∧
      if .left ∈ fs then k = (signText fs v spec).length
        else width ≤ k + 1 ∧ (signText fs v spec).length ≤ k := by
  have hne := numberText_ne_nil v spec
  have hnonzero := numberText_ne_zero v spec
  rw [printfText]
  generalize numberText v spec = digits at *
  generalize signText fs v spec = sign at *
  by_cases hleft : .left ∈ fs
  · obtain ⟨first, rest, rfl⟩ := List.exists_cons_of_ne_nil hne
    refine ⟨sign.length, first, ?_, ?_, hnonzero first List.mem_cons_self, ?_⟩
    · rw [if_pos hleft]
      simp only [List.length_append, List.length_cons]
      omega
    · rw [if_pos hleft, List.append_assoc, List.cons_append]
      exact List.getElem?_append_right le_rfl |>.trans (by rw [Nat.sub_self]; rfl)
    · rw [if_pos hleft]
  · obtain ⟨init, last, rfl⟩ : ∃ init last, digits = init ++ [last] :=
      ⟨_, _, (List.dropLast_append_getLast hne).symm⟩
    -- The padding in front of the digits and the sign, in either order.
    obtain ⟨front, htext, hlength⟩ : ∃ front,
        (if .left ∈ fs then sign ++ (init ++ [last]) ++ List.replicate
            (width - (sign.length + (init ++ [last]).length)) (ch ' ')
          else if .zero ∈ fs then sign ++ List.replicate
            (width - (sign.length + (init ++ [last]).length)) (ch '0') ++ (init ++ [last])
          else List.replicate (width - (sign.length + (init ++ [last]).length)) (ch ' ') ++ sign ++
            (init ++ [last])) = front ++ [last] ∧
        front.length = width - (sign.length + (init.length + 1)) + sign.length + init.length := by
      rw [if_neg hleft]
      split_ifs
      · refine ⟨_, (List.append_assoc _ init [last]).symm, ?_⟩
        simp only [List.length_append, List.length_replicate, List.length_singleton]
        omega
      · refine ⟨_, (List.append_assoc _ init [last]).symm, ?_⟩
        simp only [List.length_append, List.length_replicate, List.length_singleton]
    refine ⟨front.length, last, ?_, ?_, hnonzero last (by simp), ?_⟩
    · rw [htext, List.length_append]
      exact Nat.lt_succ_self _
    · rw [htext]
      exact List.getElem?_concat_length
    · rw [if_neg hleft]
      omega

end Text

theorem expands_number (strings : Strings) (fs : List NumberFlag)
    (w : Option (Fin 9 × List (Fin 10))) (spec : Spec) (slot : Word) (tail : List Byte)
    (ap : List Word) :
    ∃ sign num, Expands strings (numberDirective fs w spec ++ 0 :: tail) (slot :: ap)
        (numberField (flagsOf fs) (wrapInt (widthValue w)) sign num) ∧
      sign.toList = signText fs (slot.setWidth 32) spec ∧ 0 < num.length ∧ num.length ≤ 64 := by
  obtain ⟨call, hcall, hsign⟩ := numberCall_sign fs spec slot
  obtain ⟨hpos, hle⟩ :=
    length_formatNumber call.value call.base call.isSigned call.sign (flagsOf fs)
  obtain ⟨c, s, hs, hc, hlenMod⟩ := parseLenMod_chars .none spec (0 :: tail)
  have hheader : FormatReads.parseHeader ((numberOptions fs w).chars ++ spec.char :: 0 :: tail) =
      some ((flagsOf fs, wrapInt (widthValue w), -1, .none), spec.char :: 0 :: tail) := by
    have hoptions := parseHeader_options (numberOptions fs w) hc hlenMod
    rw [← hs] at hoptions
    exact hoptions
  refine ⟨call.sign, _, ?_, hsign, hpos, hle⟩
  rw [numberDirective, List.cons_append, List.append_assoc]
  refine (expands_directive_iff strings _ _ _).mpr
    ⟨_, 0 :: tail, ap, [], ?_, expands_nul strings tail ap, List.append_nil _⟩
  rw [List.singleton_append, directive_of_header strings hheader,
    conversion_of_numberCall strings _ _ ap hcall, Option.map_some]

/-- No number is rendered, whatever the value, the flags, the width and the size of
the buffer. -/
theorem not_renders (strings : Strings) (size : Nat) (fs : List NumberFlag)
    (w : Option (Fin 9 × List (Fin 10))) (spec : Spec) (slot : Word) (tail : List Byte)
    (ap : List Word) :
    ¬ Renders (vsprintfImpl strings size (numberDirective fs w spec ++ 0 :: tail) (slot :: ap))
      (printfText fs (widthValue w) spec (slot.setWidth 32)) := by
  obtain ⟨sign, num, hexpands, hsign, hpos, hle⟩ :=
    expands_number strings fs w spec slot tail ap
  obtain ⟨before, behind, hfield, hforced, hparts⟩ :=
    numberField_parts fs (widthValue w) sign hle
  obtain ⟨k, c, hk, htext, hc, hplace⟩ :=
    printfText_digit fs (widthValue w) spec (slot.setWidth 32)
  rw [← hsign] at hplace
  have hempty : content ((before ++ List.replicate num.length Emit.digit ++ behind).foldl
      (put (roomFor size)) .start).cursor.log k = none := by
    split_ifs at hparts hplace
    · exact content_digit hforced (by omega) (.inl (by omega))
    · exact content_digit hforced (by omega) (.inr hparts.1)
  rintro ⟨out, hout, hstored⟩
  rw [vsprintfImpl_eq hexpands, hfield, Option.some_inj] at hout
  have hdigit := hstored k hk
  rw [htext, ← hout] at hdigit
  rcases content_terminate size ((before ++ List.replicate num.length Emit.digit ++ behind).foldl
      (put (roomFor size)) .start) k with hsame | hnul
  · rw [hsame, hempty] at hdigit
    cases hdigit
  · rw [hnul, Option.some_inj] at hdigit
    exact hc hdigit.symm

/-- `printk("%d", 7)` prints nothing but a terminator one byte behind the start of
its buffer. -/
theorem not_renders_seven :
    printfText [] 0 .d 7 = [ch '7'] ∧
      (vsprintfImpl (fun _ => none) 512 [ch '%', ch 'd', 0] [7]).map (·.cursor.log) =
        some [(1, 0)] ∧
      ¬ Renders (vsprintfImpl (fun _ => none) 512 [ch '%', ch 'd', 0] [7])
        (printfText [] 0 .d 7) := by
  have htext : printfText [] 0 .d 7 = [ch '7'] := by decide
  have hlog : (vsprintfImpl (fun _ => none) 512 [ch '%', ch 'd', 0] [7]).map (·.cursor.log) =
      some [(1, 0)] := by decide
  refine ⟨htext, hlog, ?_⟩
  rintro ⟨out, hout, hstored⟩
  rw [hout, Option.map_some, Option.some_inj] at hlog
  have hdigit := hstored 0 (by rw [htext]; decide)
  rw [hlog, htext] at hdigit
  exact absurd hdigit (by decide)

end ShlteOs.NumberRendering
