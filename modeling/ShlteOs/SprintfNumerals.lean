import ShlteOs.FormatAgreement
import ShlteOs.VsprintfSteps

/-!
The numerals of `vsprintf`.  The unsigned conversions `%u`, `%x` and `%X` write
positional numerals for every 64-bit value.
-/

namespace ShlteOs.SprintfNumerals

open ShlteOs.ByteMemory
open ShlteOs.BufferCursor
open ShlteOs.StringFormat
open ShlteOs.DigitBuffers
open ShlteOs.VsprintfSteps
open ShlteOs.NumberRendering (digitsText digitsText_ne_nil)
open ShlteOs.FormatAgreement (emit_text)

/-- The unsigned conversions. -/
inductive Unsigned where
  | u
  | x
  | upperX
  deriving DecidableEq, Repr

namespace Unsigned

def char : Unsigned → Byte
  | .u => ch 'u'
  | .x => ch 'x'
  | .upperX => ch 'X'

def base : Unsigned → Nat
  | .u => 10
  | .x => 16
  | .upperX => 16

/-- The digit buffer after the loop, and the value the loop ends with. -/
def loop : Unsigned → Word → DigitBuffer × Word
  | .u => decimalBuffer
  | .x => hexBuffer
  | .upperX => hexBuffer

end Unsigned

/-- The value of a digit, in lower case. -/
def digitValue (c : Byte) : Nat := if c.toNat < 58 then c.toNat - 48 else c.toNat - 87

/-- The number a text of digits stands for. -/
def numeralValue (base : Nat) (text : List Byte) : Nat :=
  text.foldl (fun n c => n * base + digitValue c) 0

/-- The text is a numeral for `n`: digits of the base that evaluate to `n`, the
first of them not zero unless `n` is. -/
structure Numeral (base n : Nat) (text : List Byte) : Prop where
  digits : ∀ c ∈ text, ∃ d < base, c = digitChar d
  value : numeralValue base text = n
  leading : text.head? = some (ch '0') → n = 0 ∧ text = [ch '0']

/-- The text goes to the positions from the cursor on, and what stands before
them stays. -/
structure Appended (text : List Byte) (out out' : Cursor Byte) : Prop where
  pos : out'.pos = out.pos + text.length
  kept : ∀ k < out.pos, content out'.log k = content out.log k
  text : ∀ k < text.length, content out'.log (out.pos + k) = text[k]?

section Digits

variable {base : Nat}

theorem digitValue_digitChar {d : Nat} (hd : d < 16) : digitValue (digitChar d) = d := by
  interval_cases d <;> rfl

theorem digitChar_eq_zero {d : Nat} (hd : d < 16) (h : digitChar d = ch '0') : d = 0 := by
  have hvalue := digitValue_digitChar hd
  rw [h] at hvalue
  exact hvalue.symm

theorem numeralValue_append (text : List Byte) (c : Byte) :
    numeralValue base (text ++ [c]) = numeralValue base text * base + digitValue c := by
  rw [numeralValue, List.foldl_append]
  rfl

theorem numeral_singleton {d : Nat} (hd : d < base) (hmax : base ≤ 16) :
    Numeral base d [digitChar d] := by
  have hvalue := digitValue_digitChar (lt_of_lt_of_le hd hmax)
  refine ⟨?_, ?_, ?_⟩
  · intro c hc
    exact ⟨d, hd, List.mem_singleton.mp hc⟩
  · rw [← List.nil_append [_], numeralValue_append, hvalue]
    exact (congrArg (· + d) (Nat.zero_mul base)).trans (Nat.zero_add d)
  · intro hhead
    have hchar : digitChar d = ch '0' := Option.some.inj hhead
    exact ⟨digitChar_eq_zero (lt_of_lt_of_le hd hmax) hchar, congrArg (fun c => [c]) hchar⟩

theorem Numeral.append {n d : Nat} {text : List Byte} (h : Numeral base n text)
    (htext : text ≠ []) (hn : n ≠ 0) (hd : d < base) (hmax : base ≤ 16) :
    Numeral base (n * base + d) (text ++ [digitChar d]) := by
  refine ⟨?_, ?_, ?_⟩
  · intro c hc
    rcases List.mem_append.mp hc with hc | hc
    · exact h.digits c hc
    · exact ⟨d, hd, List.mem_singleton.mp hc⟩
  · rw [numeralValue_append, h.value, digitValue_digitChar (lt_of_lt_of_le hd hmax)]
  · intro hhead
    rw [List.head?_append_of_ne_nil _ htext] at hhead
    exact absurd (h.leading hhead).1 hn

theorem numeral_digitsText (hbase : 1 < base) (hmax : base ≤ 16) (n : Nat) :
    Numeral base n (digitsText digitChar base n) := by
  induction n using Nat.strong_induction_on with
  | _ n ih =>
      have hlast : n % base < base := Nat.mod_lt n (by omega)
      rw [digitsText_step digitChar hbase]
      split
      · rename_i hsmall
        have hself : n % base = n := by
          rw [Nat.div_eq_zero_iff] at hsmall
          exact Nat.mod_eq_of_lt (by omega)
        have hnumeral := numeral_singleton hlast hmax
        rw [hself] at hnumeral ⊢
        exact hnumeral
      · rename_i hlarge
        have hpos : 0 < n := Nat.pos_of_ne_zero fun h => hlarge (by rw [h, Nat.zero_div])
        have hnumeral := (ih (n / base) (Nat.div_lt_self hpos hbase)).append
          (digitsText_ne_nil _ _ _) hlarge hlast hmax
        rw [Nat.div_add_mod'] at hnumeral
        exact hnumeral

end Digits

section Unsigned

theorem Unsigned.convert_eq (strings : Strings) (spec : Unsigned) (v : Word) (ap : List Word) :
    convert strings spec.char (v :: ap) = some (.text (ulongText spec.base v), ap) := by
  cases spec with
  | u => rfl
  | x => rfl
  | upperX => rfl

theorem Unsigned.ulongText_eq (spec : Unsigned) (v : Word) :
    ulongText spec.base v = digitsText digitChar spec.base v.toNat := by
  cases spec with
  | u => exact ulongText_ten v
  | x => exact ulongText_sixteen v
  | upperX => exact ulongText_sixteen v

theorem Unsigned.loop_eq (spec : Unsigned) (v : Word) :
    spec.loop v = (filled (digitsText digitChar spec.base v.toNat), 0) := by
  rw [← spec.ulongText_eq]
  cases spec with
  | u => exact decimalBuffer_eq v
  | x => exact hexBuffer_eq v
  | upperX => exact hexBuffer_eq v

theorem Unsigned.base_bounds (spec : Unsigned) : 1 < spec.base ∧ spec.base ≤ 16 := by
  cases spec <;> decide

theorem Unsigned.length_le (spec : Unsigned) (v : Word) :
    (digitsText digitChar spec.base v.toNat).length ≤ 20 := by
  rw [← spec.ulongText_eq]
  apply length_ulongText_le
  cases spec with
  | u => exact .inl rfl
  | x => exact .inr rfl
  | upperX => exact .inr rfl

theorem appended_putAll (text : List Byte) (out : Cursor Byte) :
    Appended text out (out.putAll text) :=
  ⟨Cursor.putAll_pos out text, fun _ hk => Cursor.content_putAll_of_lt out text hk,
    fun _ hk => Cursor.content_putAll out text hk⟩

theorem step_directive (strings : Strings) {d : Byte} {s : State} {fmt : List Byte}
    {ap : List Word} {conv : Conversion} (hfmt : s.fmt = ch '%' :: d :: fmt)
    (hlt : s.out.pos < limit) (hconv : convert strings d s.ap = some (conv, ap)) :
    step strings s = some ⟨fmt, ap, emit s.out conv, digitStores d s.ap ++ s.digits⟩ := by
  have hgo : ¬ (ch '%' = 0 ∨ ¬ s.out.pos < limit) := by
    rintro (hnul | hfull)
    · exact absurd hnul (by decide)
    · exact hfull hlt
  rw [step, hfmt]
  dsimp only
  rw [if_neg hgo, if_pos rfl, hconv, Option.map_some]

/-- A turn of the loop at `%u`, `%x` or `%X` with room for the digits appends a
numeral for the argument and for no other value. The digit loop ends because
nothing is left of the value, with `bp` still behind the start of the buffer. -/
theorem unsigned_numeral_appended (strings : Strings) (spec : Unsigned) (v : Word) (s : State)
    (fmt : List Byte) (ap : List Word) (hfmt : s.fmt = ch '%' :: spec.char :: fmt)
    (hap : s.ap = v :: ap)
    (hroom : s.out.pos + (digitsText digitChar spec.base v.toNat).length ≤ limit) :
    ∃ t text, step strings s = some t ∧ t.fmt = fmt ∧ t.ap = ap ∧ Appended text s.out t.out ∧
      Numeral spec.base v.toNat text ∧ (∀ w : Word, Numeral spec.base w.toNat text → w = v) ∧
      (spec.loop v).1 = filled text ∧ (spec.loop v).2 = 0 ∧ 0 < (spec.loop v).1.bp := by
  have hnumeral := numeral_digitsText spec.base_bounds.1 spec.base_bounds.2 v.toNat
  have hlen := spec.length_le v
  have hpos : 0 < (digitsText digitChar spec.base v.toNat).length :=
    List.length_pos_of_ne_nil (digitsText_ne_nil _ _ _)
  have hstep := step_directive strings hfmt (by omega)
    (hap ▸ spec.convert_eq strings v ap)
  rw [spec.ulongText_eq, emit_text hroom] at hstep
  refine ⟨_, _, hstep, rfl, rfl, appended_putAll _ _, hnumeral, ?_, ?_, ?_, ?_⟩
  · intro w hw
    exact BitVec.eq_of_toNat_eq (hw.value.symm.trans hnumeral.value)
  · rw [spec.loop_eq]
  · rw [spec.loop_eq]
  · rw [spec.loop_eq]
    show (0 : Int) < 31 - _
    omega

theorem unsigned_numeral_appended_first :
    ∃ t text, step (fun _ => none) (start (chs ['%', 'x'] ++ [0]) [255]) = some t ∧
      t.fmt = [0] ∧ t.ap = [] ∧ Appended text Cursor.start t.out ∧ Numeral 16 255 text ∧
      (∀ w : Word, Numeral 16 w.toNat text → w = 255) ∧
      (hexBuffer 255).1 = filled text ∧ (hexBuffer 255).2 = 0 ∧ 0 < (hexBuffer 255).1.bp :=
  unsigned_numeral_appended (fun _ => none) .x 255 (start (chs ['%', 'x'] ++ [0]) [255]) [0] [] rfl
    rfl (Nat.le_trans (Nat.add_le_add_left (Unsigned.length_le .x 255) _) (by decide))

end Unsigned

end ShlteOs.SprintfNumerals
