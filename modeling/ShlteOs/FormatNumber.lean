import ShlteOs.SprintfNumerals

/-!
`format_number` store by store.  The digits go into the array from the last one on
and are then reversed in place; every store is kept with its index, so that the
room the function needs can be compared with the size of `num_buf`.
-/

namespace ShlteOs.FormatNumber

open ShlteOs.ByteMemory
open ShlteOs.StringFormat (ch chs digitChar)
open ShlteOs.PrintkFormat (Flags reverseDigits)
open ShlteOs.NumberRendering (digitsText digitsText_ne_nil digitsText_ne_zero digitChar_ne_zero)
open ShlteOs.DigitBuffers (length_digitsText_le)
open ShlteOs.SprintfNumerals (Numeral numeral_digitsText)

/-- The array `num_buf`, and the indices stored to so far. -/
structure NumBuf where
  cells : Nat → Byte
  writes : List Nat

def NumBuf.put (b : NumBuf) (i : Nat) (c : Byte) : NumBuf where
  cells := Function.update b.cells i c
  writes := i :: b.writes

/-- `char digits[]` -/
def digits : List Byte :=
  chs ['0', '1', '2', '3', '4', '5', '6', '7', '8', '9', 'a', 'b', 'c', 'd', 'e', 'f']

/-- `while (value > 0)`, with the index of `p`; `none` when the turns do not suffice. -/
def digitLoop (base : Nat) : Nat → Word → Nat → NumBuf → Option (NumBuf × Nat)
  | 0, value, p, b => if 0 < value then none else some (b, p)
  | turns + 1, value, p, b =>
      if 0 < value then
        digitLoop base turns (value / BitVec.ofNat 64 base) (p + 1)
          (b.put p (digits.getD (value % BitVec.ofNat 64 base).toNat 0))
      else some (b, p)

/-- One turn of the loop that reverses `len` digits. -/
def swap (len : Nat) (b : NumBuf) (i : Nat) : NumBuf :=
  let tmp := b.cells i
  (b.put i (b.cells (len - 1 - i))).put (len - 1 - i) tmp

/-- The loop that swaps the digits from both ends. -/
def reverseLoop (len : Nat) (b : NumBuf) : NumBuf := (List.range (len / 2)).foldl (swap len) b

/-- `format_number` on the array. A value of 64 bits has at most 64 digits in any
base. -/
def formatNumber (value : Word) (base : Nat) (isSigned : Bool) (sign : Option Byte)
    (flags : Flags) (precision : Int) (b : NumBuf) : Option NumBuf :=
  if value = 0 ∧ precision ≤ 0 then
    if isSigned = true ∧ sign ≠ none then
      some (((b.put 0 (if sign = some (ch '-') then ch '-' else ch '+')).put 1 (ch '0')).put 2 0)
    else if flags.hash = true ∧ base = 16 then
      some ((((b.put 0 (ch '0')).put 1 (ch 'x')).put 2 (ch '0')).put 3 0)
    else some ((b.put 0 (ch '0')).put 1 0)
  else (digitLoop base 64 value 0 b).map fun r => (reverseLoop r.2 r.1).put r.2 0

/-- The array holds the text and its NUL, and was stored to nowhere else. -/
structure HoldsText (b : NumBuf) (text : List Byte) : Prop where
  cells : ∀ k < text.length, b.cells k = text.getD k 0
  nul : b.cells text.length = 0
  writes : ∀ i ∈ b.writes, i ≤ text.length

section Texts

/-- The bytes of a text stored one behind the other. -/
def NumBuf.putAll (b : NumBuf) (p : Nat) : List Byte → NumBuf
  | [] => b
  | c :: text => (b.put p c).putAll (p + 1) text

theorem put_self (b : NumBuf) (i : Nat) (c : Byte) : (b.put i c).cells i = c := by
  simp [NumBuf.put]

theorem put_of_ne (b : NumBuf) {i k : Nat} (c : Byte) (h : k ≠ i) :
    (b.put i c).cells k = b.cells k := by
  simp [NumBuf.put, h]

theorem putAll_of_lt (b : NumBuf) (text : List Byte) {p k : Nat} (h : k < p) :
    (b.putAll p text).cells k = b.cells k := by
  induction text generalizing b p with
  | nil => rfl
  | cons c text ih =>
      rw [NumBuf.putAll, ih _ (Nat.lt_succ_of_lt h), put_of_ne _ _ (Nat.ne_of_lt h)]

theorem putAll_add (b : NumBuf) (text : List Byte) (p : Nat) {k : Nat} (h : k < text.length) :
    (b.putAll p text).cells (p + k) = text.getD k 0 := by
  induction text generalizing b p k with
  | nil => exact absurd h (Nat.not_lt_zero k)
  | cons c text ih =>
      rw [NumBuf.putAll]
      cases k with
      | zero =>
          exact (putAll_of_lt (b.put p c) text (Nat.lt_succ_self p)).trans (put_self b p c)
      | succ k =>
          have hindex : p + (k + 1) = p + 1 + k := by omega
          rw [List.getD_cons_succ, hindex]
          exact ih (b.put p c) (p + 1) (Nat.lt_of_succ_lt_succ h)

theorem writes_putAll (b : NumBuf) (text : List Byte) (p : Nat) {i : Nat}
    (h : i ∈ (b.putAll p text).writes) : i ∈ b.writes ∨ i < p + text.length := by
  induction text generalizing b p with
  | nil => exact .inl h
  | cons c text ih =>
      rw [List.length_cons]
      rcases ih (b.put p c) (p + 1) h with hput | hlt
      · rcases List.mem_cons.mp hput with rfl | hold
        · exact .inr (by omega)
        · exact .inl hold
      · exact .inr (by omega)

theorem putAll_fresh (text : List Byte) (junk : Nat → Byte) {k : Nat} (h : k < text.length) :
    ((⟨junk, []⟩ : NumBuf).putAll 0 text).cells k = text.getD k 0 := by
  have hcell := putAll_add ⟨junk, []⟩ text 0 h
  rwa [Nat.zero_add] at hcell

theorem writes_fresh (text : List Byte) (junk : Nat → Byte) {i : Nat}
    (h : i ∈ ((⟨junk, []⟩ : NumBuf).putAll 0 text).writes) : i < text.length := by
  rcases writes_putAll _ _ _ h with hold | hlt
  · exact absurd hold List.not_mem_nil
  · rwa [Nat.zero_add] at hlt

theorem holdsText_putAll (text : List Byte) (junk : Nat → Byte) :
    HoldsText (((⟨junk, []⟩ : NumBuf).putAll 0 text).put text.length 0) text := by
  refine ⟨?_, put_self _ _ _, ?_⟩
  · intro k hk
    rw [put_of_ne _ _ (Nat.ne_of_lt hk), putAll_fresh text junk hk]
  · intro i hi
    rcases List.mem_cons.mp hi with rfl | hi
    · exact le_rfl
    · exact (writes_fresh text junk hi).le

end Texts

section Reversal

theorem swap_cells {len i k : Nat} (b : NumBuf) (hi : i < len / 2) :
    (swap len b i).cells k =
      if k = i ∨ k = len - 1 - i then b.cells (len - 1 - k) else b.cells k := by
  rw [swap]
  split
  · rename_i h
    rcases h with rfl | rfl
    · rw [put_of_ne _ _ (by omega), put_self]
    · rw [put_self]
      congr 1
      omega
  · rename_i h
    obtain ⟨hfirst, hlast⟩ := not_or.mp h
    rw [put_of_ne _ _ hlast, put_of_ne _ _ hfirst]

theorem swaps_cells {len n : Nat} (b : NumBuf) (hn : n ≤ len / 2) (k : Nat) :
    ((List.range n).foldl (swap len) b).cells k =
      if k < n ∨ len - n ≤ k ∧ k < len then b.cells (len - 1 - k) else b.cells k := by
  induction n generalizing k with
  | zero => rw [if_neg (by omega)]; rfl
  | succ n ih =>
      rw [List.range_succ, List.foldl_append, List.foldl_cons, List.foldl_nil,
        swap_cells _ (by omega)]
      split
      · rw [ih (by omega), if_neg (by omega), if_pos (by omega)]
      · rw [ih (by omega)]
        split
        · rw [if_pos (by omega)]
        · rw [if_neg (by omega)]

theorem reverseLoop_cells {len k : Nat} (b : NumBuf) (hk : k < len) :
    (reverseLoop len b).cells k = b.cells (len - 1 - k) := by
  rw [reverseLoop, swaps_cells b le_rfl]
  split
  · rfl
  · -- Only the middle digit of an odd number stays where it is.
    congr 1
    omega

theorem writes_reverseLoop {len : Nat} (b : NumBuf) {i : Nat}
    (h : i ∈ (reverseLoop len b).writes) : i ∈ b.writes ∨ i < len := by
  have hloop : ∀ n ≤ len / 2, i ∈ ((List.range n).foldl (swap len) b).writes →
      i ∈ b.writes ∨ i < len := by
    intro n
    induction n with
    | zero => exact fun _ => .inl
    | succ n ih =>
        intro hn hi
        rw [List.range_succ, List.foldl_append, List.foldl_cons, List.foldl_nil] at hi
        rcases List.mem_cons.mp hi with rfl | hi
        · exact .inr (by omega)
        · rcases List.mem_cons.mp hi with rfl | hi
          · exact .inr (by omega)
          · exact ih (by omega) hi
  exact hloop (len / 2) le_rfl h

end Reversal

section Digits

variable {base : Nat}

theorem digits_getD {d : Nat} (hd : d < 16) : digits.getD d 0 = digitChar d := by
  interval_cases d <;> rfl

def digitTexts (base n : Nat) : List Byte := (Nat.digits base n).map digitChar

theorem digitLoop_eq (hbase : 1 < base) (hmax : base ≤ 16) (turns : Nat) {value : Word} (p : Nat)
    (b : NumBuf) (hvalue : value.toNat < base ^ turns) :
    digitLoop base turns value p b =
      some (b.putAll p (digitTexts base value.toNat),
        p + (digitTexts base value.toNat).length) := by
  have hword : (BitVec.ofNat 64 base).toNat = base := by
    rw [BitVec.toNat_ofNat]
    omega
  induction turns generalizing value p b with
  | zero =>
      have hzero : value.toNat = 0 := Nat.lt_one_iff.mp hvalue
      have hnot : ¬ 0 < value := Nat.not_lt.mpr (Nat.le_of_eq hzero)
      rw [digitLoop, if_neg hnot, hzero, digitTexts, Nat.digits_zero]
      rfl
  | succ turns ih =>
      rw [digitLoop]
      by_cases hpos : 0 < value
      · have hdigits : Nat.digits base value.toNat =
            value.toNat % base :: Nat.digits base (value.toNat / base) :=
          Nat.digits_def' hbase hpos
        have hquotient : (value / BitVec.ofNat 64 base).toNat = value.toNat / base := by
          rw [BitVec.toNat_udiv, hword]
        have hless : (value / BitVec.ofNat 64 base).toNat < base ^ turns := by
          rw [hquotient]
          exact Nat.div_lt_of_lt_mul (Nat.pow_succ' ▸ hvalue)
        have hdigit : (value % BitVec.ofNat 64 base).toNat = value.toNat % base := by
          rw [BitVec.toNat_umod, hword]
        have hlast : value.toNat % base < 16 :=
          lt_of_lt_of_le (Nat.mod_lt _ (Nat.zero_lt_of_lt hbase)) hmax
        rw [if_pos hpos, ih (p + 1) _ hless, hquotient, hdigit, digits_getD hlast, digitTexts,
          digitTexts, hdigits, List.map_cons, List.length_cons, NumBuf.putAll]
        congr 2
        omega
      · have hzero : value.toNat = 0 := Nat.le_zero.mp (Nat.not_lt.mp hpos)
        rw [if_neg hpos, hzero, digitTexts, Nat.digits_zero]
        rfl

theorem holdsText_reverse (text : List Byte) (junk : Nat → Byte) :
    HoldsText ((reverseLoop text.length ((⟨junk, []⟩ : NumBuf).putAll 0 text)).put text.length 0)
      text.reverse := by
  refine ⟨?_, ?_, ?_⟩
  · intro k hk
    rw [List.length_reverse] at hk
    rw [put_of_ne _ _ (Nat.ne_of_lt hk), reverseLoop_cells _ hk, putAll_fresh text junk (by omega),
      List.getD_eq_getElem?_getD, List.getD_eq_getElem?_getD, List.getElem?_reverse hk]
  · rw [List.length_reverse]
    exact put_self _ _ _
  · intro i hi
    rw [List.length_reverse]
    rcases List.mem_cons.mp hi with rfl | hi
    · exact le_rfl
    · rcases writes_reverseLoop _ hi with hi | hlt
      · exact (writes_fresh text junk hi).le
      · exact hlt.le

theorem reverseDigits_eq (hbase : 1 < base) (fuel : Nat) {n : Nat} (hn : n < base ^ fuel) :
    reverseDigits base fuel n = digitTexts base n := by
  induction fuel generalizing n with
  | zero =>
      rw [Nat.lt_one_iff.mp hn, digitTexts, Nat.digits_zero]
      rfl
  | succ fuel ih =>
      rw [reverseDigits]
      split
      · rename_i hpos
        have hless : n / base < base ^ fuel := Nat.div_lt_of_lt_mul (Nat.pow_succ' ▸ hn)
        rw [ih hless, digitTexts, digitTexts, Nat.digits_def' hbase hpos, List.map_cons]
      · rename_i hpos
        rw [Nat.eq_zero_of_not_pos hpos, digitTexts, Nat.digits_zero]
        rfl

theorem digitTexts_reverse {n : Nat} (hn : n ≠ 0) :
    (digitTexts base n).reverse = digitsText digitChar base n := by
  rw [digitTexts, digitsText, if_neg hn, List.map_reverse]

end Digits

section Formatting

variable {base : Nat}

/-- Every call ends, and leaves in the array the text that the formatter reads
from it. -/
theorem formatNumber_holds (hbase : 1 < base) (hmax : base ≤ 16) (value : Word) (isSigned : Bool)
    (sign : Option Byte) (flags : Flags) (precision : Int) (junk : Nat → Byte) :
    ∃ b, formatNumber value base isSigned sign flags precision ⟨junk, []⟩ = some b ∧
      HoldsText b (PrintkFormat.formatNumber value base isSigned sign flags precision) := by
  rw [formatNumber, PrintkFormat.formatNumber]
  split
  · split
    · exact ⟨_, rfl, holdsText_putAll
        [if sign = some (ch '-') then ch '-' else ch '+', ch '0'] junk⟩
    · split
      · exact ⟨_, rfl, holdsText_putAll (chs ['0', 'x', '0']) junk⟩
      · exact ⟨_, rfl, holdsText_putAll [ch '0'] junk⟩
  · have hvalue : value.toNat < base ^ 64 :=
      lt_of_lt_of_le value.isLt (Nat.pow_le_pow_left hbase 64)
    rw [digitLoop_eq hbase hmax 64 0 _ hvalue, reverseDigits_eq hbase 64 hvalue, Nat.zero_add]
    exact ⟨_, rfl, holdsText_reverse (digitTexts base value.toNat) junk⟩

/-- Without a sign and without `#` the text is the numeral of the value, unless
the precision is positive and the value zero. -/
theorem formatNumber_text (hbase : 1 < base) {value : Word} (isSigned : Bool) {flags : Flags}
    (hhash : flags.hash = false) {precision : Int}
    (hvalue : 0 < value ∨ value = 0 ∧ precision ≤ 0) :
    PrintkFormat.formatNumber value base isSigned none flags precision =
      digitsText digitChar base value.toNat := by
  rw [PrintkFormat.formatNumber]
  rcases hvalue with hpos | hzero
  · have hnat : value.toNat ≠ 0 := Nat.ne_of_gt hpos
    have hne : value ≠ 0 := fun h => hnat (by rw [h]; rfl)
    rw [if_neg fun h => hne h.1,
      reverseDigits_eq hbase 64 (lt_of_lt_of_le value.isLt (Nat.pow_le_pow_left hbase 64)),
      digitTexts_reverse hnat]
  · rw [if_pos hzero, if_neg fun h => h.2 rfl, if_neg fun h => Bool.false_ne_true (hhash ▸ h.1),
      hzero.1]
    rfl

/-- `format_number` writes the canonical numeral of the value, with its NUL, in
at most 21 bytes. -/
theorem formatNumber_canonical (hbase : base = 10 ∨ base = 16) (value : Word) (isSigned : Bool)
    (flags : Flags) (hhash : flags.hash = false) (precision : Int)
    (hvalue : 0 < value ∨ value = 0 ∧ precision ≤ 0) (junk : Nat → Byte) :
    ∃ b text, formatNumber value base isSigned none flags precision ⟨junk, []⟩ = some b ∧
      text ≠ [] ∧ Numeral base value.toNat text ∧ (∀ c ∈ text, c ≠ 0) ∧ HoldsText b text ∧
      ∀ i ∈ b.writes, i < 21 := by
  have hbounds : 1 < base ∧ base ≤ 16 := by omega
  have hlength : (digitsText digitChar base value.toNat).length ≤ 20 := by
    rcases hbase with rfl | rfl
    · exact length_digitsText_le digitChar (by decide) (lt_of_lt_of_le value.isLt (by decide))
    · exact length_digitsText_le digitChar (by decide) (lt_of_lt_of_le value.isLt (by decide))
  obtain ⟨b, hb, hholds⟩ :=
    formatNumber_holds hbounds.1 hbounds.2 value isSigned none flags precision junk
  rw [formatNumber_text hbounds.1 isSigned hhash hvalue] at hholds
  refine ⟨b, digitsText digitChar base value.toNat, hb, digitsText_ne_nil _ _ _,
    numeral_digitsText hbounds.1 hbounds.2 value.toNat, ?_, hholds, ?_⟩
  · exact digitsText_ne_zero hbounds.1
      (fun d hd => digitChar_ne_zero (lt_of_lt_of_le hd hbounds.2)) value.toNat
  · intro i hi
    exact lt_of_le_of_lt (hholds.writes i hi) (Nat.lt_succ_of_le hlength)

theorem formatNumber_canonical_largest :
    ∃ b text, formatNumber (BitVec.allOnes 64) 10 false none {} (-1) ⟨fun _ => 0, []⟩ = some b ∧
      text ≠ [] ∧ Numeral 10 (BitVec.allOnes 64).toNat text ∧ (∀ c ∈ text, c ≠ 0) ∧
      HoldsText b text ∧ ∀ i ∈ b.writes, i < 21 :=
  formatNumber_canonical (.inl rfl) (BitVec.allOnes 64) false {} rfl (-1) (.inl (by decide))
    fun _ => 0

end Formatting

end ShlteOs.FormatNumber
