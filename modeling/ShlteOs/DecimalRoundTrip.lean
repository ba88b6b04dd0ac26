import ShlteOs.FormatAgreement

/-!
Numbers written by `sprintf` with `%d` and read back by `atol`.  The encoder
negates a negative value and divides it by ten; the least `long` is its own
negation, so the loop stops after a single wrong digit.
-/

namespace ShlteOs.DecimalRoundTrip

open ShlteOs.ByteMemory
open ShlteOs.BufferCursor
open ShlteOs.StringFormat
open ShlteOs.BoundedFormatting (formatLoop_nul formatLoop_directive)
open ShlteOs.FormatAgreement (Holds holds_putAll emit_text)

/-- The characters `atol` skips. -/
def isBlank (c : Byte) : Bool := c = ch ' ' ∨ c = ch '\t' ∨ c = ch '\n'

def skipBlanks : List Byte → Option (List Byte)
  | [] => none
  | c :: s => if isBlank c then skipBlanks s else some (c :: s)

/-- The loop over the digits, with wrapping arithmetic. -/
def atolDigits (result : Word) : List Byte → Option Word
  | [] => none
  | c :: s =>
      if isDigit c then atolDigits (result * 10 + BitVec.ofNat 64 (c.toNat - 48)) s
      else some result

/-- `atol` on the bytes that can be read from `nptr` on. -/
def atol (s : List Byte) : Option Word :=
  (skipBlanks s).bind fun s =>
    match s with
    | [] => none
    | c :: rest =>
        if c = ch '-' then (atolDigits 0 rest).map fun result => -result
        else if c = ch '+' then atolDigits 0 rest
        else atolDigits 0 (c :: rest)

def sprintf (strings : Strings) (fmt : List Byte) (ap : List Word) : Option Formatted :=
  vsprintf strings fmt ap

/-- The string in the buffer, with its NUL. -/
def stored (r : Formatted) : List Byte :=
  (List.range (r.ret + 1)).map fun k => (content r.log k).getD 0

def decimalFormat : List Byte := chs ['%', 'd'] ++ [0]

/-- `atol` gives the number back, also behind any blanks and whatever follows the
string. -/
def RoundTrips (strings : Strings) (v : Word) : Prop :=
  ∃ r, sprintf strings decimalFormat [v] = some r ∧
    ∀ blanks, (∀ c ∈ blanks, isBlank c = true) →
      ∀ tail, atol (blanks ++ (stored r ++ tail)) = some v

section Encoder

theorem stored_of_holds {t : List Byte} {r : Formatted} (h : Holds t r.log)
    (hret : r.ret = t.length) : stored r = t ++ [0] := by
  rw [stored, hret, List.range_succ, List.map_append, List.map_singleton, h.nul]
  congr 1
  apply List.ext_getElem
  · rw [List.length_map, List.length_range]
  · intro k hk hk'
    rw [List.getElem_map, List.getElem_range, h.text k hk', List.getElem?_eq_getElem hk']
    rfl

theorem sprintf_decimal (strings : Strings) (v : Word) (h : (longText v).length < limit) :
    ∃ r, sprintf strings decimalFormat [v] = some r ∧ stored r = longText v ++ [0] := by
  have hstart : (Cursor.start : Cursor Byte).pos = 0 := rfl
  have hpos : (Cursor.start.putAll (longText v)).pos = (longText v).length := by
    rw [Cursor.putAll_pos, hstart, Nat.zero_add]
  have hloop : formatLoop strings decimalFormat [v] .start =
      some (Cursor.start.putAll (longText v)) := by
    refine (formatLoop_directive strings (by decide) (ch 'd') [0] [v]).trans ?_
    have hconv : convert strings (ch 'd') [v] = some (.text (longText v), []) := rfl
    have hfits : (Cursor.start : Cursor Byte).pos + (longText v).length ≤ limit := by
      omega
    rw [hconv, Option.bind_some, emit_text hfits]
    exact formatLoop_nul strings [] [] _
  refine ⟨⟨((longText v).length, 0) :: (Cursor.start.putAll (longText v)).log,
    (longText v).length⟩, ?_, stored_of_holds (holds_putAll _) rfl⟩
  have hshort : ¬ (longText v).length > limit := by omega
  simp only [sprintf, vsprintf, hloop, Option.map_some, hpos, if_neg hshort]

end Encoder

section Digits

/-- The number a digit string stands for, behind digits worth `n`. -/
def value (n : Nat) (ds : List Byte) : Nat :=
  ds.foldl (fun n c => n * 10 + (c.toNat - 48)) n

theorem digit_spec {d : Nat} (hd : d < 10) :
    isDigit (BitVec.ofNat 8 (48 + d)) = true ∧ (BitVec.ofNat 8 (48 + d)).toNat - 48 = d := by
  have hval : (BitVec.ofNat 8 (48 + d)).toNat = 48 + d := by
    rw [BitVec.toNat_ofNat]
    omega
  have hlow : (ch '0').toNat = 48 := rfl
  have hhigh : (ch '9').toNat = 57 := rfl
  refine ⟨decide_eq_true ⟨?_, ?_⟩, by omega⟩
  · rw [BitVec.le_def]
    omega
  · rw [BitVec.le_def]
    omega

theorem longDigits_succ (room val : Nat) (acc : List Byte) :
    longDigits (room + 1) val acc =
      if 0 < val / 10 then
        longDigits room ((val / 10 : Nat) : Int) (BitVec.ofNat 8 (48 + val % 10) :: acc)
      else BitVec.ofNat 8 (48 + val % 10) :: acc := by
  have hmod : 48 + Int.tmod val 10 = ((48 + val % 10 : Nat) : Int) := by
    rw [Int.tmod_eq_emod_of_nonneg (Int.natCast_nonneg val)]
    omega
  have hdiv : Int.tdiv val 10 = ((val / 10 : Nat) : Int) := by
    rw [Int.tdiv_eq_ediv_of_nonneg (Int.natCast_nonneg val)]
    omega
  simp only [longDigits, hmod, hdiv, BitVec.ofInt_natCast, Int.natCast_pos]

theorem value_append_singleton (n : Nat) (ds : List Byte) (c : Byte) :
    value n (ds ++ [c]) = value n ds * 10 + (c.toNat - 48) := by
  rw [value, List.foldl_append]
  rfl

/-- What the encoder writes for a number that is not negative. -/
structure Decimal (val : Nat) (ds : List Byte) : Prop where
  nonempty : ds ≠ []
  digits : ∀ c ∈ ds, isDigit c = true
  value : value 0 ds = val

theorem longDigits_spec (room : Nat) {val : Nat} (hval : val < 10 ^ (room + 1))
    (acc : List Byte) :
    ∃ ds, longDigits (room + 1) val acc = ds ++ acc ∧ ds.length ≤ room + 1 ∧
      Decimal val ds := by
  have hone : ∀ {val : Nat}, val < 10 → Decimal val [BitVec.ofNat 8 (48 + val % 10)] := by
    intro val hval
    obtain ⟨hdigit, hvalue⟩ := digit_spec (Nat.mod_lt val (show 10 > 0 by decide))
    refine ⟨List.cons_ne_nil _ _, ?_, ?_⟩
    · intro c hc
      rw [List.mem_singleton.mp hc]
      exact hdigit
    · rw [← List.nil_append [_], value_append_singleton, hvalue]
      exact (Nat.zero_add _).trans (Nat.mod_eq_of_lt hval)
  induction room generalizing val acc with
  | zero =>
      have hsmall : val < 10 := by simpa using hval
      refine ⟨[BitVec.ofNat 8 (48 + val % 10)], ?_, le_rfl, hone hsmall⟩
      rw [longDigits_succ, if_neg (by omega)]
      rfl
  | succ room ih =>
      rw [longDigits_succ]
      by_cases hmore : 0 < val / 10
      · have hquot : val / 10 < 10 ^ (room + 1) := by
          rw [Nat.div_lt_iff_lt_mul (by decide), ← pow_succ]
          exact hval
        obtain ⟨hdigit, hvalue⟩ := digit_spec (Nat.mod_lt val (show 10 > 0 by decide))
        obtain ⟨ds, heq, hlen, hds⟩ := ih hquot (BitVec.ofNat 8 (48 + val % 10) :: acc)
        refine ⟨ds ++ [BitVec.ofNat 8 (48 + val % 10)], ?_, ?_, ?_, ?_, ?_⟩
        · rw [if_pos hmore, heq, List.append_assoc]
          rfl
        · rw [List.length_append, List.length_singleton]
          omega
        · exact List.append_ne_nil_of_right_ne_nil _ (List.cons_ne_nil _ _)
        · intro c hc
          rcases List.mem_append.mp hc with hc | hc
          · exact hds.digits c hc
          · rw [List.mem_singleton.mp hc]
            exact hdigit
        · rw [value_append_singleton, hds.value, hvalue]
          omega
      · refine ⟨[BitVec.ofNat 8 (48 + val % 10)], ?_, ?_, hone (by omega)⟩
        · rw [if_neg hmore]
          rfl
        · rw [List.length_singleton]
          omega

end Digits

section Decoder

theorem skipBlanks_append {blanks : List Byte} (h : ∀ c ∈ blanks, isBlank c = true) {c : Byte}
    (hc : isBlank c = false) (s : List Byte) :
    skipBlanks (blanks ++ c :: s) = some (c :: s) := by
  induction blanks with
  | nil => rw [List.nil_append, skipBlanks, hc, if_neg Bool.false_ne_true]
  | cons b blanks ih =>
      obtain ⟨hb, hblanks⟩ := List.forall_mem_cons.mp h
      rw [List.cons_append, skipBlanks, hb, if_pos rfl]
      exact ih hblanks

theorem atolDigits_append {ds : List Byte} (h : ∀ c ∈ ds, isDigit c = true) (n : Nat)
    (rest : List Byte) :
    atolDigits (BitVec.ofNat 64 n) (ds ++ rest) =
      atolDigits (BitVec.ofNat 64 (value n ds)) rest := by
  induction ds generalizing n with
  | nil => rfl
  | cons c ds ih =>
      obtain ⟨hc, hds⟩ := List.forall_mem_cons.mp h
      have hnext : BitVec.ofNat 64 n * 10 + BitVec.ofNat 64 (c.toNat - 48) =
          BitVec.ofNat 64 (n * 10 + (c.toNat - 48)) := by
        rw [BitVec.ofNat_add, BitVec.ofNat_mul]
        rfl
      rw [List.cons_append, atolDigits, hc, if_pos rfl, hnext, ih hds]
      rfl

theorem atolDigits_nul (result : Word) (tail : List Byte) :
    atolDigits result (0 :: tail) = some result := rfl

theorem atolDigits_decimal {val : Nat} {ds : List Byte} (h : Decimal val ds) (tail : List Byte) :
    atolDigits 0 (ds ++ 0 :: tail) = some (BitVec.ofNat 64 val) := by
  have happend := atolDigits_append h.digits 0 (0 :: tail)
  rw [h.value, atolDigits_nul] at happend
  exact happend

theorem isDigit_spec {c : Byte} (hc : isDigit c = true) :
    isBlank c = false ∧ c ≠ ch '-' ∧ c ≠ ch '+' := by
  refine ⟨decide_eq_false ?_, ?_, ?_⟩
  · rintro (rfl | rfl | rfl)
    · exact absurd hc (by decide)
    · exact absurd hc (by decide)
    · exact absurd hc (by decide)
  · rintro rfl
    exact absurd hc (by decide)
  · rintro rfl
    exact absurd hc (by decide)

theorem atol_decimal {blanks : List Byte} (hblanks : ∀ c ∈ blanks, isBlank c = true) {val : Nat}
    {ds : List Byte} (h : Decimal val ds) (tail : List Byte) :
    atol (blanks ++ (ds ++ 0 :: tail)) = some (BitVec.ofNat 64 val) := by
  have hdigits := atolDigits_decimal h tail
  obtain ⟨c, ds, rfl⟩ := List.exists_cons_of_ne_nil h.nonempty
  obtain ⟨hblank, hminus, hplus⟩ := isDigit_spec (h.digits c List.mem_cons_self)
  rw [List.cons_append] at hdigits ⊢
  rw [atol, skipBlanks_append hblanks hblank]
  simp only [Option.bind_some, if_neg hminus, if_neg hplus, hdigits]

theorem atol_negative {blanks : List Byte} (hblanks : ∀ c ∈ blanks, isBlank c = true)
    {s : List Byte} {result : Word} (h : atolDigits 0 s = some result) :
    atol (blanks ++ ch '-' :: s) = some (-result) := by
  rw [atol, skipBlanks_append hblanks (by decide)]
  simp only [Option.bind_some, if_true, h, Option.map_some]

end Decoder

theorem longText_spec {v : Word} (hv : v ≠ BitVec.intMin 64) :
    (longText v).length < limit ∧
      ∀ blanks, (∀ c ∈ blanks, isBlank c = true) →
        ∀ tail, atol (blanks ++ (longText v ++ [0] ++ tail)) = some v := by
  have hbound : ∀ n : Nat, n < 2 ^ 63 → n < 10 ^ (30 + 1) := fun n hn => by omega
  have hlimit : limit = 1023 := rfl
  have hlt := v.isLt
  have hne : v.toNat ≠ 2 ^ 63 := fun h => hv (BitVec.eq_of_toNat_eq h)
  by_cases hneg : v.toInt < 0
  · have hnat : ((-v).toNat : Int) = (-v).toInt ∧ (-v).toNat < 2 ^ 63 := by
      rw [BitVec.toInt_eq_toNat_cond] at hneg ⊢
      rw [BitVec.toNat_neg]
      split_ifs at hneg ⊢
      · omega
      · omega
      · omega
      · omega
    obtain ⟨ds, heq, hlen, hds⟩ := longDigits_spec 30 (hbound _ hnat.2) []
    rw [hnat.1, List.append_nil] at heq
    have htext : longText v = ch '-' :: ds := by rw [longText, if_pos hneg, heq]
    rw [htext]
    refine ⟨by rw [List.length_cons]; omega, ?_⟩
    intro blanks hblanks tail
    have hdigits := atolDigits_decimal hds tail
    have hatol := atol_negative hblanks hdigits
    rw [BitVec.ofNat_toNat, BitVec.setWidth_eq, BitVec.neg_neg] at hatol
    rw [List.append_assoc, List.cons_append]
    exact hatol
  · have hnat : (v.toNat : Int) = v.toInt ∧ v.toNat < 2 ^ 63 := by
      rw [BitVec.toInt_eq_toNat_cond] at hneg ⊢
      split_ifs at hneg ⊢
      · omega
      · omega
    obtain ⟨ds, heq, hlen, hds⟩ := longDigits_spec 30 (hbound _ hnat.2) []
    rw [hnat.1, List.append_nil] at heq
    have htext : longText v = ds := by rw [longText, if_neg hneg, heq]
    rw [htext]
    refine ⟨by omega, ?_⟩
    intro blanks hblanks tail
    have hatol := atol_decimal hblanks hds tail
    rw [BitVec.ofNat_toNat, BitVec.setWidth_eq] at hatol
    rw [List.append_assoc]
    exact hatol

theorem not_roundTrips_least (strings : Strings) : ¬ RoundTrips strings (BitVec.intMin 64) := by
  rintro ⟨r, hr, hatol⟩
  obtain ⟨r', hr', hstored⟩ := sprintf_decimal strings (BitVec.intMin 64) (by decide)
  obtain rfl := Option.some_inj.mp (hr.symm.trans hr')
  have hread := hatol [] (fun c hc => nomatch hc) []
  rw [hstored] at hread
  exact absurd hread (by decide)

/-- Every `long` but the least one is read back as it was written. -/
theorem roundTrips_iff (strings : Strings) (v : Word) :
    RoundTrips strings v ↔ v ≠ BitVec.intMin 64 := by
  constructor
  · rintro h rfl
    exact not_roundTrips_least strings h
  · intro hv
    obtain ⟨hlen, hatol⟩ := longText_spec hv
    obtain ⟨r, hr, hstored⟩ := sprintf_decimal strings v hlen
    refine ⟨r, hr, ?_⟩
    rw [hstored]
    exact hatol

/-- The least `long` is written as `"-("` and read as zero. -/
theorem not_roundTrips_longMin : ¬ RoundTrips (fun _ => none) 0x8000000000000000 :=
  not_roundTrips_least _

end ShlteOs.DecimalRoundTrip
