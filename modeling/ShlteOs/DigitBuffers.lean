import Mathlib.Data.Nat.Digits.Lemmas
import ShlteOs.DecimalRoundTrip
import ShlteOs.NumberRendering

/-!
The digit buffers of `vsprintf`, store by store.  Each integer conversion fills
its own array `buf` of 32 bytes from the end towards the start through the
pointer `bp`.  A store in front of the array has a negative index, so that
nothing but the loops themselves keeps the indices in range.
-/

namespace ShlteOs.DigitBuffers

open ShlteOs.ByteMemory
open ShlteOs.StringFormat
open ShlteOs.NumberRendering (digitsText)

/-- The index of `bp` in `buf`, and the stores into `buf`, the newest first. -/
structure DigitBuffer where
  bp : Int
  log : List (Int × Byte)
  deriving DecidableEq

/-- `char *bp = buf + sizeof(buf) - 1; *bp = '\0';` -/
def fresh : DigitBuffer := ⟨31, [(31, 0)]⟩

/-- `*--bp = c` -/
def DigitBuffer.push (b : DigitBuffer) (c : Byte) : DigitBuffer :=
  ⟨b.bp - 1, (b.bp - 1, c) :: b.log⟩

section Loops

variable {α : Type} (digit : α → Byte) (next : α → α) (more : α → Bool)

/-- `do { *--bp = digit; val = next; } while (more && bp > buf)`, for at most the
given number of turns; the buffer and the value that is left. -/
def digitLoop : Nat → α → DigitBuffer → DigitBuffer × α
  | 0, val, b => (b, val)
  | n + 1, val, b =>
      let b := b.push (digit val)
      let val := next val
      if more val ∧ 0 < b.bp then digitLoop n val b else (b, val)

end Loops

/-- One turn more than `bp > buf` allows. -/
def turns : Nat := 32

/-- A digit of a `long`, with the remainder of C. -/
def longDigit (val : Int) : Byte := BitVec.ofInt 8 (48 + val.tmod 10)

def longLoop : Nat → Int → DigitBuffer → DigitBuffer × Int :=
  digitLoop longDigit (·.tdiv 10) (0 < ·)

/-- The buffer of `%d` and `%i`. -/
def longBuffer (v : Word) : DigitBuffer :=
  if v.toInt < 0 then (longLoop turns (-v).toInt fresh).1.push (ch '-')
  else (longLoop turns v.toInt fresh).1

/-- The buffer of `%u`, and the value its loop ends with. -/
def decimalBuffer (v : Word) : DigitBuffer × Word :=
  digitLoop (fun val => (48 + val % 10).setWidth 8) (· / 10) (0 < ·) turns v fresh

/-- A digit of `%x`, from the lowest four bits. -/
def hexDigit (val : Word) : Byte :=
  let digit : Byte := (val &&& 0xF).setWidth 8
  if digit < 10 then ch '0' + digit else ch 'a' + digit - 10

/-- The buffer of `%x` and `%X`, and the value its loop ends with. -/
def hexBuffer (v : Word) : DigitBuffer × Word :=
  digitLoop hexDigit (· >>> 4) (0 < ·) turns v fresh

/-- The stores that put a text in front of the terminating NUL. -/
def stores : List Byte → List (Int × Byte)
  | [] => [(31, 0)]
  | c :: text => (30 - text.length, c) :: stores text

/-- The buffer with a text in it, `bp` at its first character. -/
def filled (text : List Byte) : DigitBuffer := ⟨31 - text.length, stores text⟩

/-- All stores lie in the 32 bytes of the buffer. -/
def InBuffer (log : List (Int × Byte)) : Prop := ∀ w ∈ log, 0 ≤ w.1 ∧ w.1 < 32

theorem filled_nil : filled [] = fresh := rfl

theorem filled_push (text : List Byte) (c : Byte) : (filled text).push c = filled (c :: text) := by
  have hbp : (31 : Int) - text.length - 1 = 31 - (c :: text).length := by
    rw [List.length_cons]
    omega
  have hindex : (31 : Int) - text.length - 1 = 30 - text.length := by omega
  simp only [filled, DigitBuffer.push, stores, ← hbp, hindex]

theorem mem_stores {text : List Byte} {w : Int × Byte} (h : w ∈ stores text) :
    31 - (text.length : Int) ≤ w.1 ∧ w.1 ≤ 31 := by
  induction text with
  | nil =>
      rw [stores, List.mem_singleton] at h
      rw [h]
      decide
  | cons c text ih =>
      rw [List.length_cons]
      rcases List.mem_cons.mp h with rfl | h
      · dsimp only
        omega
      · have hrest := ih h
        omega

theorem inBuffer_filled {text : List Byte} (h : text.length ≤ 31) : InBuffer (filled text).log := by
  intro w hw
  have hrange := mem_stores hw
  omega

section Numerals

variable {base : Nat}

theorem digitsText_step (char : Nat → Byte) (hbase : 1 < base) (n : Nat) :
    digitsText char base n =
      if n / base = 0 then [char (n % base)]
      else digitsText char base (n / base) ++ [char (n % base)] := by
  rcases Nat.eq_zero_or_pos n with rfl | hpos
  · rw [Nat.zero_div, if_pos rfl, Nat.zero_mod, digitsText, if_pos rfl]
  · rw [digitsText, if_neg (Nat.pos_iff_ne_zero.mp hpos), Nat.digits_def' hbase hpos]
    by_cases hlast : n / base = 0
    · rw [if_pos hlast, hlast, Nat.digits_zero]
      rfl
    · rw [if_neg hlast, digitsText, if_neg hlast, List.reverse_cons, List.map_append]
      rfl

theorem length_digitsText_le (char : Nat → Byte) (hbase : 1 < base) {n k : Nat}
    (h : n < base ^ (k + 1)) : (digitsText char base n).length ≤ k + 1 := by
  rw [digitsText]
  split
  · exact Nat.succ_le_succ (Nat.zero_le k)
  · rw [List.length_map, List.length_reverse]
    exact (Nat.digits_length_le_iff hbase n).mpr h

theorem div_lt_pow (hbase : 1 < base) {n k : Nat} (h : n < base ^ (k + 1 + 1)) :
    n / base < base ^ (k + 1) := by
  rw [Nat.div_lt_iff_lt_mul (by omega), ← pow_succ]
  exact h

theorem div_eq_zero_of_lt_pow {n : Nat} (h : n < base ^ (0 + 1)) : n / base = 0 := by
  rw [Nat.zero_add, pow_one] at h
  exact Nat.div_eq_of_lt h

/-- The loop over a word, where one turn takes the last digit off. It ends
because nothing is left of the value, with the numeral in the buffer. -/
theorem wordLoop_spec {digit : Word → Byte} {next : Word → Word} (hbase : 1 < base)
    (hdigit : ∀ val, digit val = digitChar (val.toNat % base))
    (hnext : ∀ val, (next val).toNat = val.toNat / base) {k n : Nat} {val : Word}
    {acc : List Byte} (hval : val.toNat < base ^ (k + 1)) (hroom : acc.length + (k + 1) ≤ 31)
    (hn : k + 1 ≤ n) :
    digitLoop digit next (0 < ·) n val (filled acc) =
      (filled (digitsText digitChar base val.toNat ++ acc), 0) := by
  induction k generalizing n val acc with
  | zero =>
      obtain ⟨m, rfl⟩ := Nat.exists_eq_add_of_le hn
      have hzero := div_eq_zero_of_lt_pow hval
      have hrest : next val = 0 := BitVec.eq_of_toNat_eq ((hnext val).trans hzero)
      rw [digitsText_step digitChar hbase, if_pos hzero, Nat.add_comm, digitLoop, hdigit,
        filled_push, hrest]
      exact if_neg fun h => absurd h.1 (by decide)
  | succ k ih =>
      obtain ⟨m, rfl⟩ : ∃ m, n = m + 1 := ⟨n - 1, by omega⟩
      rw [digitsText_step digitChar hbase, digitLoop, hdigit, filled_push]
      by_cases hzero : val.toNat / base = 0
      · have hrest : next val = 0 := BitVec.eq_of_toNat_eq ((hnext val).trans hzero)
        rw [if_pos hzero, hrest]
        exact if_neg fun h => absurd h.1 (by decide)
      · have hmore : decide (0 < next val) = true := by
          rw [decide_eq_true_eq, BitVec.lt_def, hnext]
          exact Nat.pos_of_ne_zero hzero
        have hroom' : (digitChar (val.toNat % base) :: acc).length + (k + 1) ≤ 31 := by
          rw [List.length_cons]
          omega
        have hbp : 0 < (filled (digitChar (val.toNat % base) :: acc)).bp := by
          show (0 : Int) < 31 - (digitChar (val.toNat % base) :: acc).length
          omega
        have hval' : (next val).toNat < base ^ (k + 1) := by
          rw [hnext]
          exact div_lt_pow hbase hval
        rw [if_neg hzero, if_pos ⟨hmore, hbp⟩, ih hval' hroom' (by omega), hnext,
          List.append_assoc]
        rfl

theorem ulongDigits_spec (hbase : 1 < base) {k room val : Nat} (acc : List Byte)
    (hval : val < base ^ (k + 1)) (hroom : k + 1 ≤ room) :
    ulongDigits base room val acc = digitsText digitChar base val ++ acc := by
  induction k generalizing room val acc with
  | zero =>
      obtain ⟨m, rfl⟩ : ∃ m, room = m + 1 := ⟨room - 1, by omega⟩
      have hzero := div_eq_zero_of_lt_pow hval
      rw [digitsText_step digitChar hbase, if_pos hzero, ulongDigits, hzero]
      rfl
  | succ k ih =>
      obtain ⟨m, rfl⟩ : ∃ m, room = m + 1 := ⟨room - 1, by omega⟩
      rw [digitsText_step digitChar hbase, ulongDigits]
      by_cases hzero : val / base = 0
      · rw [if_pos hzero, hzero]
        rfl
      · rw [if_neg hzero, if_pos (Nat.pos_of_ne_zero hzero),
          ih _ (div_lt_pow hbase hval) (by omega), List.append_assoc]
        rfl

end Numerals

section Buffers

theorem ulongText_eq {base k : Nat} (hbase : 1 < base) (hk : k + 1 ≤ 31)
    (hfit : 2 ^ 64 ≤ base ^ (k + 1)) (v : Word) :
    ulongText base v = digitsText digitChar base v.toNat := by
  rw [ulongText, ulongDigits_spec hbase [] (lt_of_lt_of_le v.isLt hfit) hk, List.append_nil]

theorem ulongText_ten (v : Word) : ulongText 10 v = digitsText digitChar 10 v.toNat :=
  ulongText_eq (by decide) (show 19 + 1 ≤ 31 by decide) (by decide) v

theorem ulongText_sixteen (v : Word) : ulongText 16 v = digitsText digitChar 16 v.toNat :=
  ulongText_eq (by decide) (show 15 + 1 ≤ 31 by decide) (by decide) v

theorem decimalDigit_eq (val : Word) :
    (48 + val % 10).setWidth 8 = digitChar (val.toNat % 10) := by
  have hlt : val.toNat % 10 < 10 := Nat.mod_lt _ (by decide)
  have hmod : (val % 10).toNat = val.toNat % 10 := BitVec.toNat_umod
  have hsum : (48 + val % 10).toNat = 48 + val.toNat % 10 := by
    rw [BitVec.toNat_add, hmod]
    show (48 + val.toNat % 10) % 2 ^ 64 = _
    omega
  rw [digitChar, if_pos hlt, ← BitVec.ofNat_toNat, hsum]

theorem hexDigit_eq (val : Word) : hexDigit val = digitChar (val.toNat % 16) := by
  have hmask : (val &&& 0xF).toNat = val.toNat % 16 := by
    rw [BitVec.toNat_and]
    exact Nat.and_two_pow_sub_one_eq_mod val.toNat 4
  have hlt : val.toNat % 16 < 16 := Nat.mod_lt _ (by decide)
  rw [hexDigit, ← BitVec.ofNat_toNat, hmask]
  generalize val.toNat % 16 = d at hlt
  interval_cases d <;> decide

theorem decimalBuffer_eq (v : Word) : decimalBuffer v = (filled (ulongText 10 v), 0) := by
  have hval : v.toNat < 10 ^ (19 + 1) := lt_of_lt_of_le v.isLt (by decide)
  rw [decimalBuffer, ← filled_nil, wordLoop_spec (by decide) decimalDigit_eq
    (fun _ => BitVec.toNat_udiv) hval (by decide) (by decide), List.append_nil, ulongText_ten]

theorem hexBuffer_eq (v : Word) : hexBuffer v = (filled (ulongText 16 v), 0) := by
  have hval : v.toNat < 16 ^ (15 + 1) := lt_of_lt_of_le v.isLt (by decide)
  have hshift : ∀ val : Word, (val >>> 4).toNat = val.toNat / 16 := by
    intro val
    rw [BitVec.toNat_ushiftRight, Nat.shiftRight_eq_div_pow]
  rw [hexBuffer, ← filled_nil, wordLoop_spec (by decide) hexDigit_eq hshift hval (by decide)
    (by decide), List.append_nil, ulongText_sixteen]

theorem longLoop_filled (room : Nat) {n : Nat} (val : Int) {acc : List Byte}
    (hroom : acc.length + (room + 1) = 31) (hn : room + 1 ≤ n) :
    (longLoop n val (filled acc)).1 = filled (longDigits (room + 1) val acc) := by
  induction room generalizing n val acc with
  | zero =>
      obtain ⟨m, rfl⟩ : ∃ m, n = m + 1 := ⟨n - 1, by omega⟩
      have hbp : ¬ 0 < (filled (longDigit val :: acc)).bp := by
        show ¬ (0 : Int) < 31 - (longDigit val :: acc).length
        rw [List.length_cons]
        omega
      rw [longLoop, digitLoop, filled_push, if_neg fun h => hbp h.2, longDigits]
      split
      · rfl
      · rfl
  | succ room ih =>
      obtain ⟨m, rfl⟩ : ∃ m, n = m + 1 := ⟨n - 1, by omega⟩
      have hbp : 0 < (filled (longDigit val :: acc)).bp := by
        show (0 : Int) < 31 - (longDigit val :: acc).length
        rw [List.length_cons]
        omega
      rw [longLoop, digitLoop, filled_push, longDigits]
      by_cases hmore : 0 < val.tdiv 10
      · rw [if_pos ⟨decide_eq_true hmore, hbp⟩, if_pos hmore]
        exact ih _ (by rw [List.length_cons]; omega) (by omega)
      · rw [if_neg fun h => hmore (of_decide_eq_true h.1), if_neg hmore]
        rfl

theorem tdiv_ten_of_pos {val : Int} (h : 0 < val.tdiv 10) : val.tdiv 10 = val / 10 := by
  apply Int.tdiv_eq_ediv_of_nonneg
  by_contra hneg
  have hopposite : 0 ≤ (-val).tdiv 10 := Int.tdiv_nonneg (by omega) (by decide)
  rw [Int.neg_tdiv] at hopposite
  omega

theorem length_longDigits_le {k : Nat} {val : Int} (hval : val < 10 ^ (k + 1)) (room : Nat)
    (acc : List Byte) : (longDigits room val acc).length ≤ acc.length + (k + 1) := by
  induction k generalizing room val acc with
  | zero =>
      cases room with
      | zero =>
          rw [longDigits]
          omega
      | succ room =>
          have hlast : ¬ 0 < val.tdiv 10 := by
            intro hpos
            have hdiv := tdiv_ten_of_pos hpos
            omega
          rw [longDigits, if_neg hlast, List.length_cons]
  | succ k ih =>
      cases room with
      | zero =>
          rw [longDigits]
          omega
      | succ room =>
          rw [longDigits]
          split
          · rename_i hpos
            have hdiv := tdiv_ten_of_pos hpos
            have hquot : val.tdiv 10 < 10 ^ (k + 1) := by
              rw [hdiv, Int.ediv_lt_iff_lt_mul (by decide), ← pow_succ]
              exact hval
            have hrest := ih hquot room (BitVec.ofInt 8 (48 + val.tmod 10) :: acc)
            rw [List.length_cons] at hrest
            omega
          · rw [List.length_cons]
            omega

theorem length_longText_le (v : Word) : (longText v).length ≤ 20 := by
  have hmax : ∀ w : Word, w.toInt < 10 ^ (18 + 1) := fun w =>
    lt_of_lt_of_le BitVec.toInt_lt (by decide)
  rw [longText]
  split
  · have hlen := length_longDigits_le (hmax (-v)) 31 []
    rw [List.length_cons]
    rw [List.length_nil] at hlen
    omega
  · have hlen := length_longDigits_le (hmax v) 31 []
    rw [List.length_nil] at hlen
    omega

theorem longBuffer_eq (v : Word) : longBuffer v = filled (longText v) := by
  have hloop : ∀ val, (longLoop turns val fresh).1 = filled (longDigits 31 val []) := by
    intro val
    rw [← filled_nil]
    exact longLoop_filled 30 val (by decide) (by decide)
  rw [longBuffer, longText]
  split
  · rw [hloop, filled_push]
  · rw [hloop]

theorem length_ulongText_le {base : Nat} (hbase : base = 10 ∨ base = 16) (v : Word) :
    (ulongText base v).length ≤ 20 := by
  rcases hbase with rfl | rfl
  · rw [ulongText_ten]
    exact length_digitsText_le digitChar (by decide) (lt_of_lt_of_le v.isLt (by decide))
  · rw [ulongText_sixteen]
    exact length_digitsText_le digitChar (by decide) (lt_of_lt_of_le v.isLt (by decide))

end Buffers

end ShlteOs.DigitBuffers
