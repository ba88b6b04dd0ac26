import Mathlib.Data.List.GetD
import Mathlib.Data.Nat.Digits.Lemmas
import ShlteOs.InitialContext

/-!
The name of a new process, store by store.  `create_process` works on the
16-byte field of the control block and on the two 16-byte arrays `tmp` and
`buf`; every store is kept with its index, so that the bounds of the loops can
be compared with the sizes of the arrays.
-/

namespace ShlteOs.ProcessNames

open ShlteOs.ByteMemory
open ShlteOs.FieldCopy
open ShlteOs.ProcessTable
open ShlteOs.ProcessOccupancy

inductive Area where
  | name
  | tmp
  | buf
  deriving DecidableEq, Repr

/-- The contents of the arrays, and the stores made so far. -/
structure Buffers where
  cells : Area → Nat → Byte
  writes : List (Area × Nat)

def Buffers.put (b : Buffers) (a : Area) (i : Nat) (v : Byte) : Buffers where
  cells := Function.update b.cells a (Function.update (b.cells a) i v)
  writes := (a, i) :: b.writes

/-- A copy into the name field from any source. -/
def namePointers (src : Nat → Byte) : Pointers Buffers Byte where
  read _ i := src i
  put b i c := b.put .name i c

/-- `strncpy` into the name field. -/
def strncpy (src : Nat → Byte) (n : Nat) (b : Buffers) : Buffers :=
  FieldCopy.strncpy (namePointers src) n b

/-- `while (pid > 0 && bi < 15)`, with `room` cells left below 15. -/
def digitLoop : Nat → Nat → Int → Buffers → Buffers × Nat
  | 0, bi, _, b => (b, bi)
  | room + 1, bi, pid, b =>
      if 0 < pid then
        digitLoop room (bi + 1) (pid / 10) (b.put .buf bi (BitVec.ofInt 8 (48 + pid % 10)))
      else (b, bi)

/-- The digits are copied to `tmp` from the last one on. -/
def reverseLoop : Nat → Nat → Buffers → Buffers × Nat
  | 0, len, b => (b, len)
  | j + 1, len, b => reverseLoop j (len + 1) (b.put .tmp len (b.cells .buf j))

/-- The loop that appends `proc` while there is room. -/
def suffixLoop : List Byte → Nat → Buffers → Buffers × Nat
  | [], len, b => (b, len)
  | c :: rest, len, b =>
      if len < 15 then suffixLoop rest (len + 1) (b.put .tmp len c) else (b, len)

/-- The digits of the pid in `tmp`; for pid 0 the text is there, but its length stays
zero. -/
def pidText (pid : Int) (b : Buffers) : Buffers × Nat :=
  if pid = 0 then ((b.put .tmp 0 48).put .tmp 1 0, 0)
  else
    let d := digitLoop 15 0 pid b
    reverseLoop d.2 0 (d.1.put .buf d.2 0)

/-- The name of a process that was given none. -/
def defaultText (pid : Int) (b : Buffers) : Buffers :=
  let r := pidText pid b
  let r := suffixLoop procText r.2 r.1
  r.1.put .tmp r.2 0

/-- The part of `create_process` that fills in `p->name`. -/
def nameField (name : Option (List Byte)) (pid : Int) (b : Buffers) : Buffers :=
  match name with
  | some text => (strncpy (text.getD · 0) 15 b).put .name 15 0
  | none =>
      let b := defaultText pid b
      (strncpy (b.cells .tmp) 15 b).put .name 15 0

/-- Every store lies in the 16 bytes of its array. -/
def Buffers.InBounds (b : Buffers) : Prop := ∀ w ∈ b.writes, w.2 < 16

def Buffers.nameBytes (b : Buffers) : List Byte := (List.range 16).map (b.cells .name)

/-- The field that holds the first 15 bytes of a string, filled up with NULs. -/
def fieldFor (text : List Byte) : List Byte :=
  text.take 15 ++ List.replicate (16 - (text.take 15).length) 0

def decimal (pid : Nat) : List Byte :=
  (Nat.digits 10 pid).reverse.map fun d => BitVec.ofNat 8 (48 + d)

def intMax : Int := 2147483647

section Stores

variable {b : Buffers} {a : Area} {i j : Nat} {v : Byte}

theorem put_self (b : Buffers) (a : Area) (i : Nat) (v : Byte) : (b.put a i v).cells a i = v := by
  simp [Buffers.put]

theorem put_of_ne (v : Byte) (h : j ≠ i) : (b.put a i v).cells a j = b.cells a j := by
  simp [Buffers.put, h]

theorem put_other {a' : Area} (i : Nat) (v : Byte) (h : a' ≠ a) :
    (b.put a i v).cells a' = b.cells a' := by
  simp [Buffers.put, h]

theorem put_inBounds (h : b.InBounds) (a : Area) (v : Byte) (hi : i < 16) :
    (b.put a i v).InBounds := by
  intro w hw
  rcases List.mem_cons.mp hw with rfl | hw
  · exact hi
  · exact h w hw

end Stores

section Copy

variable {src : Nat → Byte} {b : Buffers}

theorem putAll_inBounds {pos : Nat} {text : List Byte} (h : b.InBounds)
    (hfit : pos + text.length ≤ 16) : (putAll (namePointers src) pos b text).InBounds := by
  induction text generalizing pos b with
  | nil => exact h
  | cons c text ih =>
      rw [List.length_cons] at hfit
      exact ih (put_inBounds h .name c (by omega)) (by omega)

theorem putAll_below {pos i : Nat} (hi : i < pos) (text : List Byte) :
    (putAll (namePointers src) pos b text).cells .name i = b.cells .name i := by
  induction text generalizing pos b with
  | nil => rfl
  | cons c text ih =>
      rw [putAll, ih (by omega)]
      exact put_of_ne c (Nat.ne_of_lt hi)

theorem putAll_cells (src : Nat → Byte) (b : Buffers) (pos : Nat) {i : Nat} {text : List Byte}
    (hi : i < text.length) :
    (putAll (namePointers src) pos b text).cells .name (pos + i) = text.getD i 0 := by
  induction text generalizing pos b i with
  | nil => exact absurd hi (Nat.not_lt_zero i)
  | cons c text ih =>
      cases i with
      | zero =>
          rw [Nat.add_zero, putAll, putAll_below (Nat.lt_succ_self pos)]
          exact put_self b .name pos c
      | succ i =>
          rw [putAll, ← Nat.add_assoc, Nat.add_right_comm, ih _ _ (Nat.lt_of_succ_lt_succ hi)]
          rfl

end Copy

section Text

variable {b : Buffers} {a : Area}

/-- The array starts with these bytes. -/
def Holds (cells : Nat → Byte) (text : List Byte) : Prop :=
  ∀ i (h : i < text.length), cells i = text[i]

theorem Holds.put {text : List Byte} (h : Holds (b.cells a) text) (v : Byte) :
    Holds ((b.put a text.length v).cells a) (text ++ [v]) := by
  intro i hi
  rw [List.length_append, List.length_singleton] at hi
  rcases Nat.lt_succ_iff_lt_or_eq.mp hi with hlt | rfl
  · rw [put_of_ne v (Nat.ne_of_lt hlt), List.getElem_append_left hlt]
    exact h i hlt
  · rw [put_self, List.getElem_concat_length rfl]

theorem Holds.nil (cells : Nat → Byte) : Holds cells [] :=
  fun i hi => absurd hi (Nat.not_lt_zero i)

theorem Holds.left {cells : Nat → Byte} {text rest : List Byte} (h : Holds cells (text ++ rest)) :
    Holds cells text := by
  intro i hi
  rw [h i (by rw [List.length_append]; omega), List.getElem_append_left hi]

theorem digitLoop_spec (room : Nat) (pid : Int) {text : List Byte} (h : Holds (b.cells .buf) text)
    (hb : b.InBounds) (hroom : text.length + room ≤ 15) :
    (digitLoop room text.length pid b).2 = (text ++ reverseDigits room pid).length ∧
      Holds ((digitLoop room text.length pid b).1.cells .buf) (text ++ reverseDigits room pid) ∧
      (digitLoop room text.length pid b).1.InBounds := by
  induction room generalizing pid b text with
  | zero =>
      rw [reverseDigits, List.append_nil]
      exact ⟨rfl, h, hb⟩
  | succ room ih =>
      rw [digitLoop, reverseDigits]
      split
      · have hlen : (text ++ [BitVec.ofInt 8 (48 + pid % 10)]).length = text.length + 1 :=
          List.length_append
        have hnext := ih (pid / 10) (h.put (BitVec.ofInt 8 (48 + pid % 10)))
          (put_inBounds hb .buf _ (by omega)) (by omega)
        rw [hlen, List.append_assoc] at hnext
        exact hnext
      · rw [List.append_nil]
        exact ⟨rfl, h, hb⟩

theorem reverseLoop_spec {ds : List Byte} (n : Nat) {text : List Byte}
    (h : Holds (b.cells .tmp) text) (hds : Holds (b.cells .buf) ds) (hb : b.InBounds)
    (hn : n ≤ ds.length) (hfit : text.length + n ≤ 15) :
    (reverseLoop n text.length b).2 = (text ++ (ds.take n).reverse).length ∧
      Holds ((reverseLoop n text.length b).1.cells .tmp) (text ++ (ds.take n).reverse) ∧
      (reverseLoop n text.length b).1.InBounds := by
  induction n generalizing b text with
  | zero =>
      rw [List.take_zero, List.reverse_nil, List.append_nil]
      exact ⟨rfl, h, hb⟩
  | succ n ih =>
      have hbyte : b.cells .buf n = ds[n] := hds n (by omega)
      have hbuf : Holds ((b.put .tmp text.length ds[n]).cells .buf) ds := by
        rw [put_other _ _ (by decide)]
        exact hds
      have hlen : (text ++ [ds[n]]).length = text.length + 1 := List.length_append
      have hnext := ih (h.put ds[n]) hbuf (put_inBounds hb .tmp _ (by omega)) (by omega)
        (by omega)
      rw [reverseLoop, hbyte, List.take_succ_eq_append_getElem (by omega), List.reverse_append,
        List.reverse_singleton, ← List.append_assoc]
      rw [hlen] at hnext
      exact hnext

theorem suffixLoop_spec (rest : List Byte) {text : List Byte} (h : Holds (b.cells .tmp) text)
    (hb : b.InBounds) (hfit : text.length ≤ 15) :
    (suffixLoop rest text.length b).2 = (text ++ rest.take (15 - text.length)).length ∧
      Holds ((suffixLoop rest text.length b).1.cells .tmp)
        (text ++ rest.take (15 - text.length)) ∧
      (suffixLoop rest text.length b).1.InBounds := by
  induction rest generalizing b text with
  | nil =>
      rw [List.take_nil, List.append_nil]
      exact ⟨rfl, h, hb⟩
  | cons c rest ih =>
      rw [suffixLoop]
      split
      · rename_i hlt
        have hlen : (text ++ [c]).length = text.length + 1 := List.length_append
        have hroom : 15 - text.length = 15 - (text ++ [c]).length + 1 := by omega
        have hnext := ih (h.put c) (put_inBounds hb .tmp _ (by omega)) (by omega)
        rw [hroom, List.take_succ_cons, ← List.singleton_append, ← List.append_assoc]
        rw [hlen] at hnext ⊢
        exact hnext
      · rename_i hge
        rw [show 15 - text.length = 0 by omega, List.take_zero, List.append_nil]
        exact ⟨rfl, h, hb⟩

theorem length_reverseDigits (room : Nat) (pid : Int) : (reverseDigits room pid).length ≤ room := by
  induction room generalizing pid with
  | zero => exact le_rfl
  | succ room ih =>
      rw [reverseDigits]
      split
      · exact Nat.succ_le_succ (ih _)
      · exact Nat.zero_le _

theorem pidText_spec (pid : Int) (hb : b.InBounds) :
    (pidText pid b).2 = (reverseDigits 15 pid).reverse.length ∧
      Holds ((pidText pid b).1.cells .tmp) (reverseDigits 15 pid).reverse ∧
      (pidText pid b).1.InBounds := by
  rw [pidText]
  split
  · rename_i hzero
    subst hzero
    exact ⟨rfl, Holds.nil _, put_inBounds (put_inBounds hb _ _ (by decide)) _ _ (by decide)⟩
  · have hlen := length_reverseDigits 15 pid
    obtain ⟨hindex, hdigits, hbounds⟩ := digitLoop_spec 15 pid (Holds.nil (b.cells .buf)) hb le_rfl
    rw [List.nil_append] at hindex hdigits
    -- The NUL behind the digits is stored and never read.
    have hreversed := reverseLoop_spec (reverseDigits 15 pid).length (Holds.nil _)
      (hdigits.put 0).left (put_inBounds hbounds .buf 0 (by omega)) le_rfl
      (by rw [List.length_nil]; omega)
    rw [List.take_length, List.nil_append] at hreversed
    dsimp only
    rw [show (digitLoop 15 0 pid b).2 = (reverseDigits 15 pid).length from hindex]
    exact hreversed

theorem defaultText_spec (pid : Int) (hb : b.InBounds) :
    Holds ((defaultText pid b).cells .tmp) (defaultName pid ++ [0]) ∧
      (defaultText pid b).InBounds := by
  have hlen : (reverseDigits 15 pid).reverse.length ≤ 15 := by
    rw [List.length_reverse]
    exact length_reverseDigits 15 pid
  obtain ⟨hindex, hdigits, hbounds⟩ := pidText_spec pid hb
  obtain ⟨hend, htext, hbounds'⟩ := suffixLoop_spec procText hdigits hbounds hlen
  have htake : (procText.take (15 - (reverseDigits 15 pid).reverse.length)).length ≤
      15 - (reverseDigits 15 pid).reverse.length := List.length_take_le _ _
  rw [defaultText, hindex, hend]
  refine ⟨htext.put 0, put_inBounds hbounds' .tmp 0 ?_⟩
  rw [List.length_append]
  omega

end Text

section Fields

variable {b : Buffers} {text : List Byte}

theorem length_fieldFor (text : List Byte) : (fieldFor text).length = 16 := by
  have hle : (text.take 15).length ≤ 15 := List.length_take_le _ _
  rw [fieldFor, List.length_append, List.length_replicate]
  omega

theorem getD_fieldFor {i : Nat} (hi : i < 15) : (fieldFor text).getD i 0 = text.getD i 0 := by
  have htake : (text.take 15).getD i 0 = text.getD i 0 := by
    rw [List.getD_eq_getElem?_getD, List.getElem?_take_of_lt hi, List.getD_eq_getElem?_getD]
  rw [fieldFor, ← htake]
  rcases Nat.lt_or_ge i (text.take 15).length with hlt | hge
  · rw [List.getD_append _ _ _ _ hlt]
  · rw [List.getD_append_right _ _ _ _ hge, List.getD_eq_default _ _ hge, getD_replicate_zero]

theorem strncpy_holds {src : Nat → Byte} (h : Holds src (text ++ [0])) (hnul : 0 ∉ text) :
    strncpy src 15 b = putAll (namePointers src) 0 b (storedText 15 text) := by
  apply FieldCopy.strncpy_eq text hnul
  intro k _ hle
  have hread := h k (by rw [List.length_append, List.length_singleton]; omega)
  refine hread.trans ?_
  rcases Nat.eq_or_lt_of_le hle with rfl | hlt
  · rw [List.getElem_concat_length rfl, List.getD_eq_default _ _ le_rfl]
  · rw [List.getElem_append_left hlt, List.getD_eq_getElem _ _ hlt]

theorem nameBytes_copied {src : Nat → Byte} (h : Holds src (text ++ [0])) (hnul : 0 ∉ text) :
    ((strncpy src 15 b).put .name 15 0).nameBytes = fieldFor text := by
  apply List.ext_getElem
  · rw [length_fieldFor, Buffers.nameBytes, List.length_map, List.length_range]
  intro i hi hi'
  rw [Buffers.nameBytes, List.length_map, List.length_range] at hi
  simp only [Buffers.nameBytes, List.getElem_map, List.getElem_range]
  rw [← List.getD_eq_getElem _ 0 hi', strncpy_holds h hnul]
  rcases Nat.lt_succ_iff_lt_or_eq.mp hi with hlt | rfl
  · have hstored := putAll_cells src b 0 (lt_of_lt_of_le hlt (le_length_storedText 15 text))
    rw [Nat.zero_add] at hstored
    rw [put_of_ne 0 (Nat.ne_of_lt hlt), hstored, getD_storedText text hlt, getD_fieldFor hlt]
  · have htake : (text.take 15).length ≤ 15 := List.length_take_le _ _
    rw [put_self, fieldFor, List.getD_append_right _ _ _ _ htake, getD_replicate_zero]

theorem strncpy_inBounds {src : Nat → Byte} (h : Holds src (text ++ [0])) (hnul : 0 ∉ text)
    (hb : b.InBounds) : (strncpy src 15 b).InBounds := by
  rw [strncpy_holds h hnul]
  have hlen := length_storedText_le 15 text
  exact putAll_inBounds hb (by omega)

theorem putAll_set (read : List Byte → Nat → Byte) (front back : List Byte) {old : List Byte}
    (hlen : old.length = text.length) :
    putAll ⟨read, List.set⟩ front.length (front ++ old ++ back) text = front ++ text ++ back := by
  induction text generalizing front old with
  | nil =>
      rw [List.length_eq_zero_iff.mp hlen]
      rfl
  | cons c text ih =>
      obtain ⟨o, old, rfl⟩ := List.exists_cons_of_length_eq_add_one hlen
      have hset : (front ++ o :: old ++ back).set front.length c = front ++ [c] ++ old ++ back := by
        rw [List.append_assoc, List.set_append_right _ _ le_rfl, Nat.sub_self, List.cons_append,
          List.set_cons_zero, List.append_assoc, List.append_assoc]
        rfl
      have hlength : front.length + 1 = (front ++ [c]).length := by
        rw [List.length_append, List.length_singleton]
      rw [putAll]
      dsimp only
      rw [hset, hlength, ih _ (Nat.succ.inj hlen), List.append_assoc front]
      rfl

theorem strncpy_field {n : Nat} {field : List Byte} (hfield : n + 1 ≤ field.length)
    (hnul : 0 ∉ text) :
    ProcessTable.strncpy field text n =
      storedText n text ++ field.drop (storedText n text).length := by
  have hlen := length_storedText_le n text
  rw [ProcessTable.strncpy, FieldCopy.strncpy_eq text hnul fun _ _ _ => rfl]
  have hstored := putAll_set (fun _ i => text.getD i 0) []
    (field.drop (storedText n text).length) (List.length_take_of_le (hlen.trans hfield))
  rw [List.nil_append, List.take_append_drop] at hstored
  exact hstored

theorem copyName_eq {field : List Byte} (hfield : field.length = 16) (hnul : 0 ∉ text) :
    copyName field text = fieldFor text := by
  have hlen := length_storedText 15 text
  rw [copyName, strncpy_field hfield.ge hnul, fieldFor]
  by_cases hlong : 15 ≤ text.length
  · rw [if_pos hlong] at hlen
    obtain ⟨x, hx⟩ : ∃ x, field.drop 15 = [x] :=
      List.length_eq_one_iff.mp (by rw [List.length_drop, hfield])
    have hset := List.set_append_right (s := storedText 15 text) (t := [x]) 15 (0 : Byte) hlen.le
    rw [hlen, hx, hset, hlen, storedText, if_pos hlong, List.length_take, Nat.min_eq_left hlong]
    rfl
  · rw [if_neg hlong] at hlen
    have hshort : text.length ≤ 15 := by omega
    rw [hlen, List.drop_eq_nil_of_le hfield.le, List.append_nil, storedText, if_neg hlong,
      ← List.replicate_succ, List.set_append_right _ _ hshort, List.set_replicate_self,
      List.take_of_length_le hshort, show 16 - text.length = 15 - text.length + 1 by omega]

end Fields

section Digits

theorem reverseDigits_eq (room : Nat) {n : Nat} (h : n < 10 ^ room) :
    reverseDigits room n = (Nat.digits 10 n).map fun d => BitVec.ofNat 8 (48 + d) := by
  induction room generalizing n with
  | zero =>
      obtain rfl : n = 0 := by simpa using h
      rfl
  | succ room ih =>
      rw [reverseDigits]
      rcases Nat.eq_zero_or_pos n with rfl | hpos
      · rfl
      · have hrest : n / 10 < 10 ^ room := by
          rw [pow_succ] at h
          omega
        have hbyte : BitVec.ofInt 8 (48 + (n : Int) % 10) = BitVec.ofNat 8 (48 + n % 10) := by
          have hcast : (48 + (n : Int) % 10) = ((48 + n % 10 : Nat) : Int) := by push_cast; rfl
          rw [hcast, BitVec.ofInt_natCast]
        rw [if_pos (by omega), Nat.digits_def' (by decide) hpos, List.map_cons, hbyte, ← ih hrest]
        rfl

theorem mem_reverseDigits {room : Nat} {pid : Int} {c : Byte} (h : c ∈ reverseDigits room pid) :
    ∃ d < 10, c = BitVec.ofNat 8 (48 + d) := by
  induction room generalizing pid with
  | zero => cases h
  | succ room ih =>
      rw [reverseDigits] at h
      split at h
      · rcases List.mem_cons.mp h with rfl | h
        · refine ⟨(pid % 10).toNat, by omega, ?_⟩
          have hcast : 48 + pid % 10 = ((48 + (pid % 10).toNat : Nat) : Int) := by omega
          rw [hcast, BitVec.ofInt_natCast]
        · exact ih h
      · cases h

theorem digitByte_ne {d : Nat} (hd : d < 10) :
    BitVec.ofNat 8 (48 + d) ≠ 0 ∧ BitVec.ofNat 8 (48 + d) ≠ 112 := by
  interval_cases d <;> decide

theorem zero_notMem_defaultName (pid : Int) : 0 ∉ defaultName pid := by
  intro h
  rcases List.mem_append.mp h with hdigit | hsuffix
  · obtain ⟨d, hd, hzero⟩ := mem_reverseDigits (List.mem_reverse.mp hdigit)
    exact (digitByte_ne hd).1 hzero.symm
  · exact absurd (List.mem_of_mem_take hsuffix) (by decide)

theorem decimal_injective {p q : Nat} (h : decimal p = decimal q) : p = q := by
  have hback : ∀ n, (decimal n).map (fun c => c.toNat - 48) = (Nat.digits 10 n).reverse := by
    intro n
    rw [decimal, List.map_map]
    refine (List.map_congr_left fun d hd => ?_).trans (List.map_id _)
    have hlt : d < 10 := Nat.digits_lt_base (by decide) (List.mem_reverse.mp hd)
    simp only [Function.comp_apply, BitVec.toNat_ofNat, id_eq]
    omega
  have hdigits := congrArg (List.map fun c : Byte => c.toNat - 48) h
  rw [hback, hback, List.reverse_inj] at hdigits
  exact Nat.digits.injective 10 hdigits

theorem length_decimal_le {n : Nat} (h : n < 10 ^ 10) : (decimal n).length ≤ 10 := by
  rw [decimal, List.length_map, List.length_reverse]
  exact (Nat.digits_length_le_iff (by decide) n).mpr h

theorem defaultName_eq {pid : Int} (hpos : 1 ≤ pid) (hmax : pid ≤ intMax) :
    defaultName pid = decimal pid.toNat ++ procText ∧ (decimal pid.toNat).length ≤ 10 := by
  have hlt : pid.toNat < 10 ^ 10 := by
    unfold intMax at hmax
    omega
  have hlen := length_decimal_le hlt
  have hdigits : (reverseDigits 15 pid).reverse = decimal pid.toNat := by
    conv_lhs => rw [← Int.toNat_of_nonneg (show 0 ≤ pid by omega)]
    rw [reverseDigits_eq 15 (by omega), decimal, List.map_reverse]
  refine ⟨?_, hlen⟩
  rw [defaultName, hdigits, List.take_of_length_le]
  show 4 ≤ _
  omega

theorem decimal_of_name_eq {p q : Nat} {rest rest' : List Byte}
    (h : decimal p ++ procText ++ rest = decimal q ++ procText ++ rest') : p = q := by
  have htext : ∀ (n : Nat) (tail : List Byte),
      (decimal n ++ procText ++ tail).takeWhile (· ≠ 112) = decimal n := by
    intro n tail
    have hdigit : ∀ c ∈ decimal n, decide (c ≠ 112) = true := by
      intro c hc
      obtain ⟨d, hd, rfl⟩ := List.mem_map.mp hc
      have hlt : d < 10 := Nat.digits_lt_base (by decide) (List.mem_reverse.mp hd)
      exact decide_eq_true (digitByte_ne hlt).2
    rw [List.append_assoc, List.takeWhile_append_of_pos hdigit]
    exact List.append_nil _
  apply decimal_injective
  rw [← htext p rest, ← htext q rest', h]

end Digits

section Processes

open ShlteOs.SchedulerInvariant (createProcess_cases initProcess_boot)
open ShlteOs.InitialContext (pageProcess afterInit pageProcess_created)

variable {s : Scheduler} {c : Creation} {i : Slot}

/-- The arrays before the name is written: what the slot holds, and anything in
`tmp` and `buf`. -/
def unnamed (field : List Byte) (junk : Area → Nat → Byte) : Buffers where
  cells := Function.update junk .name (field.getD · 0)
  writes := []

theorem nameField_bytes (name : Option (List Byte)) (pid : Int) {b : Buffers} (hb : b.InBounds)
    (hname : ∀ text, name = some text → 0 ∉ text) :
    (nameField name pid b).nameBytes = fieldFor (name.getD (defaultName pid)) ∧
      (nameField name pid b).InBounds := by
  cases name with
  | none =>
      obtain ⟨htext, hbounds⟩ := defaultText_spec pid hb
      exact ⟨nameBytes_copied htext (zero_notMem_defaultName pid),
        put_inBounds (strncpy_inBounds htext (zero_notMem_defaultName pid) hbounds) .name 0
          (by decide)⟩
  | some text =>
      have htext : Holds (text.getD · 0) (text ++ [0]) := by
        intro j hj
        rw [List.length_append, List.length_singleton] at hj
        rcases Nat.lt_succ_iff_lt_or_eq.mp hj with hlt | rfl
        · rw [List.getElem_append_left hlt]
          exact List.getD_eq_getElem _ _ hlt
        · rw [List.getElem_concat_length rfl]
          exact List.getD_eq_default _ _ le_rfl
      exact ⟨nameBytes_copied htext (hname text rfl),
        put_inBounds (strncpy_inBounds htext (hname text rfl) hb) .name 0 (by decide)⟩

theorem created_name (hcreated : (c.apply s).1 = some i) (hfield : (s.table i).name.length = 16)
    (hname : ∀ text, c.name = some text → 0 ∉ text) :
    ((c.apply s).2.table i).name = fieldFor (c.name.getD (defaultName s.nextPid)) := by
  rcases createProcess_cases s c.entry c.stack c.stackSize c.name with
    ⟨-, heq⟩ | ⟨j, mem, -, heq⟩
  · rw [Creation.apply, heq] at hcreated
    cases hcreated
  · rw [Creation.apply, heq] at hcreated ⊢
    obtain rfl : j = i := Option.some.inj hcreated
    have hrecord := congrArg Record.name (recordOf_newProcess s j c)
    simp only [Scheduler.setProcess, Function.update_self]
    refine hrecord.trans (copyName_eq hfield ?_)
    cases hc : c.name with
    | none => exact zero_notMem_defaultName s.nextPid
    | some text => exact hname text hc

theorem created_default_name (hcreated : (c.apply s).1 = some i)
    (hfield : (s.table i).name.length = 16) (hnone : c.name = none) (hpos : 1 ≤ s.nextPid)
    (hmax : s.nextPid ≤ intMax) :
    ((c.apply s).2.table i).name = decimal s.nextPid.toNat ++ procText ++
      List.replicate (12 - (decimal s.nextPid.toNat).length) 0 := by
  obtain ⟨hdefault, hlen⟩ := defaultName_eq hpos hmax
  have hproc : procText.length = 4 := rfl
  have hshort : (decimal s.nextPid.toNat ++ procText).length ≤ 15 := by
    rw [List.length_append]
    omega
  rw [created_name hcreated hfield (by rw [hnone]; intro text h; cases h), hnone, Option.getD_none,
    hdefault, fieldFor, List.take_of_length_le hshort, List.length_append, hproc,
    Nat.sub_add_eq, Nat.sub_right_comm]

/-- The name `create_process` leaves in the slot, and its stores on the way. -/
structure Named (s : Scheduler) (c : Creation) (i : Slot) (junk : Area → Nat → Byte) : Prop where
  given : ∀ text, c.name = some text → ((c.apply s).2.table i).name = fieldFor text
  default : c.name = none → 1 ≤ s.nextPid → s.nextPid ≤ intMax →
    ((c.apply s).2.table i).name = decimal s.nextPid.toNat ++ procText ++
      List.replicate (12 - (decimal s.nextPid.toNat).length) 0
  distinct : c.name = none → 1 ≤ s.nextPid → s.nextPid ≤ intMax →
    ∀ (s' : Scheduler) (c' : Creation) (i' : Slot), (c'.apply s').1 = some i' →
      (s'.table i').name.length = 16 → c'.name = none → 1 ≤ s'.nextPid → s'.nextPid ≤ intMax →
      s'.nextPid ≠ s.nextPid → ((c'.apply s').2.table i').name ≠ ((c.apply s).2.table i).name
  stored : ((c.apply s).2.table i).name =
    (nameField c.name s.nextPid (unnamed (s.table i).name junk)).nameBytes
  inBounds : (nameField c.name s.nextPid (unnamed (s.table i).name junk)).InBounds

/-- A created process has the first 15 bytes of the name it was given, or the
digits of its pid followed by `proc`, and no store leaves the 16 bytes of the
field or of the two temporaries. -/
theorem createProcess_named (s : Scheduler) (c : Creation) (i : Slot) (junk : Area → Nat → Byte)
    (hcreated : (c.apply s).1 = some i) (hfield : (s.table i).name.length = 16)
    (hname : ∀ text, c.name = some text → 0 ∉ text) : Named s c i junk := by
  have hfresh : (unnamed (s.table i).name junk).InBounds := fun _ hw => absurd hw List.not_mem_nil
  obtain ⟨hbytes, hbounds⟩ := nameField_bytes c.name s.nextPid hfresh hname
  have hcopied := created_name hcreated hfield hname
  refine ⟨?_, ?_, ?_, hcopied.trans hbytes.symm, hbounds⟩
  · intro text htext
    rw [hcopied, htext, Option.getD_some]
  · exact fun hnone hpos hmax => created_default_name hcreated hfield hnone hpos hmax
  · intro hnone hpos hmax s' c' i' hcreated' hfield' hnone' hpos' hmax' hne hsame
    rw [created_default_name hcreated' hfield' hnone' hpos' hmax',
      created_default_name hcreated hfield hnone hpos hmax] at hsame
    have hpid := decimal_of_name_eq hsame
    omega

theorem createProcess_named_first : Named afterInit pageProcess 1 fun _ _ => 0 :=
  createProcess_named afterInit pageProcess 1 _ pageProcess_created
    (by
      show ((initProcess _).table 1).name.length = 16
      rw [initProcess_boot]
      rfl)
    (fun text h => by cases h)

end Processes

end ShlteOs.ProcessNames
