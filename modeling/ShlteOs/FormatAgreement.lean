import ShlteOs.FormatReads

/-!
The two formatters on formats of literal characters, `%s`, `%c` and `%%`.  Each
of them is shown to put the text the format stands for, character by character,
as long as there is room; the stores of one are then the stores of the other.
-/

namespace ShlteOs.FormatAgreement

open ShlteOs.ByteMemory
open ShlteOs.BufferCursor
open ShlteOs.StringFormat (Strings ch chs convert emit limit stringArg vsprintf)
open ShlteOs.BoundedFormatting (formatLoop_nul formatLoop_literal formatLoop_directive)
open ShlteOs.PrintkFormat
open ShlteOs.PrintkBounds (Expands wrapInt_eq vsprintfImpl_eq)
open ShlteOs.FormatReads (parseHeader directive_of_header expands_nul expands_literal_iff
  expands_directive_iff)

/-- A part of a format together with its argument. -/
inductive Item (strings : Strings) where
  | literal (c : Byte) (hnul : c ≠ 0) (hc : c ≠ ch '%')
  | string (s : Word) (t : List Byte) (ht : stringArg strings s = some t)
  | char (v : Word)
  | percent

variable {strings : Strings}

/-- How an item is written in a format. -/
def Item.chars : Item strings → List Byte
  | .literal c _ _ => [c]
  | .string _ _ _ => [ch '%', ch 's']
  | .char _ => [ch '%', ch 'c']
  | .percent => [ch '%', ch '%']

/-- The arguments an item takes. -/
def Item.args : Item strings → List Word
  | .literal _ _ _ => []
  | .string s _ _ => [s]
  | .char v => [v]
  | .percent => []

/-- What an item is printed as. -/
def Item.text : Item strings → List Byte
  | .literal c _ _ => [c]
  | .string _ t _ => t
  | .char v => [v.setWidth 8]
  | .percent => [ch '%']

def format (items : List (Item strings)) : List Byte := items.flatMap Item.chars

def arguments (items : List (Item strings)) : List Word := items.flatMap Item.args

def expanded (items : List (Item strings)) : List Byte := items.flatMap Item.text

section Vsprintf

theorem emit_text {out : Cursor Byte} {t : List Byte} (h : out.pos + t.length ≤ limit) :
    emit out (.text t) = out.putAll t := by
  rw [emit, if_neg (Nat.not_lt.mpr h), List.take_length]

theorem formatLoop_item (item : Item strings) (fmt : List Byte) (ap : List Word)
    {out : Cursor Byte} (h : out.pos + item.text.length < limit) :
    StringFormat.formatLoop strings (item.chars ++ fmt) (item.args ++ ap) out =
      StringFormat.formatLoop strings fmt ap (out.putAll item.text) := by
  have hlt : out.pos < limit := by omega
  cases item with
  | literal c hnul hc => exact formatLoop_literal strings hc hnul hlt fmt ap
  | string s t ht =>
      have hconv : convert strings (ch 's') (s :: ap) = some (.text t, ap) := by
        simp only [convert, if_true, StringFormat.vaArg, ht, Option.bind_eq_bind,
          Option.bind_some]
      have hfits : out.pos + t.length ≤ limit := Nat.le_of_lt h
      refine (formatLoop_directive strings hlt (ch 's') fmt (s :: ap)).trans ?_
      rw [hconv, Option.bind_some, emit_text hfits]
      rfl
  | char v => exact formatLoop_directive strings hlt (ch 'c') fmt (v :: ap)
  | percent => exact formatLoop_directive strings hlt (ch '%') fmt ap

theorem formatLoop_items (items : List (Item strings)) (tail : List Byte) (spare : List Word)
    {out : Cursor Byte} (h : out.pos + (expanded items).length < limit) :
    StringFormat.formatLoop strings (format items ++ 0 :: tail) (arguments items ++ spare) out =
      some (out.putAll (expanded items)) := by
  induction items generalizing out with
  | nil => exact formatLoop_nul strings tail spare out
  | cons item items ih =>
      rw [expanded, List.flatMap_cons, ← expanded] at h ⊢
      rw [List.length_append] at h
      rw [format, List.flatMap_cons, ← format, arguments, List.flatMap_cons, ← arguments,
        List.append_assoc, List.append_assoc, formatLoop_item item _ _ (by omega),
        ih (by rw [Cursor.putAll_pos]; omega), Cursor.putAll, Cursor.putAll, Cursor.putAll,
        List.foldl_append]

end Vsprintf

section VsprintfImpl

/-- The output `e` shows the character `c`. -/
def Shows (e : Emit) (c : Byte) : Prop := e = .literal c ∨ e = .counted c ∨ e = .forced c

theorem put_shows {lim : Int} {out : Printed} {e : Emit} {c : Byte}
    (hroom : (out.cursor.pos : Int) < lim) (h : Shows e c) :
    put lim out e = ⟨out.cursor.put c, out.written + 1⟩ := by
  rcases h with rfl | rfl | rfl
  · exact if_pos hroom
  · exact if_pos hroom
  · rfl

theorem foldl_put_shows {lim : Int} {out : Printed} {es : List Emit} {t : List Byte}
    (h : List.Forall₂ Shows es t) (hroom : (out.cursor.pos + t.length : Int) ≤ lim) :
    es.foldl (put lim) out = ⟨out.cursor.putAll t, out.written + t.length⟩ := by
  induction h generalizing out with
  | nil => simp [Cursor.putAll]
  | @cons e c es t he hes ih =>
      rw [List.length_cons] at hroom
      rw [List.foldl_cons, put_shows (by omega) he, ih (by rw [Cursor.put_pos]; omega),
        List.length_cons]
      have hwritten :
          out.written + 1 + (t.length : Int) = out.written + ((t.length + 1 : Nat) : Int) := by
        omega
      exact congrArg (Printed.mk _) hwritten

theorem forall₂_counted (t : List Byte) : List.Forall₂ Shows (t.map .counted) t := by
  rw [List.forall₂_map_left_iff]
  exact List.forall₂_same.mpr fun c _ => .inr (.inl rfl)

theorem stringField_plain {t : List Byte} (h : t.length < 2 ^ 31) :
    stringField {} 0 (-1) t = t.map .counted := by
  have hlen : wrapInt t.length = t.length := by
    rw [wrapInt_eq]
    split_ifs
    · omega
    · omega
  have hpad : (wrapInt (0 - wrapInt t.length)).toNat = 0 := by
    rw [hlen, wrapInt_eq]
    split_ifs
    · omega
    · omega
  have hslen : ¬ ((0 : Int) ≤ -1 ∧ (-1 : Int) < wrapInt t.length) := by omega
  simp only [stringField, if_neg hslen, padding, hpad, List.replicate_zero, List.take_length,
    Bool.false_eq_true, if_false, List.nil_append, List.append_nil]

theorem directive_plain {spec : Byte} {fmt : List Byte}
    (hheader : parseHeader (spec :: fmt) = some (({}, 0, -1, .none), spec :: fmt))
    {ap ap' : List Word} {es : List Emit}
    (hconv : conversion strings {} 0 (-1) .none spec ap = some (es, ap')) :
    directive strings (spec :: fmt) ap = some (es, fmt, ap') := by
  rw [directive_of_header strings hheader]
  simp only [hconv, Option.map_some]

theorem expands_item (item : Item strings) (hlen : item.text.length < 2 ^ 31) {fmt : List Byte}
    {ap : List Word} {es : List Emit} (h : Expands strings fmt ap es) :
    ∃ es', List.Forall₂ Shows es' item.text ∧
      Expands strings (item.chars ++ fmt) (item.args ++ ap) (es' ++ es) := by
  cases item with
  | literal c hnul hc =>
      exact ⟨[.literal c], .cons (.inl rfl) .nil,
        (expands_literal_iff strings hnul hc fmt ap _).mpr ⟨es, h, rfl⟩⟩
  | string s t ht =>
      have hfetch : conversion strings {} 0 (-1) .none (ch 's') (s :: ap) =
          (stringArg strings s).bind fun t => some (stringField {} 0 (-1) t, ap) := rfl
      have hfield : stringField {} 0 (-1) t = t.map .counted := stringField_plain hlen
      rw [ht, Option.bind_some, hfield] at hfetch
      exact ⟨t.map .counted, forall₂_counted t,
        (expands_directive_iff strings _ _ _).mpr ⟨_, _, _, es, directive_plain rfl hfetch, h, rfl⟩⟩
  | char v =>
      exact ⟨[.forced (v.setWidth 8)], .cons (.inr (.inr rfl)) .nil,
        (expands_directive_iff strings _ _ _).mpr ⟨_, _, _, es, directive_plain rfl rfl, h, rfl⟩⟩
  | percent =>
      exact ⟨[.counted (ch '%')], .cons (.inr (.inl rfl)) .nil,
        (expands_directive_iff strings _ _ _).mpr ⟨_, _, _, es, directive_plain rfl rfl, h, rfl⟩⟩

theorem expands_items (items : List (Item strings)) (hlen : (expanded items).length < 2 ^ 31)
    (tail : List Byte) (spare : List Word) :
    ∃ es, List.Forall₂ Shows es (expanded items) ∧
      Expands strings (format items ++ 0 :: tail) (arguments items ++ spare) es := by
  induction items with
  | nil => exact ⟨[], .nil, expands_nul strings tail spare⟩
  | cons item items ih =>
      rw [expanded, List.flatMap_cons, ← expanded] at hlen ⊢
      rw [List.length_append] at hlen
      obtain ⟨es, hshows, hes⟩ := ih (by omega)
      obtain ⟨es', hshows', hes'⟩ := expands_item item (by omega) hes
      refine ⟨es' ++ es, List.rel_append hshows' hshows, ?_⟩
      rw [format, List.flatMap_cons, ← format, arguments, List.flatMap_cons, ← arguments,
        List.append_assoc, List.append_assoc]
      exact hes'

end VsprintfImpl

/-- The buffer holds the text and a NUL behind it, and nothing is stored further
on. -/
structure Holds (t : List Byte) (log : Log Byte) : Prop where
  text : ∀ k < t.length, content log k = t[k]?
  nul : content log t.length = some 0
  inside : Inside (t.length + 1) log

theorem holds_putAll (t : List Byte) :
    Holds t ((t.length, 0) :: (Cursor.start.putAll t).log) := by
  have hpos : (Cursor.start.putAll t).pos = t.length := by
    rw [Cursor.putAll_pos]
    exact Nat.zero_add _
  refine ⟨?_, content_cons_self _ _ _, ?_⟩
  · intro k hk
    rw [content_cons_of_ne _ (Nat.ne_of_lt hk)]
    have hcontent := Cursor.content_putAll Cursor.start t hk
    rwa [show Cursor.start.pos + k = k from Nat.zero_add k] at hcontent
  · have htrails := Cursor.Trails.putAll Cursor.trails_start t
    rw [Cursor.Trails, hpos] at htrails
    exact inside_cons.mpr ⟨Nat.lt_succ_self _, htrails.mono (Nat.le_succ _)⟩

theorem vsprintf_items (items : List (Item strings)) (tail : List Byte) (spare : List Word)
    (h : (expanded items).length ≤ 510) :
    vsprintf strings (format items ++ 0 :: tail) (arguments items ++ spare) =
      some
        { log := ((expanded items).length, 0) :: (Cursor.start.putAll (expanded items)).log
          ret := (expanded items).length } := by
  have hzero : (Cursor.start : Cursor Byte).pos = 0 := rfl
  have hloop := formatLoop_items items tail spare
    (show (Cursor.start : Cursor Byte).pos + (expanded items).length < limit by
      rw [hzero, limit]
      omega)
  have hshort : ¬ (expanded items).length > limit := by
    rw [limit]
    omega
  simp only [vsprintf, hloop, Option.map_some, Cursor.putAll_pos, hzero, Nat.zero_add,
    if_neg hshort]

theorem vsprintfImpl_items (items : List (Item strings)) (tail : List Byte) (spare : List Word)
    (h : (expanded items).length ≤ 510) :
    vsprintfImpl strings 512 (format items ++ 0 :: tail) (arguments items ++ spare) =
      some
        { cursor :=
            { pos := (expanded items).length
              log := ((expanded items).length, 0) :: (Cursor.start.putAll (expanded items)).log }
          written := (expanded items).length } := by
  obtain ⟨es, hshows, hes⟩ := expands_items items (by omega) tail spare
  have hzero : Printed.start.cursor.pos = 0 := rfl
  have hroom : roomFor 512 = 511 := by decide
  have hpos : (Cursor.start.putAll (expanded items)).pos = (expanded items).length := by
    rw [Cursor.putAll_pos]
    exact Nat.zero_add _
  have hwritten : Printed.start.written + ((expanded items).length : Int) =
      (expanded items).length := Int.zero_add _
  have hcursor : Printed.start.cursor = Cursor.start := rfl
  rw [vsprintfImpl_eq hes, foldl_put_shows hshows (by rw [hzero, hroom]; omega), hwritten,
    hcursor, terminate, if_pos (by rw [hpos, hroom]; omega)]
  simp only [hpos]

/-- On a text that fits into the buffer of `printk` the two formatters make the
same stores, of the text and a NUL, and both return its length. -/
theorem engines_agree (items : List (Item strings)) (tail : List Byte) (spare : List Word)
    (h : (expanded items).length ≤ 510) :
    ∃ formatted printed,
      vsprintf strings (format items ++ 0 :: tail) (arguments items ++ spare) = some formatted ∧
      vsprintfImpl strings 512 (format items ++ 0 :: tail) (arguments items ++ spare) =
        some printed ∧
      printed.cursor.log = formatted.log ∧ Holds (expanded items) formatted.log ∧
      formatted.ret = (expanded items).length ∧
      printed.written = (expanded items).length :=
  ⟨_, _, vsprintf_items items tail spare h, vsprintfImpl_items items tail spare h, rfl,
    holds_putAll _, rfl, rfl⟩

/-- `"a%s%c%%"` with a NULL string and the character `b`. -/
def nullFormat : List (Item fun _ => none) :=
  [.literal (ch 'a') (by decide) (by decide), .string 0 (chs ['(', 'n', 'u', 'l', 'l', ')']) rfl,
    .char 98, .percent]

theorem engines_agree_nullFormat :
    ∃ formatted printed,
      vsprintf (fun _ => none) (format nullFormat ++ [0]) [0, 98] = some formatted ∧
      vsprintfImpl (fun _ => none) 512 (format nullFormat ++ [0]) [0, 98] = some printed ∧
      printed.cursor.log = formatted.log ∧
      Holds (chs ['a', '(', 'n', 'u', 'l', 'l', ')', 'b', '%']) formatted.log ∧
      formatted.ret = 9 ∧ printed.written = 9 :=
  engines_agree nullFormat [] [] (by decide)

end ShlteOs.FormatAgreement
