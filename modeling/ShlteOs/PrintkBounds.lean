import ShlteOs.BoundedFormatting
import ShlteOs.PrintkFormat

/-!
How far `vsprintf_impl` writes.  The terminator is placed at `str[size - 1]`
when the buffer is full, with `str` the cursor and not the start of the buffer,
so it falls outside as soon as anything has been written.
-/

namespace ShlteOs.PrintkBounds

open ShlteOs.ByteMemory
open ShlteOs.BufferCursor
open ShlteOs.StringFormat (Strings ch)
open ShlteOs.BoundedFormatting (shortFormat)
open ShlteOs.PrintkFormat

/-- The output a format asks for, without any bound. -/
def layout (strings : Strings) : Nat → List Byte → List Word → Option (List Emit)
  | 0, _, _ => none
  | _ + 1, [], _ => none
  | fuel + 1, c :: fmt, ap =>
      if c = 0 then some []
      else if c ≠ ch '%' then (layout strings fuel fmt ap).map (.literal c :: ·)
      else do
        let (es, fmt, ap) ← directive strings fmt ap
        let rest ← layout strings fuel fmt ap
        some (es ++ rest)

/-- The format and its arguments expand to this output. -/
def Expands (strings : Strings) (fmt : List Byte) (ap : List Word) (es : List Emit) : Prop :=
  ∃ fuel, layout strings fuel fmt ap = some es

theorem parseFlags_length {flags flags' : Flags} {fmt rest : List Byte}
    (h : parseFlags flags fmt = some (flags', rest)) : rest.length ≤ fmt.length := by
  induction fmt generalizing flags with
  | nil => simp [parseFlags] at h
  | cons c fmt ih =>
      simp only [parseFlags] at h
      split_ifs at h
      iterate 5 exact (ih h).trans (Nat.le_succ _)
      cases h
      exact Nat.le_refl _

theorem parseDigits_length {acc value : Int} {fmt rest : List Byte}
    (h : parseDigits acc fmt = some (value, rest)) : rest.length ≤ fmt.length := by
  induction fmt generalizing acc with
  | nil => simp [parseDigits] at h
  | cons c fmt ih =>
      simp only [parseDigits] at h
      split_ifs at h
      · exact (ih h).trans (Nat.le_succ _)
      · cases h
        exact Nat.le_refl _

theorem parseWidth_length {width : Int} {fmt rest : List Byte}
    (h : parseWidth fmt = some (width, rest)) : rest.length ≤ fmt.length := by
  cases fmt with
  | nil => simp [parseWidth] at h
  | cons c fmt =>
      simp only [parseWidth] at h
      split_ifs at h
      · exact (parseDigits_length h).trans (Nat.le_succ _)
      · cases h
        exact Nat.le_refl _

theorem parsePrecision_length {precision : Int} {fmt rest : List Byte}
    (h : parsePrecision fmt = some (precision, rest)) : rest.length ≤ fmt.length := by
  cases fmt with
  | nil => simp [parsePrecision] at h
  | cons c fmt =>
      simp only [parsePrecision] at h
      split_ifs at h
      · exact (parseDigits_length h).trans (Nat.le_succ _)
      · cases h
        exact Nat.le_refl _

theorem parseLenMod_length {lenMod : LenMod} {fmt rest : List Byte}
    (h : parseLenMod fmt = some (lenMod, rest)) : rest.length ≤ fmt.length := by
  cases fmt with
  | nil => simp [parseLenMod] at h
  | cons c fmt =>
      simp only [parseLenMod] at h
      split_ifs at h
      · cases fmt with
        | nil => cases h
        | cons d fmt =>
            simp only at h
            split_ifs at h
            · cases h
              simp only [List.length_cons]
              omega
            · cases h
              exact Nat.le_succ _
      · cases h
        exact Nat.le_succ _
      · cases h
        exact Nat.le_refl _

theorem directive_length {strings : Strings} {fmt fmt' : List Byte} {ap ap' : List Word}
    {es : List Emit} (h : directive strings fmt ap = some (es, fmt', ap')) :
    fmt'.length < fmt.length := by
  simp only [directive, Option.bind_eq_bind, Option.bind_eq_some_iff, Prod.exists] at h
  obtain ⟨flags, fmt₁, hflags, width, fmt₂, hwidth, precision, fmt₃, hprecision,
    lenMod, fmt₄, hlenMod, hspec⟩ := h
  have h₁ := parseFlags_length hflags
  have h₂ := parseWidth_length hwidth
  have h₃ := parsePrecision_length hprecision
  have h₄ := parseLenMod_length hlenMod
  cases fmt₄ with
  | nil => cases hspec
  | cons spec fmt₅ =>
      simp only [Option.bind_eq_some_iff, Prod.exists, Option.some.injEq, Prod.mk.injEq] at hspec
      obtain ⟨_, _, -, -, rfl, -⟩ := hspec
      simp only [List.length_cons] at h₄
      omega

theorem layout_enough {strings : Strings} {fuel n : Nat} {fmt : List Byte} {ap : List Word}
    {es : List Emit} (h : layout strings fuel fmt ap = some es) (hn : fmt.length ≤ n) :
    layout strings n fmt ap = some es := by
  induction fuel generalizing n fmt ap es with
  | zero => simp [layout] at h
  | succ fuel ih =>
      cases fmt with
      | nil => simp [layout] at h
      | cons c fmt =>
          obtain ⟨n, rfl⟩ := Nat.exists_eq_succ_of_ne_zero (show n ≠ 0 by
            rintro rfl
            simp at hn)
          have hlen : fmt.length ≤ n := by simpa using hn
          simp only [layout] at h ⊢
          split_ifs at h ⊢
          · exact h
          · obtain ⟨rest, hrest, rfl⟩ := Option.map_eq_some_iff.mp h
            rw [ih hrest hlen]
            rfl
          · simp only [Option.bind_eq_bind, Option.bind_eq_some_iff, Prod.exists] at h ⊢
            obtain ⟨es', fmt', ap', hdir, rest, hrest, hes⟩ := h
            have hshort := directive_length hdir
            exact ⟨es', fmt', ap', hdir, rest, ih hrest (by omega), hes⟩

theorem formatLoop_eq (strings : Strings) (lim : Int) (fuel : Nat) (fmt : List Byte)
    (ap : List Word) (out : Printed) :
    formatLoop strings lim fuel fmt ap out =
      (layout strings fuel fmt ap).map fun es => es.foldl (put lim) out := by
  induction fuel generalizing fmt ap out with
  | zero => rfl
  | succ fuel ih =>
      cases fmt with
      | nil => rfl
      | cons c fmt =>
          simp only [formatLoop, layout]
          split_ifs
          · rfl
          · rw [ih, Option.map_map]
            rfl
          · rcases directive strings fmt ap with _ | ⟨es, fmt', ap'⟩
            · rfl
            · simp only [Option.bind_eq_bind, Option.bind_some, ih]
              rcases layout strings fuel fmt' ap' with _ | rest
              · rfl
              · simp [List.foldl_append]

theorem vsprintfImpl_eq_layout (strings : Strings) (size : Nat) (fmt : List Byte)
    (ap : List Word) :
    vsprintfImpl strings size fmt ap =
      (layout strings fmt.length fmt ap).map fun es =>
        terminate size (es.foldl (put (roomFor size)) .start) := by
  rw [vsprintfImpl, formatLoop_eq, Option.map_map, Function.comp_def]

theorem vsprintfImpl_eq {strings : Strings} {size : Nat} {fmt : List Byte} {ap : List Word}
    {es : List Emit} (h : Expands strings fmt ap es) :
    vsprintfImpl strings size fmt ap =
      some (terminate size (es.foldl (put (roomFor size)) .start)) := by
  obtain ⟨fuel, hfuel⟩ := h
  rw [vsprintfImpl_eq_layout, layout_enough hfuel (Nat.le_refl _)]
  rfl

theorem put_spec (lim : Int) {out : Printed} (e : Emit) (htrails : out.cursor.Trails) :
    (put lim out e).cursor.Trails ∧ out.cursor.pos ≤ (put lim out e).cursor.pos ∧
      ((out.cursor.pos : Int) < lim → (put lim out e).cursor.pos = out.cursor.pos + 1) := by
  cases e with
  | literal c =>
      simp only [put]
      split_ifs with hroom
      · exact ⟨htrails.put c, Nat.le_succ _, fun _ => rfl⟩
      · exact ⟨htrails, Nat.le_refl _, fun h => absurd h hroom⟩
  | counted c =>
      simp only [put]
      split_ifs with hroom
      · exact ⟨htrails.put c, Nat.le_succ _, fun _ => rfl⟩
      · exact ⟨htrails, Nat.le_refl _, fun h => absurd h hroom⟩
  | forced c => exact ⟨htrails.put c, Nat.le_succ _, fun _ => rfl⟩
  | digit =>
      simp only [put]
      split_ifs with hroom
      · exact ⟨htrails.skip, Nat.le_succ _, fun _ => rfl⟩
      · exact ⟨htrails, Nat.le_refl _, fun h => absurd h hroom⟩

theorem foldl_put_spec (lim : Int) (es : List Emit) {out : Printed}
    (htrails : out.cursor.Trails) :
    (es.foldl (put lim) out).cursor.Trails ∧
      out.cursor.pos ≤ (es.foldl (put lim) out).cursor.pos ∧
      ((out.cursor.pos + es.length : Int) ≤ lim →
        (es.foldl (put lim) out).cursor.pos = out.cursor.pos + es.length) ∧
      (lim ≤ out.cursor.pos + es.length → lim ≤ (es.foldl (put lim) out).cursor.pos) := by
  induction es generalizing out with
  | nil => exact ⟨htrails, Nat.le_refl _, fun _ => rfl, fun h => by simpa using h⟩
  | cons e es ih =>
      obtain ⟨htrails', hmono, hmove⟩ := put_spec lim e htrails
      obtain ⟨hfinal, hle, hfits, hfull⟩ := ih htrails'
      simp only [List.foldl_cons, List.length_cons]
      refine ⟨hfinal, hmono.trans hle, ?_, ?_⟩
      · intro h
        have hstep := hmove (by omega)
        rw [hfits (by omega), hstep]
        omega
      · intro h
        by_cases hroom : (out.cursor.pos : Int) < lim
        · have hstep := hmove hroom
          exact hfull (by omega)
        · omega

def isForced : Emit → Bool
  | .forced _ => true
  | _ => false

theorem foldl_put_no_room {lim : Int} (es : List Emit) (out : Printed)
    (hlim : lim ≤ out.cursor.pos) (h : ∀ e ∈ es, isForced e = false) :
    (es.foldl (put lim) out).cursor = out.cursor := by
  induction es generalizing out with
  | nil => rfl
  | cons e es ih =>
      have hroom : ¬ (out.cursor.pos : Int) < lim := by omega
      obtain ⟨he, hes⟩ := List.forall_mem_cons.mp h
      have hput : (put lim out e).cursor = out.cursor := by
        cases e with
        | forced c => cases he
        | _ => simp [put, hroom]
      rw [List.foldl_cons, ih _ (by rwa [hput]) hes, hput]

theorem foldl_put_forced {lim : Int} (es : List Emit) {out : Printed}
    (htrails : out.cursor.Trails) {e : Emit} (he : e ∈ es) (hforced : isForced e = true) :
    out.cursor.pos < (es.foldl (put lim) out).cursor.pos := by
  induction es generalizing out with
  | nil => cases he
  | cons e' es ih =>
      obtain ⟨htrails', hmono, -⟩ := put_spec lim e' htrails
      rw [List.foldl_cons]
      rcases List.mem_cons.mp he with rfl | hmem
      · cases e with
        | forced c =>
            exact Nat.lt_of_lt_of_le (Nat.lt_succ_self _) (foldl_put_spec lim es htrails').2.1
        | _ => cases hforced
      · exact Nat.lt_of_le_of_lt hmono (ih htrails' hmem)

theorem wrapInt_eq (x : Int) :
    wrapInt x = if x % 4294967296 < 2147483648 then x % 4294967296
      else x % 4294967296 - 4294967296 := by
  rw [wrapInt, Int.bmod_def]
  rfl

theorem roomFor_lt (size : Nat) (hsize : 1 ≤ size) : roomFor size < size := by
  rw [roomFor, wrapInt_eq, wrapInt_eq]
  split_ifs <;> omega

/-- All stores stay inside the buffer, and one of its bytes ends up as NUL. -/
def WritesInside (size : Nat) (result : Option Printed) : Prop :=
  ∃ out, result = some out ∧ Inside size out.cursor.log ∧
    ∃ k < size, content out.cursor.log k = some 0

/-- The output is shorter than the room, or there is no room and nothing is
stored without a test. -/
def Fits (size : Nat) (es : List Emit) : Prop :=
  (es.length : Int) < roomFor size ∨ (roomFor size ≤ 0 ∧ ∀ e ∈ es, isForced e = false)

theorem terminate_full {size : Nat} (hsize : 1 ≤ size) {out : Printed}
    (h : roomFor size ≤ out.cursor.pos) :
    (terminate size out).cursor.log = (out.cursor.pos + (size - 1), 0) :: out.cursor.log := by
  rw [terminate, if_neg (Int.not_lt.mpr h), if_pos (Nat.lt_of_succ_le hsize)]

theorem writesInside_of_fits {size : Nat} (hsize : 1 ≤ size) {es : List Emit}
    (h : Fits size es) :
    WritesInside size (some (terminate size (es.foldl (put (roomFor size)) .start))) := by
  obtain ⟨htrails, -, hfits, -⟩ :=
    foldl_put_spec (roomFor size) es (show Printed.start.cursor.Trails from Cursor.trails_start)
  have hlt := roomFor_lt size hsize
  rcases h with hshort | ⟨hno, hforced⟩
  · have hzero : Printed.start.cursor.pos = 0 := rfl
    rw [hzero] at hfits
    have hpos := hfits (by omega)
    have hroom : ((es.foldl (put (roomFor size)) .start).cursor.pos : Int) < roomFor size := by
      omega
    refine ⟨_, rfl, ?_⟩
    rw [terminate, if_pos hroom]
    refine ⟨inside_cons.mpr ⟨by omega, htrails.mono (by omega)⟩, _, ?_, content_cons_self _ _ _⟩
    omega
  · have hcursor := foldl_put_no_room es .start hno hforced
    have hpos : (es.foldl (put (roomFor size)) .start).cursor.pos = 0 := by
      rw [hcursor]
      rfl
    refine ⟨_, rfl, ?_⟩
    rw [terminate_full hsize (by omega), hpos, hcursor]
    refine ⟨inside_cons.mpr ⟨by omega, ?_⟩, _, ?_, content_cons_self _ _ _⟩
    · simp [Inside, Printed.start, Cursor.start]
    · omega

theorem fits_of_writesInside {size : Nat} (hsize : 1 ≤ size) {es : List Emit}
    (h : WritesInside size (some (terminate size (es.foldl (put (roomFor size)) .start)))) :
    Fits size es := by
  have hstart : Printed.start.cursor.Trails := Cursor.trails_start
  obtain ⟨-, -, -, hfull⟩ := foldl_put_spec (roomFor size) es hstart
  have hzero : Printed.start.cursor.pos = 0 := rfl
  rw [hzero] at hfull
  obtain ⟨_, heq, hinside, -⟩ := h
  obtain rfl := Option.some_inj.mp heq
  by_contra hnot
  obtain ⟨hlong, hno⟩ := not_or.mp hnot
  -- The cursor has left the start of the buffer and has no room behind it.
  have hpast : roomFor size ≤ (es.foldl (put (roomFor size)) .start).cursor.pos :=
    hfull (by omega)
  have hmoved : 0 < (es.foldl (put (roomFor size)) .start).cursor.pos := by
    by_cases hroom : roomFor size ≤ 0
    · obtain ⟨e, he, hforced⟩ : ∃ e ∈ es, isForced e = true := by
        by_contra hnone
        apply hno ⟨hroom, ?_⟩
        intro e he
        by_contra hforced
        exact hnone ⟨e, he, by simpa using hforced⟩
      have hlt := @foldl_put_forced (roomFor size) es .start hstart e he hforced
      omega
    · omega
  rw [terminate_full hsize hpast] at hinside
  have hbound := (inside_cons.mp hinside).1
  omega

/-- `vsprintf_impl` stays inside its buffer and terminates the text exactly when
the output fits; for `printk` that means fewer than 511 characters. -/
theorem writesInside_iff_fits (strings : Strings) (size : Nat) (fmt : List Byte)
    (ap : List Word) (es : List Emit) (hsize : 1 ≤ size) (h : Expands strings fmt ap es) :
    (WritesInside size (vsprintfImpl strings size fmt ap) ↔ Fits size es) ∧
      (WritesInside printkBuffer (printk strings fmt ap) ↔ es.length < 511) := by
  have hiff : ∀ {size : Nat}, 1 ≤ size →
      (WritesInside size (vsprintfImpl strings size fmt ap) ↔ Fits size es) := by
    intro size hsize
    rw [vsprintfImpl_eq h]
    exact ⟨fits_of_writesInside hsize, writesInside_of_fits hsize⟩
  have hprintk : Fits printkBuffer es ↔ es.length < 511 := by
    have hroom : roomFor printkBuffer = 511 := by decide
    rw [Fits, hroom]
    omega
  exact ⟨hiff hsize, (hiff (by decide)).trans hprintk⟩

theorem expands_shortFormat (strings : Strings) :
    Expands strings shortFormat [] [.literal 97, .literal 98] :=
  ⟨3, rfl⟩

theorem writesInside_ab_four :
    WritesInside 4 (vsprintfImpl (fun _ => none) 4 shortFormat []) :=
  (writesInside_iff_fits (fun _ => none) 4 shortFormat [] _ (by decide)
    (expands_shortFormat _)).1.mpr (.inl (by decide))

/-- Two characters fill a buffer of two bytes, and the terminator is stored behind
it. -/
theorem not_writesInside_ab_two :
    ¬ WritesInside 2 (vsprintfImpl (fun _ => none) 2 shortFormat []) := by
  rw [vsprintfImpl_eq (expands_shortFormat _)]
  intro h
  have hroom : roomFor 2 = 1 := by decide
  rcases fits_of_writesInside (by decide) h with hshort | ⟨hno, -⟩
  · rw [hroom] at hshort
    simp at hshort
  · rw [hroom] at hno
    omega

end ShlteOs.PrintkBounds
