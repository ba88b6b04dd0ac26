import ShlteOs.BoundedFormatting
import ShlteOs.PrefixParsing
import ShlteOs.PrintkBounds

/-!
How far the two formatters read their format.  Both treat the NUL behind an
unfinished directive as its conversion character and go on behind it.
-/

namespace ShlteOs.FormatReads

open ShlteOs.ByteMemory
open ShlteOs.BufferCursor
open ShlteOs.PrefixParsing
open ShlteOs.StringFormat (Strings ch isDigit convert Conversion emit limit percent_ne_zero)
open ShlteOs.BoundedFormatting (fullText Sound emit_spec sound_start formatLoop_nul
  formatLoop_literal formatLoop_directive)
open ShlteOs.PrintkFormat
open ShlteOs.PrintkBounds (layout layout_enough Expands vsprintfImpl_eq vsprintfImpl_eq_layout)

/-- The characters of a string in front of its NUL. -/
structure CString where
  bytes : List Byte
  noNul : 0 ∉ bytes

/-- The call does the same whatever lies behind the NUL of its format, also when
nothing there can be read. -/
def ReadsWithin {β : Type} (run : List Byte → Option β) (s : CString) : Prop :=
  ∀ tail, run (s.bytes ++ 0 :: tail) = run (s.bytes ++ [0])

/-- The loop of `vsprintf` comes to a `%` that is the last character, with
`room` characters left before its limit. -/
inductive EndsOpen (strings : Strings) : Nat → List Byte → List Word → Prop
  | here {room : Nat} {ap : List Word} (hroom : 0 < room) :
      EndsOpen strings room [ch '%'] ap
  | literal {room : Nat} {c : Byte} {s : List Byte} {ap : List Word} (hroom : 0 < room)
      (hc : c ≠ ch '%') (h : EndsOpen strings (room - 1) s ap) :
      EndsOpen strings room (c :: s) ap
  | directive {room : Nat} {d : Byte} {s : List Byte} {ap ap' : List Word} {conv : Conversion}
      (hroom : 0 < room) (hconv : convert strings d ap = some (conv, ap'))
      (h : EndsOpen strings (room - (fullText conv).length) s ap') :
      EndsOpen strings room (ch '%' :: d :: s) ap

/-- Flags, width, precision and length modifier of a directive. -/
def parseHeader : Parser Byte (Flags × Int × Int × LenMod) :=
  andThen (parseFlags {}) (andThen parseWidth (andThen parsePrecision parseLenMod))

/-- The loop of `vsprintf_impl` comes to a `%` behind which only flags, a width,
a precision and a length modifier follow. -/
inductive EndsInHeader (strings : Strings) : List Byte → List Word → Prop
  | here {s : List Byte} {ap : List Word} {header : Flags × Int × Int × LenMod}
      (hheader : parseHeader (s ++ [0]) = some (header, [0])) :
      EndsInHeader strings (ch '%' :: s) ap
  | literal {c : Byte} {s : List Byte} {ap : List Word} (hc : c ≠ ch '%')
      (h : EndsInHeader strings s ap) : EndsInHeader strings (c :: s) ap
  | directive {s s' : List Byte} {ap ap' : List Word} {es : List Emit}
      (hdir : directive strings (s ++ [0]) ap = some (es, s' ++ [0], ap'))
      (h : EndsInHeader strings s' ap') : EndsInHeader strings (ch '%' :: s) ap

section Vsprintf

variable (strings : Strings)

theorem convert_nul (ap : List Word) : convert strings 0 ap = some (.chars [ch '%', 0], ap) := by
  rfl

/-- An open end runs behind the NUL: with a second one there it stops, and with
nothing there it does not. -/
theorem formatLoop_of_endsOpen {room : Nat} {s : List Byte} {ap : List Word}
    (h : EndsOpen strings room s ap) {out : Cursor Byte} (hsound : Sound out) (hs : 0 ∉ s)
    (hroom : room = limit - out.pos) :
    StringFormat.formatLoop strings (s ++ [0]) ap out = none ∧
      ∃ out', StringFormat.formatLoop strings (s ++ [0, 0]) ap out = some out' := by
  induction h generalizing out with
  | here hpos =>
      have hlt : out.pos < limit := by omega
      rw [List.singleton_append, List.singleton_append, formatLoop_directive strings hlt,
        formatLoop_directive strings hlt, convert_nul]
      exact ⟨rfl, _, formatLoop_nul strings [] _ _⟩
  | @literal room c s ap hpos hc hrest ih =>
      have hlt : out.pos < limit := by omega
      rw [List.mem_cons, not_or] at hs
      rw [List.cons_append, List.cons_append, formatLoop_literal strings hc (Ne.symm hs.1) hlt,
        formatLoop_literal strings hc (Ne.symm hs.1) hlt]
      exact ih (hsound.put hlt c) hs.2 (by rw [Cursor.put_pos]; omega)
  | @directive room d s ap ap' conv hpos hconv hrest ih =>
      have hlt : out.pos < limit := by omega
      obtain ⟨hmoved, hsound'⟩ := emit_spec hconv hlt hsound
      have hs' : 0 ∉ s := fun h => hs (List.mem_cons_of_mem _ (List.mem_cons_of_mem _ h))
      have hnext : room - (fullText conv).length = limit - (emit out conv).pos := by omega
      simp only [List.cons_append]
      rw [formatLoop_directive strings hlt, formatLoop_directive strings hlt, hconv]
      exact ih hsound' hs' hnext

theorem formatLoop_of_not_endsOpen {s : List Byte} {ap : List Word} {out : Cursor Byte}
    (hsound : Sound out) (hs : 0 ∉ s) (h : ¬ EndsOpen strings (limit - out.pos) s ap)
    (tail : List Byte) :
    StringFormat.formatLoop strings (s ++ 0 :: tail) ap out =
      StringFormat.formatLoop strings (s ++ [0]) ap out := by
  induction s, ap, out using StringFormat.formatLoop.induct with
  | case1 ap out => rw [List.nil_append, List.nil_append, formatLoop_nul, formatLoop_nul]
  | case2 c s ap out hstop =>
      rw [StringFormat.formatLoop.eq_def]
      conv_rhs => rw [StringFormat.formatLoop.eq_def]
      simp only [List.cons_append, hstop, if_true]
  | case3 ap out hgo =>
      have hlt : out.pos < limit := not_not.mp fun h => hgo (.inr h)
      exact absurd (.here (by omega)) h
  | case4 ap out d s hgo ih =>
      have hlt : out.pos < limit := not_not.mp fun h => hgo (.inr h)
      have hs' : 0 ∉ s := fun h => hs (List.mem_cons_of_mem _ (List.mem_cons_of_mem _ h))
      simp only [List.cons_append]
      rw [formatLoop_directive strings hlt, formatLoop_directive strings hlt]
      rcases hconv : convert strings d ap with _ | ⟨conv, ap'⟩
      · rfl
      · obtain ⟨hmoved, hsound'⟩ := emit_spec hconv hlt hsound
        refine ih conv ap' hsound' hs' ?_
        rw [hmoved]
        exact fun hrest => h (.directive (by omega) hconv hrest)
  | case5 c s ap out hgo hc ih =>
      have hlt : out.pos < limit := not_not.mp fun h => hgo (.inr h)
      rw [List.mem_cons, not_or] at hs
      rw [List.cons_append, List.cons_append, formatLoop_literal strings hc (Ne.symm hs.1) hlt,
        formatLoop_literal strings hc (Ne.symm hs.1) hlt]
      refine ih (hsound.put hlt c) hs.2 ?_
      have hmoved : limit - (out.put c).pos = limit - out.pos - 1 := by
        rw [Cursor.put_pos]
        omega
      rw [hmoved]
      exact fun hrest => h (.literal (by omega) hc hrest)

theorem vsprintf_readsWithin_iff (s : CString) (ap : List Word) :
    ReadsWithin (fun fmt => StringFormat.vsprintf strings fmt ap) s ↔
      ¬ EndsOpen strings limit s.bytes ap := by
  constructor
  · intro h hopen
    obtain ⟨hnone, out', hsome⟩ :=
      formatLoop_of_endsOpen strings hopen sound_start s.noNul rfl
    have heq := h [0]
    simp only [StringFormat.vsprintf, hnone, hsome] at heq
    cases heq
  · intro h tail
    have heq := formatLoop_of_not_endsOpen strings sound_start s.noNul h tail
    simp only [StringFormat.vsprintf, heq]

end Vsprintf

section Header

/-- One turn of the loop over the flags. -/
def flagStep (flags : Flags) (c : Byte) : Option Flags :=
  if c = ch '+' then some { flags with plus := true }
  else if c = ch ' ' then some { flags with space := true }
  else if c = ch '#' then some { flags with hash := true }
  else if c = ch '0' then some { flags with zero := true }
  else if c = ch '-' then some { flags with left := true }
  else none

/-- One turn of the loop over the digits of a number. -/
def digitStep (acc : Int) (c : Byte) : Option Int :=
  if isDigit c then some (wrapInt (acc * 10 + digitValue c)) else none

theorem parseFlags_eq_scan (flags : Flags) : parseFlags flags = scan flagStep flags := by
  funext s
  induction s generalizing flags with
  | nil => rfl
  | cons c s ih =>
      simp only [parseFlags, scan, flagStep]
      split_ifs
      iterate 5 exact ih _
      rfl

theorem parseDigits_eq_scan (acc : Int) : parseDigits acc = scan digitStep acc := by
  funext s
  induction s generalizing acc with
  | nil => rfl
  | cons c s ih =>
      simp only [parseDigits, scan, digitStep]
      split_ifs
      · exact ih _
      · rfl

theorem parseWidth_eq_branch :
    parseWidth = branch (fun c =>
      if ch '1' ≤ c ∧ c ≤ ch '9' then some (parseDigits (digitValue c)) else none) 0 := by
  funext s
  cases s with
  | nil => rfl
  | cons c s =>
      simp only [parseWidth, branch]
      split_ifs
      · rfl
      · rfl

theorem parsePrecision_eq_branch :
    parsePrecision = branch (fun c =>
      if c = ch '.' then some (parseDigits 0) else none) (-1) := by
  funext s
  cases s with
  | nil => rfl
  | cons c s =>
      simp only [parsePrecision, branch]
      split_ifs
      · rfl
      · rfl

/-- What follows a first `l`. -/
def longTail : Parser Byte LenMod :=
  branch (fun c => if c = ch 'l' then some (keep .longLong) else none) .long

theorem parseLenMod_eq_branch :
    parseLenMod = branch (fun c =>
      if c = ch 'l' then some longTail
      else if c = ch 'h' then some (keep .short)
      else none) .none := by
  funext s
  cases s with
  | nil => rfl
  | cons c s =>
      simp only [parseLenMod, branch]
      split_ifs
      · cases s with
        | nil => rfl
        | cons d s =>
            simp only [longTail, branch]
            split_ifs
            · rfl
            · rfl
      · rfl
      · rfl

theorem bounded_parseDigits (acc : Int) : Bounded 0 (parseDigits acc) := by
  rw [parseDigits_eq_scan]
  exact bounded_scan (fun _ => rfl) acc

theorem bounded_parseHeader : Bounded 0 parseHeader := by
  have hflags : Bounded 0 (parseFlags {}) := by
    rw [parseFlags_eq_scan]
    exact bounded_scan (fun _ => rfl) _
  have hwidth : Bounded 0 parseWidth := by
    rw [parseWidth_eq_branch]
    exact bounded_branch_if _ (by decide) fun c => bounded_parseDigits (digitValue c)
  have hprecision : Bounded 0 parsePrecision := by
    rw [parsePrecision_eq_branch]
    exact bounded_branch_if _ (by decide) fun _ => bounded_parseDigits 0
  have hlong : Bounded 0 longTail :=
    bounded_branch_if _ (by decide) fun _ => bounded_keep 0 LenMod.longLong
  have hlenMod : Bounded 0 parseLenMod := by
    rw [parseLenMod_eq_branch]
    refine bounded_branch _ (by decide) fun c q hq => ?_
    split_ifs at hq
    · cases hq
      exact hlong
    · cases hq
      exact bounded_keep 0 LenMod.short
  exact hflags.andThen (hwidth.andThen (hprecision.andThen hlenMod))

theorem directive_of_header (strings : Strings) {fmt rest : List Byte} {ap : List Word}
    {header : Flags × Int × Int × LenMod} {spec : Byte}
    (h : parseHeader fmt = some (header, spec :: rest)) :
    directive strings fmt ap =
      (conversion strings header.1 header.2.1 header.2.2.1 header.2.2.2 spec ap).map fun r =>
        (r.1, rest, r.2) := by
  obtain ⟨s₁, hflags, h⟩ := andThen_eq_some.mp h
  obtain ⟨s₂, hwidth, h⟩ := andThen_eq_some.mp h
  obtain ⟨s₃, hprecision, hlenMod⟩ := andThen_eq_some.mp h
  simp only [directive, hflags, hwidth, hprecision, hlenMod, Option.bind_eq_bind,
    Option.bind_some]
  rw [Option.map_eq_bind]
  rfl

theorem conversion_nul (strings : Strings) (flags : Flags) (width precision : Int)
    (lenMod : LenMod) (ap : List Word) :
    conversion strings flags width precision lenMod 0 ap = some ([.counted 0], ap) := by
  rfl

theorem directive_of_open (strings : Strings) {fmt rest : List Byte} (ap : List Word)
    {header : Flags × Int × Int × LenMod} (h : parseHeader fmt = some (header, 0 :: rest)) :
    directive strings fmt ap = some ([.counted 0], rest, ap) := by
  rw [directive_of_header strings h, conversion_nul]
  rfl

theorem directive_split (strings : Strings) (s : List Byte) (ap : List Word) :
    (∃ header, ∀ tail, parseHeader (s ++ 0 :: tail) = some (header, 0 :: tail)) ∨
      ∃ pre spec s' result, s = pre ++ spec :: s' ∧
        ∀ tail, directive strings (s ++ 0 :: tail) ap =
          Option.map (fun r : List Emit × List Word => (r.1, s' ++ 0 :: tail, r.2)) result := by
  rcases bounded_parseHeader.split_at_stop s with
    hopen | ⟨header, pre, spec, s', rfl, hheader⟩
  · exact .inl hopen
  · refine .inr ⟨pre, spec, s',
      conversion strings header.1 header.2.1 header.2.2.1 header.2.2.2 spec ap, rfl, ?_⟩
    intro tail
    rw [List.append_assoc, List.cons_append]
    exact directive_of_header strings (hheader (s' ++ 0 :: tail))

end Header

section VsprintfImpl

variable (strings : Strings)

theorem layout_nul (n : Nat) (tail : List Byte) (ap : List Word) :
    layout strings (n + 1) (0 :: tail) ap = some [] := by
  rw [layout, if_pos rfl]

theorem layout_literal {c : Byte} (hc : c ≠ ch '%') (hnul : c ≠ 0) (n : Nat)
    (fmt : List Byte) (ap : List Word) :
    layout strings (n + 1) (c :: fmt) ap = (layout strings n fmt ap).map (.literal c :: ·) := by
  rw [layout, if_neg hnul, if_pos hc]

theorem layout_directive (n : Nat) (fmt : List Byte) (ap : List Word) :
    layout strings (n + 1) (ch '%' :: fmt) ap =
      (directive strings fmt ap).bind fun r =>
        (layout strings n r.2.1 r.2.2).map (r.1 ++ ·) := by
  rw [layout, if_neg percent_ne_zero, if_neg (not_not.mpr rfl)]
  rcases directive strings fmt ap with _ | ⟨es, fmt', ap'⟩
  · rfl
  · simp only [Option.bind_eq_bind, Option.bind_some]
    rcases layout strings n fmt' ap' with _ | rest
    · rfl
    · rfl

theorem not_expands_nil (ap : List Word) (es : List Emit) : ¬ Expands strings [] ap es := by
  rintro ⟨n, h⟩
  cases n with
  | zero => cases h
  | succ n => cases h

theorem expands_nul (tail : List Byte) (ap : List Word) : Expands strings (0 :: tail) ap [] :=
  ⟨1, layout_nul strings 0 tail ap⟩

theorem expands_nul_iff (tail : List Byte) (ap : List Word) (es : List Emit) :
    Expands strings (0 :: tail) ap es ↔ es = [] := by
  constructor
  · rintro ⟨n, h⟩
    cases n with
    | zero => cases h
    | succ n =>
        rw [layout_nul] at h
        exact (Option.some_inj.mp h).symm
  · rintro rfl
    exact expands_nul strings tail ap

theorem expands_literal_iff {c : Byte} (hnul : c ≠ 0) (hc : c ≠ ch '%') (fmt : List Byte)
    (ap : List Word) (es : List Emit) :
    Expands strings (c :: fmt) ap es ↔
      ∃ rest, Expands strings fmt ap rest ∧ .literal c :: rest = es := by
  constructor
  · rintro ⟨n, h⟩
    cases n with
    | zero => cases h
    | succ n =>
        rw [layout_literal strings hc hnul] at h
        obtain ⟨rest, hrest, rfl⟩ := Option.map_eq_some_iff.mp h
        exact ⟨rest, ⟨n, hrest⟩, rfl⟩
  · rintro ⟨rest, ⟨n, hrest⟩, rfl⟩
    refine ⟨n + 1, ?_⟩
    rw [layout_literal strings hc hnul, hrest]
    rfl

theorem expands_directive_iff (fmt : List Byte) (ap : List Word) (es : List Emit) :
    Expands strings (ch '%' :: fmt) ap es ↔
      ∃ es₁ fmt' ap' rest, directive strings fmt ap = some (es₁, fmt', ap') ∧
        Expands strings fmt' ap' rest ∧ es₁ ++ rest = es := by
  constructor
  · rintro ⟨n, h⟩
    cases n with
    | zero => cases h
    | succ n =>
        rw [layout_directive] at h
        obtain ⟨⟨es₁, fmt', ap'⟩, hdir, h⟩ := Option.bind_eq_some_iff.mp h
        obtain ⟨rest, hrest, rfl⟩ := Option.map_eq_some_iff.mp h
        exact ⟨es₁, fmt', ap', rest, hdir, ⟨n, hrest⟩, rfl⟩
  · rintro ⟨es₁, fmt', ap', rest, hdir, ⟨n, hrest⟩, rfl⟩
    refine ⟨n + 1, ?_⟩
    rw [layout_directive, hdir]
    simp only [Option.bind_some, hrest, Option.map_some]

theorem not_mem_behind {a b c : Byte} {s pre s' : List Byte} (hsplit : s = pre ++ b :: s')
    (hs : a ∉ c :: s) : a ∉ s' := by
  intro hmem
  apply hs
  rw [hsplit]
  exact List.mem_cons_of_mem _ (List.mem_append_right _ (List.mem_cons_of_mem _ hmem))

theorem directive_extend {s s' : List Byte} {ap ap' : List Word} {es : List Emit}
    (hdir : directive strings (s ++ [0]) ap = some (es, s' ++ [0], ap')) :
    (∃ pre spec, s = pre ++ spec :: s') ∧
      ∀ tail, directive strings (s ++ 0 :: tail) ap = some (es, s' ++ 0 :: tail, ap') := by
  rcases directive_split strings s ap with
    ⟨header, hopen⟩ | ⟨pre, spec, s'', result, hsplit, hall⟩
  · rw [directive_of_open strings ap (hopen [])] at hdir
    have hempty := congrArg (fun r => r.2.1) (Option.some_inj.mp hdir)
    simp at hempty
  · rw [hall [], Option.map_eq_some_iff] at hdir
    obtain ⟨⟨es', ap''⟩, rfl, heq⟩ := hdir
    simp only [Prod.mk.injEq] at heq
    obtain ⟨rfl, heq, rfl⟩ := heq
    obtain rfl : s'' = s' := List.append_cancel_right heq
    exact ⟨⟨pre, spec, hsplit⟩, hall⟩

theorem expands_of_endsInHeader {s : List Byte} {ap : List Word}
    (h : EndsInHeader strings s ap) (hs : 0 ∉ s) :
    (∀ es, ¬ Expands strings (s ++ [0]) ap es) ∧
      ∃ es, Expands strings (s ++ [0, 0]) ap es := by
  induction h with
  | @here s ap header hheader =>
      obtain ⟨pre, hpre, hlocal⟩ := bounded_parseHeader.isLocal _ _ _ _ hheader
      obtain rfl : s = pre := List.append_cancel_right hpre
      simp only [List.cons_append, expands_directive_iff]
      constructor
      · rintro es ⟨es₁, fmt', ap', rest, hdir, hrest, -⟩
        rw [directive_of_open strings ap hheader] at hdir
        cases hdir
        exact not_expands_nil strings _ _ hrest
      · exact ⟨_, _, _, _, _, directive_of_open strings ap (hlocal [0]),
          expands_nul strings [] ap, rfl⟩
  | @literal c s ap hc hrest ih =>
      rw [List.mem_cons, not_or] at hs
      obtain ⟨hnone, es, hsome⟩ := ih hs.2
      simp only [List.cons_append, expands_literal_iff strings (Ne.symm hs.1) hc]
      constructor
      · rintro es' ⟨rest, hrest, -⟩
        exact hnone rest hrest
      · exact ⟨_, es, hsome, rfl⟩
  | @directive s s' ap ap' es hdir hrest ih =>
      obtain ⟨⟨pre, spec, hsplit⟩, hall⟩ := directive_extend strings hdir
      obtain ⟨hnone, es', hsome⟩ := ih (not_mem_behind hsplit hs)
      simp only [List.cons_append, expands_directive_iff]
      constructor
      · rintro es'' ⟨es₁, fmt', ap'', rest, hdir', hrest', -⟩
        rw [hdir] at hdir'
        cases hdir'
        exact hnone rest hrest'
      · exact ⟨_, _, _, _, _, hall [0], hsome, rfl⟩

theorem expands_of_not_endsInHeader (bound : Nat) {s : List Byte} {ap : List Word}
    (hbound : s.length < bound) (hs : 0 ∉ s) (h : ¬ EndsInHeader strings s ap) (tail : List Byte)
    (es : List Emit) :
    Expands strings (s ++ 0 :: tail) ap es ↔ Expands strings (s ++ [0]) ap es := by
  induction bound generalizing s ap es with
  | zero => exact absurd hbound (Nat.not_lt_zero _)
  | succ bound ih =>
      cases s with
      | nil => rw [List.nil_append, List.nil_append, expands_nul_iff, expands_nul_iff]
      | cons c s =>
          rw [List.length_cons] at hbound
          by_cases hc : c = ch '%'
          · subst hc
            rw [List.cons_append, List.cons_append, expands_directive_iff, expands_directive_iff]
            rcases directive_split strings s ap with
              ⟨header, hopen⟩ | ⟨pre, spec, s', result, hsplit, hall⟩
            · exact absurd (.here (hopen [])) h
            · have hlen := congrArg List.length hsplit
              rw [List.length_append, List.length_cons] at hlen
              rw [hall tail, hall []]
              rcases result with _ | ⟨es₁, ap'⟩
              · simp only [Option.map_none, reduceCtorEq, false_and, exists_false]
              · have hrest := fun rest => ih (show s'.length < bound by omega)
                  (not_mem_behind hsplit hs) (fun hopen => h (.directive (hall []) hopen)) rest
                simp only [Option.map_some, Option.some.injEq, Prod.mk.injEq, and_assoc,
                  exists_eq_left', exists_and_left, hrest]
          · rw [List.mem_cons, not_or] at hs
            have hrest := fun rest => ih (show s.length < bound by omega) hs.2
              (fun hopen => h (.literal hc hopen)) rest
            simp only [List.cons_append, expands_literal_iff strings (Ne.symm hs.1) hc, hrest]

/-- The loop of `vsprintf_impl` needs no more rounds than its format has bytes. -/
def EndsInTime (size : Nat) (fmt : List Byte) (ap : List Word) : Prop :=
  ∀ rounds, fmt.length ≤ rounds →
    formatLoop strings (roomFor size) rounds fmt ap .start =
      formatLoop strings (roomFor size) fmt.length fmt ap .start

theorem layout_eq_some_iff {n : Nat} {fmt : List Byte} (hn : fmt.length ≤ n) (ap : List Word)
    (es : List Emit) : layout strings n fmt ap = some es ↔ Expands strings fmt ap es :=
  ⟨fun h => ⟨n, h⟩, fun ⟨_, h⟩ => layout_enough h hn⟩

theorem endsInTime (size : Nat) (fmt : List Byte) (ap : List Word) :
    EndsInTime strings size fmt ap := by
  intro rounds hrounds
  have hlayout : layout strings rounds fmt ap = layout strings fmt.length fmt ap := by
    apply Option.ext
    intro es
    rw [layout_eq_some_iff strings hrounds, layout_eq_some_iff strings le_rfl]
  rw [PrintkBounds.formatLoop_eq, PrintkBounds.formatLoop_eq, hlayout]

theorem vsprintfImpl_readsWithin_iff (size : Nat) (s : CString) (ap : List Word) :
    ReadsWithin (fun fmt => vsprintfImpl strings size fmt ap) s ↔
      ¬ EndsInHeader strings s.bytes ap := by
  constructor
  · intro h hopen
    obtain ⟨hnone, es, hsome⟩ := expands_of_endsInHeader strings hopen s.noNul
    have heq : vsprintfImpl strings size (s.bytes ++ [0, 0]) ap =
        vsprintfImpl strings size (s.bytes ++ [0]) ap := h [0]
    rw [vsprintfImpl_eq hsome, vsprintfImpl_eq_layout] at heq
    obtain ⟨es', hes', -⟩ := Option.map_eq_some_iff.mp heq.symm
    exact hnone es' ⟨_, hes'⟩
  · intro h tail
    have hlayout : layout strings (s.bytes ++ 0 :: tail).length (s.bytes ++ 0 :: tail) ap =
        layout strings (s.bytes ++ [0]).length (s.bytes ++ [0]) ap := by
      apply Option.ext
      intro es
      rw [layout_eq_some_iff strings le_rfl, layout_eq_some_iff strings le_rfl]
      exact expands_of_not_endsInHeader strings _ (Nat.lt_succ_self _) s.noNul h tail es
    simp only [vsprintfImpl_eq_layout, hlayout]

end VsprintfImpl

/-- Neither formatter reads behind the NUL of its format exactly when the format
does not end inside a directive that is reached. -/
theorem readsWithin_iff (strings : Strings) (size : Nat) (s : CString) (ap : List Word) :
    (ReadsWithin (fun fmt => StringFormat.vsprintf strings fmt ap) s ↔
        ¬ EndsOpen strings limit s.bytes ap) ∧
      (ReadsWithin (fun fmt => vsprintfImpl strings size fmt ap) s ∧
          EndsInTime strings size (s.bytes ++ [0]) ap ↔
        ¬ EndsInHeader strings s.bytes ap) := by
  refine ⟨vsprintf_readsWithin_iff strings s ap, ?_⟩
  rw [and_iff_left (endsInTime strings size _ ap)]
  exact vsprintfImpl_readsWithin_iff strings size s ap

theorem not_readsWithin_percent :
    ¬ ReadsWithin (fun fmt => StringFormat.vsprintf (fun _ => none) fmt [])
        ⟨[ch '%'], by decide⟩ ∧
      ¬ ReadsWithin (fun fmt => vsprintfImpl (fun _ => none) 512 fmt [])
        ⟨[ch '%'], by decide⟩ := by
  constructor
  · rw [vsprintf_readsWithin_iff]
    exact not_not.mpr (.here (by decide))
  · rw [vsprintfImpl_readsWithin_iff]
    exact not_not.mpr (@EndsInHeader.here _ [] _ ({}, 0, -1, .none) rfl)

end ShlteOs.FormatReads
