import ShlteOs.StringFormat

/-!
How far `vsprintf` writes.  The text a format stands for is defined without any
bound; `vsprintf` stops at its own limit and knows nothing of the size its
callers were given.
-/

namespace ShlteOs.BoundedFormatting

open ShlteOs.ByteMemory
open ShlteOs.BufferCursor
open ShlteOs.StringFormat

/-- The characters a conversion produces when nothing is cut off. -/
def fullText : Conversion → List Byte
  | .text t => t
  | .pointer val => chs ['0', 'x'] ++ pointerShifts.map (nibble val)
  | .chars cs => cs

/-- The text of a format, directive by directive, until the format ends or
`room` characters have been produced. -/
def expansion (strings : Strings) : Nat → List Byte → List Word → Option (List Byte)
  | _, [], _ => none
  | room, c :: fmt, ap =>
      if c = 0 ∨ room = 0 then some []
      else if c = ch '%' then
        match fmt with
        | [] => none
        | d :: fmt => do
            let (conv, ap) ← convert strings d ap
            let rest ← expansion strings (room - (fullText conv).length) fmt ap
            some (fullText conv ++ rest)
      else (expansion strings (room - 1) fmt ap).map (c :: ·)

/-- What holds at the head of the loop of `vsprintf`: the cursor has passed the
limit by at most one, and every store lies before it. -/
structure Sound (out : Cursor Byte) : Prop where
  pos_le : out.pos ≤ limit + 1
  trails : out.Trails

theorem sound_start : Sound .start := ⟨Nat.zero_le _, Cursor.trails_start⟩

theorem Sound.put {out : Cursor Byte} (h : Sound out) (hlt : out.pos < limit) (c : Byte) :
    Sound (out.put c) := by
  refine ⟨?_, h.trails.put c⟩
  rw [Cursor.put_pos]
  omega

theorem convert_chars_length {strings : Strings} {d : Byte} {ap ap' : List Word}
    {cs : List Byte} (h : convert strings d ap = some (.chars cs, ap')) : cs.length ≤ 2 := by
  rw [convert] at h
  split at h
  · obtain ⟨_, -, htext⟩ := Option.bind_eq_some_iff.mp h
    obtain ⟨_, -, hresult⟩ := Option.bind_eq_some_iff.mp htext
    cases hresult
  iterate 4
    split at h
    · obtain ⟨_, -, hresult⟩ := Option.bind_eq_some_iff.mp h
      cases hresult
  split at h
  · obtain ⟨_, -, hresult⟩ := Option.bind_eq_some_iff.mp h
    cases hresult
    exact Nat.le_succ 1
  split at h
  · cases h
    exact Nat.le_succ 1
  · cases h
    exact le_rfl

theorem putDigits_spec (val : Word) (shifts : List Nat) {out : Cursor Byte}
    (hle : out.pos ≤ limit) (htrails : out.Trails) :
    let out' := shifts.foldl
      (fun out shift => if out.pos ≥ limit then out else out.put (nibble val shift)) out
    out'.pos = min limit (out.pos + shifts.length) ∧ out'.Trails := by
  induction shifts generalizing out with
  | nil => exact ⟨by simpa using hle, htrails⟩
  | cons shift shifts ih =>
      simp only [List.foldl_cons, List.length_cons]
      by_cases hfull : out.pos ≥ limit
      · rw [if_pos hfull]
        obtain ⟨hpos, htrails'⟩ := ih hle htrails
        exact ⟨by omega, htrails'⟩
      · rw [if_neg hfull]
        have hroom : (out.put (nibble val shift)).pos ≤ limit := by
          rw [Cursor.put_pos]
          omega
        obtain ⟨hpos, htrails'⟩ := ih hroom (htrails.put (nibble val shift))
        rw [Cursor.put_pos] at hpos
        exact ⟨by omega, htrails'⟩

theorem emit_spec {strings : Strings} {d : Byte} {ap ap' : List Word} {conv : Conversion}
    (hconv : convert strings d ap = some (conv, ap')) {out : Cursor Byte}
    (hlt : out.pos < limit) (hsound : Sound out) :
    limit - (emit out conv).pos = limit - out.pos - (fullText conv).length ∧
      Sound (emit out conv) := by
  cases conv with
  | text t =>
      have hpos : (emit out (.text t)).pos = min limit (out.pos + t.length) := by
        simp only [emit, Cursor.putAll_pos, List.length_take]
        split_ifs <;> omega
      refine ⟨by rw [hpos, fullText]; omega, ⟨by rw [hpos]; omega, ?_⟩⟩
      exact hsound.trails.putAll _
  | pointer val =>
      have hlen : (fullText (.pointer val)).length = 10 := by
        simp [fullText, pointerShifts, chs]
      by_cases hroom : out.pos + 2 ≤ limit
      · obtain ⟨hpos, htrails⟩ := putDigits_spec val pointerShifts
          (show ((out.put (ch '0')).put (ch 'x')).pos ≤ limit from hroom)
          ((hsound.trails.put _).put _)
        simp only [emit, if_pos hroom, hlen]
        rw [Cursor.put_pos, Cursor.put_pos] at hpos
        simp only [pointerShifts, List.length_cons, List.length_nil] at hpos ⊢
        exact ⟨by omega, ⟨by omega, htrails⟩⟩
      · obtain ⟨hpos, htrails⟩ := putDigits_spec val pointerShifts (Nat.le_of_lt hlt) hsound.trails
        simp only [emit, if_neg hroom, hlen]
        simp only [pointerShifts, List.length_cons, List.length_nil] at hpos ⊢
        exact ⟨by omega, ⟨by omega, htrails⟩⟩
  | chars cs =>
      have hcs := convert_chars_length hconv
      simp only [emit, fullText]
      refine ⟨by rw [Cursor.putAll_pos]; omega, ⟨by rw [Cursor.putAll_pos]; omega, ?_⟩⟩
      exact hsound.trails.putAll _

section Loop

variable (strings : Strings)

theorem formatLoop_stop {c : Byte} {out : Cursor Byte} (h : c = 0 ∨ ¬ out.pos < limit)
    (fmt : List Byte) (ap : List Word) : formatLoop strings (c :: fmt) ap out = some out := by
  rw [formatLoop.eq_def]
  exact if_pos h

theorem formatLoop_nul (tail : List Byte) (ap : List Word) (out : Cursor Byte) :
    formatLoop strings (0 :: tail) ap out = some out :=
  formatLoop_stop strings (.inl rfl) tail ap

theorem formatLoop_literal {c : Byte} (hc : c ≠ ch '%') (hnul : c ≠ 0) {out : Cursor Byte}
    (hlt : out.pos < limit) (fmt : List Byte) (ap : List Word) :
    formatLoop strings (c :: fmt) ap out = formatLoop strings fmt ap (out.put c) := by
  rw [formatLoop.eq_def]
  exact (if_neg (not_or.mpr ⟨hnul, not_not.mpr hlt⟩)).trans (if_neg hc)

theorem formatLoop_directive {out : Cursor Byte} (hlt : out.pos < limit) (d : Byte)
    (fmt : List Byte) (ap : List Word) :
    formatLoop strings (ch '%' :: d :: fmt) ap out =
      (convert strings d ap).bind fun r => formatLoop strings fmt r.2 (emit out r.1) := by
  rw [formatLoop, if_neg (not_or.mpr ⟨percent_ne_zero, not_not.mpr hlt⟩), if_pos rfl]
  rfl

theorem expansion_stop {c : Byte} {room : Nat} (h : c = 0 ∨ room = 0) (fmt : List Byte)
    (ap : List Word) : expansion strings room (c :: fmt) ap = some [] := by
  rw [expansion.eq_def]
  exact if_pos h

theorem expansion_literal {c : Byte} (hc : c ≠ ch '%') {room : Nat}
    (hgo : ¬ (c = 0 ∨ room = 0)) (fmt : List Byte) (ap : List Word) :
    expansion strings room (c :: fmt) ap =
      (expansion strings (room - 1) fmt ap).map (c :: ·) := by
  rw [expansion.eq_def]
  exact (if_neg hgo).trans (if_neg hc)

theorem expansion_directive {room : Nat} (hgo : ¬ (ch '%' = 0 ∨ room = 0)) (d : Byte)
    (fmt : List Byte) (ap : List Word) :
    expansion strings room (ch '%' :: d :: fmt) ap =
      (convert strings d ap).bind fun r =>
        (expansion strings (room - (fullText r.1).length) fmt r.2).bind fun rest =>
          some (fullText r.1 ++ rest) := by
  rw [expansion, if_neg hgo, if_pos rfl]
  rfl

theorem stop_iff (c : Byte) (out : Cursor Byte) :
    (c = 0 ∨ limit - out.pos = 0) ↔ (c = 0 ∨ ¬ out.pos < limit) := by
  refine or_congr_right ?_
  omega

theorem formatLoop_spec {fmt : List Byte} {ap : List Word}
    {out : Cursor Byte} (hsound : Sound out) {t : List Byte}
    (h : expansion strings (limit - out.pos) fmt ap = some t) :
    ∃ out', formatLoop strings fmt ap out = some out' ∧
      limit - out'.pos = limit - out.pos - t.length ∧ Sound out' := by
  induction fmt, ap, out using formatLoop.induct generalizing t with
  | case1 ap out => simp [expansion] at h
  | case2 c fmt ap out hstop =>
      rw [expansion_stop strings ((stop_iff c out).mpr hstop)] at h
      cases h
      exact ⟨out, formatLoop_stop strings hstop fmt ap, rfl, hsound⟩
  | case3 ap out hgo =>
      rw [expansion, if_neg (mt (stop_iff _ out).mp hgo), if_pos rfl] at h
      cases h
  | case4 ap out d fmt hgo ih =>
      have hlt : out.pos < limit := not_not.mp fun h => hgo (.inr h)
      rw [expansion_directive strings (mt (stop_iff _ out).mp hgo)] at h
      obtain ⟨⟨conv, ap'⟩, hconv, htext⟩ := Option.bind_eq_some_iff.mp h
      obtain ⟨rest, hrest, happend⟩ := Option.bind_eq_some_iff.mp htext
      have ht : fullText conv ++ rest = t := Option.some.inj happend
      obtain ⟨hmoved, hsound'⟩ := emit_spec hconv hlt hsound
      rw [← hmoved] at hrest
      obtain ⟨out', hloop, hpos, hfinal⟩ := ih conv ap' hsound' hrest
      refine ⟨out', ?_, ?_, hfinal⟩
      · rw [formatLoop_directive strings hlt, hconv]
        exact hloop
      · rw [hpos, hmoved, ← ht, List.length_append]
        omega
  | case5 c fmt ap out hgo hc ih =>
      obtain ⟨hnul, hpos⟩ := not_or.mp hgo
      have hlt : out.pos < limit := not_not.mp hpos
      rw [expansion_literal strings hc (mt (stop_iff c out).mp hgo)] at h
      obtain ⟨rest, hrest, rfl⟩ := Option.map_eq_some_iff.mp h
      have hmoved : limit - (out.put c).pos = limit - out.pos - 1 := by
        rw [Cursor.put_pos]
        omega
      rw [← hmoved] at hrest
      obtain ⟨out', hloop, hpos, hfinal⟩ := ih (hsound.put hlt c) hrest
      refine ⟨out', ?_, ?_, hfinal⟩
      · rw [formatLoop_literal strings hc hnul hlt]
        exact hloop
      · rw [hpos, hmoved, List.length_cons]
        omega

end Loop

/-- `vsprintf` returns the length of the text, cut off at the limit, stores up to
that index and no further, and ends in a NUL there. -/
theorem vsprintf_spec {strings : Strings} {fmt : List Byte} {ap : List Word} {t : List Byte}
    (h : expansion strings limit fmt ap = some t) :
    ∃ r, vsprintf strings fmt ap = some r ∧ r.ret = min limit t.length ∧
      Inside (r.ret + 1) r.log ∧ (r.ret, 0) ∈ r.log ∧ content r.log r.ret = some 0 := by
  obtain ⟨out, hloop, hpos, hsound⟩ := formatLoop_spec strings sound_start h
  have hle := hsound.pos_le
  have hmoved : limit - out.pos = limit - t.length := hpos
  have hret : (if out.pos > limit then limit else out.pos) = min limit t.length := by
    split_ifs <;> omega
  refine ⟨⟨(min limit t.length, 0) :: out.log, min limit t.length⟩, ?_, rfl, ?_, by simp, ?_⟩
  · simp only [vsprintf, hloop, Option.map_some, hret]
  · apply inside_cons.mpr
    refine ⟨Nat.lt_succ_self _, hsound.trails.mono ?_⟩
    change out.pos ≤ min limit t.length + 1
    omega
  · exact content_cons_self _ _ _

/-- What a bounded formatter leaves of the text `vsprintf` produces. -/
structure Truncates (size : Nat) (produced r : Formatted) : Prop where
  inside : Inside size r.log
  ret : r.ret = min produced.ret (size - 1)
  text : ∀ k < r.ret, content r.log k = content produced.log k
  nul : content r.log r.ret = some 0

/-- The result is that of `vsprintf`, cut to the size of the buffer. -/
def FormatsWithin (strings : Strings) (size : Nat) (fmt : List Byte) (ap : List Word)
    (result : Option Formatted) : Prop :=
  ∃ produced r, vsprintf strings fmt ap = some produced ∧ result = some r ∧
    Truncates size produced r

/-- `printf` returns, and stays in its buffer. -/
def PrintfInside (strings : Strings) (fmt : List Byte) (ap : List Word) : Prop :=
  ∃ r, printf strings fmt ap = some r ∧ Inside printfBuffer r.1.log

theorem inside_iff_of_reaches {size n : Nat} {log : Log Byte} (hinside : Inside (n + 1) log)
    (hmem : (n, 0) ∈ log) : Inside size log ↔ n < size :=
  ⟨fun h => h _ hmem, fun h => hinside.mono h⟩

theorem vsnprintf_formatsWithin_iff {strings : Strings} {size : Nat} {fmt : List Byte}
    {ap : List Word} {t : List Byte} (hsize : 1 ≤ size)
    (h : expansion strings limit fmt ap = some t) :
    FormatsWithin strings size fmt ap (vsnprintf strings size fmt ap) ↔
      min limit t.length < size := by
  obtain ⟨produced, hrun, hret, hinside, hmem, hnul⟩ := vsprintf_spec h
  rw [← hret, ← inside_iff_of_reaches hinside hmem]
  have hne : size ≠ 0 := by omega
  by_cases hfits : produced.ret < size
  · have hsn : vsnprintf strings size fmt ap = some produced := by
      simp only [vsnprintf, if_neg hne, hrun, Option.map_some, if_neg (Nat.not_le.mpr hfits)]
    constructor
    · rintro ⟨_, r, -, hr, htrunc⟩
      rw [hsn] at hr
      cases hr
      exact htrunc.inside
    · intro hin
      exact ⟨produced, produced, hrun, hsn, ⟨hin, by omega, fun _ _ => rfl, hnul⟩⟩
  · -- Cutting the text off adds a store and takes none back.
    have hsn : vsnprintf strings size fmt ap =
        some ⟨(size - 1, 0) :: produced.log, size - 1⟩ := by
      simp only [vsnprintf, if_neg hne, hrun, Option.map_some, if_pos (Nat.not_lt.mp hfits)]
    constructor
    · rintro ⟨_, r, -, hr, htrunc⟩
      rw [hsn] at hr
      cases hr
      exact (inside_cons.mp htrunc.inside).2
    · intro hin
      exact absurd (hin _ hmem) hfits

theorem printfInside_iff {strings : Strings} {fmt : List Byte} {ap : List Word} {t : List Byte}
    (h : expansion strings limit fmt ap = some t) :
    PrintfInside strings fmt ap ↔ t.length < printfBuffer := by
  obtain ⟨produced, hrun, hret, hinside, hmem, -⟩ := vsprintf_spec h
  have hlt : t.length < printfBuffer ↔ produced.ret < printfBuffer := by
    rw [hret, limit, printfBuffer]
    omega
  rw [hlt, ← inside_iff_of_reaches hinside hmem]
  constructor
  · rintro ⟨r, hr, hin⟩
    simp only [printf, hrun, Option.map_some, Option.some.injEq] at hr
    rw [← hr] at hin
    exact hin
  · intro hin
    refine ⟨(produced, (List.range produced.ret).map (content produced.log)), ?_, hin⟩
    simp only [printf, hrun, Option.map_some]

/-- `vsnprintf` and `snprintf` stay inside a buffer exactly when the text, cut off
at the limit of `vsprintf`, is shorter than the buffer; `printf` stays inside its
own buffer exactly when the text is shorter than that. -/
theorem formatsWithin_iff_short (strings : Strings) (size : Nat) (fmt : List Byte)
    (ap : List Word) (t : List Byte) (hsize : 1 ≤ size)
    (h : expansion strings limit fmt ap = some t) :
    (FormatsWithin strings size fmt ap (vsnprintf strings size fmt ap) ↔
        min limit t.length < size) ∧
      (FormatsWithin strings size fmt ap (snprintf strings size fmt ap) ↔
        min limit t.length < size) ∧
      (PrintfInside strings fmt ap ↔ t.length < printfBuffer) :=
  ⟨vsnprintf_formatsWithin_iff hsize h, vsnprintf_formatsWithin_iff hsize h, printfInside_iff h⟩

def shortFormat : List Byte := [97, 98, 0]

theorem formatsWithin_ab_three :
    FormatsWithin (fun _ => none) 3 shortFormat [] (vsnprintf (fun _ => none) 3 shortFormat []) :=
  (formatsWithin_iff_short (fun _ => none) 3 shortFormat [] [97, 98] (by decide)
    (by decide)).1.mpr (by decide)

/-- Two characters and a NUL for a buffer of two bytes. -/
theorem not_formatsWithin_ab_two :
    ¬ FormatsWithin (fun _ => none) 2 shortFormat []
      (vsnprintf (fun _ => none) 2 shortFormat []) := by
  have hexp : expansion (fun _ => none) limit shortFormat [] = some [97, 98] := by decide
  rw [vsnprintf_formatsWithin_iff (by decide) hexp]
  decide

end ShlteOs.BoundedFormatting
