import Mathlib.Logic.Relation
import ShlteOs.BoundedFormatting
import ShlteOs.DigitBuffers

/-!
`vsprintf` one turn of its loop at a time.  A run may return, go on for as long
as the format can be read, or stop at a read it cannot make; what is said about
its stores holds in every state it passes through.
-/

namespace ShlteOs.VsprintfSteps

open ShlteOs.ByteMemory
open ShlteOs.BufferCursor
open ShlteOs.StringFormat
open ShlteOs.BoundedFormatting
open ShlteOs.DigitBuffers

/-- The head of the loop: what is left of the format and of the arguments, the
stores into `str`, and the stores into the digit buffers of all conversions so
far. -/
structure State where
  fmt : List Byte
  ap : List Word
  out : Cursor Byte
  digits : List (Int × Byte)

def start (fmt : List Byte) (ap : List Word) : State where
  fmt := fmt
  ap := ap
  out := .start
  digits := []

/-- The stores of a conversion into its digit buffer, for the argument it takes. -/
def digitStores (d : Byte) : List Word → List (Int × Byte)
  | [] => []
  | v :: _ =>
      if d = ch 'd' ∨ d = ch 'i' then (longBuffer v).log
      else if d = ch 'u' then (decimalBuffer v).1.log
      else if d = ch 'x' ∨ d = ch 'X' then (hexBuffer v).1.log
      else []

/-- One turn; `none` when the loop is left, and at a read that cannot be made. -/
def step (strings : Strings) (s : State) : Option State :=
  match s.fmt with
  | [] => none
  | c :: fmt =>
      if c = 0 ∨ ¬ s.out.pos < limit then none
      else if c = ch '%' then
        match fmt with
        | [] => none
        | d :: fmt =>
            (convert strings d s.ap).map fun r =>
              { fmt := fmt
                ap := r.2
                out := emit s.out r.1
                digits := digitStores d s.ap ++ s.digits }
      else some { s with fmt := fmt, out := s.out.put c }

/-- Any number of turns of the loop. -/
def Reaches (strings : Strings) : State → State → Prop :=
  Relation.ReflTransGen fun s t => step strings s = some t

/-- The test at the head of the loop fails. -/
def Finished (s : State) : Prop := ∃ c fmt, s.fmt = c :: fmt ∧ (c = 0 ∨ ¬ s.out.pos < limit)

/-- In every state `str` has been stored to at indices up to 1023 and the digit
buffers inside their 32 bytes, and a run that returns has left the loop and
ends with the store of a NUL at the index it returns. -/
structure WithinBuffers (strings : Strings) (fmt : List Byte) (ap : List Word) : Prop where
  stores : ∀ s, Reaches strings (start fmt ap) s → Inside 1024 s.out.log ∧ InBuffer s.digits
  returns : ∀ r, vsprintf strings fmt ap = some r →
    r.ret ≤ 1023 ∧ content r.log r.ret = some 0 ∧
      ∃ s, Reaches strings (start fmt ap) s ∧ Finished s ∧ r.log = (r.ret, 0) :: s.out.log

/-- All that a turn of the loop can do. -/
theorem step_cases {strings : Strings} {s t : State} (h : step strings s = some t) :
    s.out.pos < limit ∧
      ((∃ d fmt conv ap, s.fmt = ch '%' :: d :: fmt ∧ convert strings d s.ap = some (conv, ap) ∧
          t = ⟨fmt, ap, emit s.out conv, digitStores d s.ap ++ s.digits⟩) ∨
        ∃ c fmt, s.fmt = c :: fmt ∧ t = { s with fmt := fmt, out := s.out.put c }) := by
  rw [step] at h
  split at h
  · cases h
  · rename_i c fmt hfmt
    split at h
    · cases h
    · rename_i hgo
      refine ⟨not_not.mp fun hpos => hgo (.inr hpos), ?_⟩
      split at h
      · rename_i hpercent
        split at h
        · cases h
        · rename_i d fmt'
          obtain ⟨⟨conv, ap⟩, hconv, rfl⟩ := Option.map_eq_some_iff.mp h
          rw [hpercent] at hfmt
          exact .inl ⟨d, fmt', conv, ap, hfmt, hconv, rfl⟩
      · exact .inr ⟨c, fmt, hfmt, (Option.some.inj h).symm⟩

theorem inBuffer_digitStores (d : Byte) (ap : List Word) : InBuffer (digitStores d ap) := by
  cases ap with
  | nil => exact fun _ hw => absurd hw List.not_mem_nil
  | cons v ap =>
      rw [digitStores]
      split
      · rw [longBuffer_eq]
        exact inBuffer_filled ((length_longText_le v).trans (by decide))
      · split
        · rw [decimalBuffer_eq]
          exact inBuffer_filled ((length_ulongText_le (.inl rfl) v).trans (by decide))
        · split
          · rw [hexBuffer_eq]
            exact inBuffer_filled ((length_ulongText_le (.inr rfl) v).trans (by decide))
          · exact fun _ hw => absurd hw List.not_mem_nil

/-- The invariant of the loop: one test at its head leaves room for a directive
that stores two characters without another one. -/
structure Invariant (s : State) : Prop where
  sound : Sound s.out
  digits : InBuffer s.digits

theorem invariant_start (fmt : List Byte) (ap : List Word) : Invariant (start fmt ap) :=
  ⟨sound_start, fun _ hw => absurd hw List.not_mem_nil⟩

theorem Invariant.step {strings : Strings} {s t : State} (h : Invariant s)
    (hstep : step strings s = some t) : Invariant t := by
  obtain ⟨hlt, ⟨d, fmt, conv, ap, -, hconv, rfl⟩ | ⟨c, fmt, -, rfl⟩⟩ := step_cases hstep
  · refine ⟨(emit_spec hconv hlt h.sound).2, fun w hw => ?_⟩
    rcases List.mem_append.mp hw with hnew | hold
    · exact inBuffer_digitStores d s.ap w hnew
    · exact h.digits w hold
  · exact ⟨h.sound.put hlt c, h.digits⟩

theorem Invariant.reaches {strings : Strings} {s t : State} (h : Invariant s)
    (hreach : Reaches strings s t) : Invariant t := by
  induction hreach with
  | refl => exact h
  | tail _ hstep ih => exact ih.step hstep

theorem Invariant.inside {s : State} (h : Invariant s) : Inside 1024 s.out.log :=
  h.sound.trails.mono h.sound.pos_le

/-- The loop as a whole is a run of turns that ends where its test fails. -/
theorem reaches_formatLoop (strings : Strings) {fmt : List Byte} {ap : List Word}
    {out out' : Cursor Byte} (digits : List (Int × Byte))
    (h : formatLoop strings fmt ap out = some out') :
    ∃ s, Reaches strings ⟨fmt, ap, out, digits⟩ s ∧ Finished s ∧ s.out = out' := by
  induction fmt, ap, out using formatLoop.induct generalizing digits with
  | case1 ap out => simp [formatLoop] at h
  | case2 c fmt ap out hstop =>
      unfold formatLoop at h
      rw [if_pos hstop] at h
      exact ⟨_, .refl, ⟨c, fmt, rfl, hstop⟩, Option.some.inj h⟩
  | case3 ap out hgo =>
      rw [formatLoop, if_neg hgo, if_pos rfl] at h
      cases h
  | case4 ap out d fmt hgo ih =>
      rw [formatLoop, if_neg hgo, if_pos rfl] at h
      obtain ⟨⟨conv, ap'⟩, hconv, hrest⟩ := Option.bind_eq_some_iff.mp h
      have hstep : step strings ⟨ch '%' :: d :: fmt, ap, out, digits⟩ =
          some ⟨fmt, ap', emit out conv, digitStores d ap ++ digits⟩ := by
        simp only [step, if_neg hgo, if_true, hconv, Option.map_some]
      obtain ⟨s, hreach, hdone, hout⟩ := ih conv ap' (digitStores d ap ++ digits) hrest
      exact ⟨s, .head hstep hreach, hdone, hout⟩
  | case5 c fmt ap out hgo hc ih =>
      unfold formatLoop at h
      rw [if_neg hgo, if_neg hc] at h
      have hstep : step strings ⟨c :: fmt, ap, out, digits⟩ =
          some ⟨fmt, ap, out.put c, digits⟩ := by
        simp only [step, if_neg hgo, if_neg hc]
      obtain ⟨s, hreach, hdone, hout⟩ := ih digits h
      exact ⟨s, .head hstep hreach, hdone, hout⟩

/-- For every format and arguments, also where a read fails on the way, no store leaves
the 1024 bytes of the output or the 32 bytes of the digits. -/
theorem vsprintf_withinBuffers (strings : Strings) (fmt : List Byte) (ap : List Word) :
    WithinBuffers strings fmt ap := by
  refine ⟨fun s hs => ?_, fun r hr => ?_⟩
  · have hinv := (invariant_start fmt ap).reaches hs
    exact ⟨hinv.inside, hinv.digits⟩
  · obtain ⟨out, hloop, rfl⟩ := Option.map_eq_some_iff.mp hr
    obtain ⟨s, hreach, hdone, rfl⟩ := reaches_formatLoop strings [] hloop
    refine ⟨?_, content_cons_self _ _ _, s, hreach, hdone, rfl⟩
    show (if s.out.pos > limit then limit else s.out.pos) ≤ 1023
    split
    · exact le_rfl
    · rename_i hle
      exact Nat.not_lt.mp hle

end ShlteOs.VsprintfSteps
