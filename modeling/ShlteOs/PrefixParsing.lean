import Mathlib.Data.List.Basic

/-!
Parsers that consume a prefix of their input.  Two properties are composed
along a sequence of parsers: what is parsed depends on nothing behind the first
symbol that is left over, and a given symbol is never passed.
-/

namespace ShlteOs.PrefixParsing

variable {α β γ σ : Type*}

/-- A parser of a prefix, with what is left behind it. -/
abbrev Parser (α β : Type*) := List α → Option (β × List α)

/-- One parser behind the other. -/
def andThen (p : Parser α β) (q : Parser α γ) : Parser α (β × γ) := fun s =>
  (p s).bind fun x => (q x.2).bind fun y => some ((x.1, y.1), y.2)

/-- Consume symbols while `next` gives a new state. -/
def scan (next : σ → α → Option σ) : σ → Parser α σ
  | _, [] => none
  | st, a :: s =>
      match next st a with
      | some st' => scan next st' s
      | none => some (st, a :: s)

/-- Let the first symbol choose a parser for the rest, or leave it. -/
def branch (choose : α → Option (Parser α β)) (default : β) : Parser α β
  | [] => none
  | a :: s =>
      match choose a with
      | some q => q s
      | none => some (default, a :: s)

def keep (x : β) : Parser α β := fun s => some (x, s)

/-- The input behind the first symbol left over does not matter. -/
def Local (p : Parser α β) : Prop :=
  ∀ s x a r, p s = some (x, a :: r) →
    ∃ pre, s = pre ++ a :: r ∧ ∀ r', p (pre ++ a :: r') = some (x, a :: r')

/-- An input with the symbol `stop` is parsed, and the symbol is left over. -/
def StopsAt (stop : α) (p : Parser α β) : Prop :=
  ∀ s, stop ∈ s → ∃ x r, p s = some (x, r) ∧ stop ∈ r

theorem andThen_eq_some {p : Parser α β} {q : Parser α γ} {s r : List α} {z : β × γ} :
    andThen p q s = some (z, r) ↔ ∃ s', p s = some (z.1, s') ∧ q s' = some (z.2, r) := by
  constructor
  · intro h
    obtain ⟨⟨x, s'⟩, hp, h⟩ := Option.bind_eq_some_iff.mp h
    obtain ⟨⟨y, r'⟩, hq, h⟩ := Option.bind_eq_some_iff.mp h
    cases h
    exact ⟨s', hp, hq⟩
  · rintro ⟨s', hp, hq⟩
    simp only [andThen, hp, hq, Option.bind_some]

theorem andThen_of_some {p : Parser α β} {q : Parser α γ} {s s' r : List α} {x : β} {y : γ}
    (hp : p s = some (x, s')) (hq : q s' = some (y, r)) : andThen p q s = some ((x, y), r) :=
  andThen_eq_some.mpr ⟨s', hp, hq⟩

theorem Local.andThen {p : Parser α β} {q : Parser α γ} (hp : Local p) (hq : Local q) :
    Local (andThen p q) := by
  intro s z a r h
  obtain ⟨s', hps, hqs⟩ := andThen_eq_some.mp h
  obtain ⟨pre₂, rfl, hq'⟩ := hq _ _ _ _ hqs
  -- The first symbol `p` leaves over is the same whatever follows `a`.
  obtain ⟨b, rest, hb⟩ : ∃ (b : α) (rest : List α → List α),
      ∀ r', pre₂ ++ a :: r' = b :: rest r' := by
    cases pre₂ with
    | nil => exact ⟨a, fun r' => r', fun _ => rfl⟩
    | cons b pre₂ => exact ⟨b, fun r' => pre₂ ++ a :: r', fun _ => rfl⟩
  rw [hb r] at hps
  obtain ⟨pre₁, rfl, hp'⟩ := hp _ _ _ _ hps
  refine ⟨pre₁ ++ pre₂, ?_, ?_⟩
  · rw [List.append_assoc, hb r]
  · intro r'
    rw [List.append_assoc]
    refine andThen_eq_some.mpr ⟨pre₂ ++ a :: r', ?_, hq' r'⟩
    rw [hb r', hp']

theorem StopsAt.andThen {stop : α} {p : Parser α β} {q : Parser α γ} (hp : StopsAt stop p)
    (hq : StopsAt stop q) : StopsAt stop (andThen p q) := by
  intro s hs
  obtain ⟨x, s', hps, hs'⟩ := hp s hs
  obtain ⟨y, r, hqs, hr⟩ := hq s' hs'
  exact ⟨(x, y), r, andThen_eq_some.mpr ⟨s', hps, hqs⟩, hr⟩

theorem local_scan (next : σ → α → Option σ) (st : σ) : Local (scan next st) := by
  intro s
  induction s generalizing st with
  | nil =>
      intro x a r h
      cases h
  | cons b s ih =>
      intro x a r h
      rcases hnext : next st b with _ | st'
      · simp only [scan, hnext] at h
        cases h
        exact ⟨[], rfl, fun r' => by simp only [List.nil_append, scan, hnext]⟩
      · simp only [scan, hnext] at h
        obtain ⟨pre, rfl, hpre⟩ := ih st' x a r h
        refine ⟨b :: pre, rfl, ?_⟩
        intro r'
        simp only [List.cons_append, scan, hnext, hpre]

theorem stopsAt_scan {stop : α} {next : σ → α → Option σ} (h : ∀ st, next st stop = none)
    (st : σ) : StopsAt stop (scan next st) := by
  intro s
  induction s generalizing st with
  | nil =>
      intro hs
      cases hs
  | cons b s ih =>
      intro hs
      rcases hnext : next st b with _ | st'
      · exact ⟨st, b :: s, by simp only [scan, hnext], hs⟩
      · have hmem : stop ∈ s := by
          rcases List.mem_cons.mp hs with rfl | hmem
          · rw [h st] at hnext
            cases hnext
          · exact hmem
        obtain ⟨x, r, hscan, hr⟩ := ih st' hmem
        exact ⟨x, r, by simp only [scan, hnext, hscan], hr⟩

theorem scan_map {γ : Type*} {next : σ → α → Option σ} {f : γ → α} {step : σ → γ → σ}
    (hstep : ∀ st x, next st (f x) = some (step st x)) {a : α} (ha : ∀ st, next st a = none)
    (xs : List γ) (st : σ) (r : List α) :
    scan next st (xs.map f ++ a :: r) = some (xs.foldl step st, a :: r) := by
  induction xs generalizing st with
  | nil => simp only [List.map_nil, List.nil_append, scan, ha, List.foldl_nil]
  | cons x xs ih =>
      simp only [List.map_cons, List.cons_append, scan, hstep, List.foldl_cons]
      exact ih (step st x)

theorem local_keep (x : β) : Local (keep x : Parser α β) := by
  intro s y a r h
  cases h
  exact ⟨[], rfl, fun _ => rfl⟩

theorem stopsAt_keep (stop : α) (x : β) : StopsAt stop (keep x : Parser α β) :=
  fun s hs => ⟨x, s, rfl, hs⟩

theorem local_branch {choose : α → Option (Parser α β)} (default : β)
    (h : ∀ a q, choose a = some q → Local q) : Local (branch choose default) := by
  intro s x a r hs
  cases s with
  | nil => cases hs
  | cons b s =>
      rcases hchoose : choose b with _ | q
      · simp only [branch, hchoose] at hs
        cases hs
        exact ⟨[], rfl, fun r' => by simp only [List.nil_append, branch, hchoose]⟩
      · simp only [branch, hchoose] at hs
        obtain ⟨pre, rfl, hpre⟩ := h b q hchoose s x a r hs
        refine ⟨b :: pre, rfl, ?_⟩
        intro r'
        simp only [List.cons_append, branch, hchoose, hpre]

theorem stopsAt_branch {stop : α} {choose : α → Option (Parser α β)} (default : β)
    (hstop : choose stop = none) (h : ∀ a q, choose a = some q → StopsAt stop q) :
    StopsAt stop (branch choose default) := by
  intro s hs
  cases s with
  | nil => cases hs
  | cons b s =>
      rcases hchoose : choose b with _ | q
      · exact ⟨default, b :: s, by simp only [branch, hchoose], hs⟩
      · have hmem : stop ∈ s := by
          rcases List.mem_cons.mp hs with rfl | hmem
          · rw [hstop] at hchoose
            cases hchoose
          · exact hmem
        obtain ⟨x, r, hq, hr⟩ := h b q hchoose s hmem
        exact ⟨x, r, by simp only [branch, hchoose, hq], hr⟩

/-- The parser looks at its prefix only, and never goes beyond the terminator. -/
structure Bounded (stop : α) (p : Parser α β) : Prop where
  isLocal : Local p
  stops : StopsAt stop p

theorem Bounded.andThen {stop : α} {p : Parser α β} {q : Parser α γ} (hp : Bounded stop p)
    (hq : Bounded stop q) : Bounded stop (andThen p q) :=
  ⟨hp.isLocal.andThen hq.isLocal, hp.stops.andThen hq.stops⟩

theorem bounded_scan {stop : α} {next : σ → α → Option σ} (h : ∀ st, next st stop = none)
    (st : σ) : Bounded stop (scan next st) :=
  ⟨local_scan next st, stopsAt_scan h st⟩

theorem bounded_keep (stop : α) (x : β) : Bounded stop (keep x : Parser α β) :=
  ⟨local_keep x, stopsAt_keep stop x⟩

theorem bounded_branch {stop : α} {choose : α → Option (Parser α β)} (default : β)
    (hstop : choose stop = none) (h : ∀ a q, choose a = some q → Bounded stop q) :
    Bounded stop (branch choose default) :=
  ⟨local_branch default fun a q hq => (h a q hq).isLocal,
    stopsAt_branch default hstop fun a q hq => (h a q hq).stops⟩

theorem bounded_branch_if {stop : α} {test : α → Prop} [DecidablePred test]
    {q : α → Parser α β} (default : β) (hstop : ¬ test stop) (h : ∀ a, Bounded stop (q a)) :
    Bounded stop (branch (fun a => if test a then some (q a) else none) default) := by
  refine bounded_branch default (if_neg hstop) fun a q' hq => ?_
  split_ifs at hq
  cases hq
  exact h a

/-- In front of a terminator such a parser either takes everything or stops at a
symbol of the text, and does the same whatever follows. -/
theorem Bounded.split_at_stop {stop : α} {p : Parser α β} (h : Bounded stop p) (s : List α) :
    (∃ x, ∀ tail, p (s ++ stop :: tail) = some (x, stop :: tail)) ∨
      ∃ x pre a s', s = pre ++ a :: s' ∧ ∀ tail, p (pre ++ a :: tail) = some (x, a :: tail) := by
  obtain ⟨x, r, hp, hr⟩ := h.stops (s ++ [stop]) (by simp)
  obtain ⟨a, r, rfl⟩ := List.exists_cons_of_ne_nil (List.ne_nil_of_mem hr)
  obtain ⟨pre, hsplit, hp'⟩ := h.isLocal _ _ _ _ hp
  rcases List.eq_nil_or_concat r with rfl | ⟨s', b, rfl⟩
  · left
    obtain ⟨rfl, hlast⟩ := List.append_inj' hsplit rfl
    obtain rfl : stop = a := by simpa using hlast
    exact ⟨x, hp'⟩
  · right
    have hassoc : s ++ [stop] = (pre ++ a :: s') ++ [b] := by
      rw [hsplit]
      simp
    obtain ⟨hpre, -⟩ := List.append_inj' hassoc rfl
    exact ⟨x, pre, a, s', hpre, hp'⟩

end ShlteOs.PrefixParsing
