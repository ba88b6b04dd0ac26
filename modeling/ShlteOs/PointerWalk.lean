import Mathlib.Data.Fintype.Pigeonhole
import Mathlib.Logic.Function.Iterate

/-!
Loops that chase pointers.  A walk follows `next` until `stop` holds; a loop
over a corrupted, cyclic list does not end, so a walk carries fuel and gives
`none` when it runs out.  When the places visited come from a space of `N`
elements, `N` units of fuel are enough for every walk that ends at all, hence
`none` at that fuel means that the loop never ends.
-/

namespace ShlteOs.PointerWalk

variable {Node : Type*}

/-- Follow `next` from a node until `stop` holds. -/
def walk (stop : Node → Bool) (next : Node → Node) : Nat → Node → Option Node
  | 0, _ => none
  | fuel + 1, a => if stop a then some a else walk stop next fuel (next a)

variable {stop : Node → Bool} {next : Node → Node}

theorem walk_of_stop {a : Node} {fuel : Nat} (h : stop a = true) (hfuel : 0 < fuel) :
    walk stop next fuel a = some a := by
  cases fuel with
  | zero => omega
  | succ fuel => simp [walk, h]

theorem walk_eq_some_iff {fuel : Nat} {a b : Node} :
    walk stop next fuel a = some b ↔
      ∃ k, k < fuel ∧ next^[k] a = b ∧ stop b = true ∧
        ∀ i, i < k → stop (next^[i] a) = false := by
  induction fuel generalizing a with
  | zero => simp [walk]
  | succ fuel ih =>
      by_cases hstop : stop a = true
      · rw [walk, if_pos hstop]
        constructor
        · intro h
          cases h
          exact ⟨0, by omega, rfl, hstop, by omega⟩
        · rintro ⟨k, -, hk, -, hfirst⟩
          cases k with
          | zero => exact congrArg some hk
          | succ k =>
              have hzero := hfirst 0 (by omega)
              rw [Function.iterate_zero_apply, hstop] at hzero
              exact Bool.noConfusion hzero
      · rw [walk, if_neg hstop, ih]
        constructor
        · rintro ⟨k, hk, hb, hstopb, hfirst⟩
          refine ⟨k + 1, by omega, hb, hstopb, ?_⟩
          intro i hi
          cases i with
          | zero => simpa using hstop
          | succ i => exact hfirst i (by omega)
        · rintro ⟨k, hk, hb, hstopb, hfirst⟩
          cases k with
          | zero =>
              rw [Function.iterate_zero_apply] at hb
              exact absurd (hb ▸ hstopb) hstop
          | succ k =>
              exact ⟨k, by omega, hb, hstopb, fun i hi => hfirst (i + 1) (by omega)⟩

/-- A walk whose loop test and successor depend only on a place among `N`
passes each place at most once before it ends. -/
theorem walk_fuel_enough {N : Nat} (place : Node → Fin N)
    (hstop : ∀ a b, place a = place b → stop a = stop b)
    (hnext : ∀ a b, place a = place b → place (next a) = place (next b))
    {fuel : Nat} {a b : Node} (h : walk stop next fuel a = some b) :
    walk stop next N a = some b := by
  obtain ⟨k, hk, hb, hstopb, hfirst⟩ := walk_eq_some_iff.mp h
  refine walk_eq_some_iff.mpr ⟨k, ?_, hb, hstopb, hfirst⟩
  by_contra hlarge
  have hshift : ∀ (n : Nat) (x y : Node), place x = place y →
      place (next^[n] x) = place (next^[n] y) := by
    intro n
    induction n with
    | zero => exact fun x y hxy => hxy
    | succ n ih => exact fun x y hxy => ih _ _ (hnext x y hxy)
  -- More than `N` places before the end: two of them coincide.
  obtain ⟨i, j, hij, hplace⟩ := Fintype.exists_ne_map_eq_of_card_lt
    (fun i : Fin (N + 1) => place (next^[i.val] a)) (by simp)
  have hrepeat : ∀ i j : Nat, i < j → j ≤ N →
      place (next^[i] a) = place (next^[j] a) → False := by
    intro i j hlt hj heq
    have htail := hshift (k - j) _ _ heq
    rw [← Function.iterate_add_apply, ← Function.iterate_add_apply,
      show k - j + j = k by omega, hb] at htail
    have hearly := hfirst (k - j + i) (by omega)
    rw [hstop _ _ htail, hstopb] at hearly
    exact Bool.noConfusion hearly
  rcases Nat.lt_or_gt_of_ne (fun he => hij (Fin.ext he)) with hlt | hlt
  · exact hrepeat i j hlt (by omega) hplace
  · exact hrepeat j i hlt (by omega) hplace.symm

theorem walk_eq_none_iff {N : Nat} (place : Node → Fin N)
    (hstop : ∀ a b, place a = place b → stop a = stop b)
    (hnext : ∀ a b, place a = place b → place (next a) = place (next b)) {a : Node} :
    walk stop next N a = none ↔ ∀ k, stop (next^[k] a) = false := by
  constructor
  · intro hnone
    by_contra hends
    obtain ⟨k, hk⟩ := not_forall.mp hends
    have hexists : ∃ k, stop (next^[k] a) = true := ⟨k, Bool.eq_true_of_not_eq_false hk⟩
    have hfirst : ∀ i, i < Nat.find hexists → stop (next^[i] a) = false := fun i hi =>
      Bool.eq_false_of_not_eq_true (Nat.find_min hexists hi)
    have hsome := walk_fuel_enough place hstop hnext (walk_eq_some_iff.mpr
      ⟨Nat.find hexists, Nat.lt_succ_self _, rfl, Nat.find_spec hexists, hfirst⟩)
    rw [hnone] at hsome
    cases hsome
  · intro hall
    rcases hwalk : walk stop next N a with _ | b
    · rfl
    · obtain ⟨k, -, rfl, hstopb, -⟩ := walk_eq_some_iff.mp hwalk
      rw [hall k] at hstopb
      cases hstopb

/-- The nodes met by following `next` from a node up to the terminator
`final`, in order. -/
inductive Chain (next : Node → Node) (final : Node) : Node → List Node → Prop
  | nil : Chain next final final []
  | cons {a : Node} {nodes : List Node} (hne : a ≠ final)
      (htail : Chain next final (next a) nodes) : Chain next final a (a :: nodes)

theorem Chain.exists_front {next' : Node → Node} {final a : Node} {nodes : List Node}
    (h : Chain next final a nodes) (hnext : ∀ n ∈ nodes, next' n = next n ∨ next' n = final) :
    ∃ front, front <+: nodes ∧ Chain next' final a front := by
  induction h with
  | nil => exact ⟨[], List.nil_prefix, .nil⟩
  | @cons a nodes hne htail ih =>
      rcases hnext a List.mem_cons_self with hkept | hcut
      · obtain ⟨front, hfront, hchain⟩ := ih fun n hn => hnext n (List.mem_cons_of_mem a hn)
        exact ⟨a :: front, List.cons_prefix_cons.mpr ⟨rfl, hfront⟩, .cons hne (hkept ▸ hchain)⟩
      · refine ⟨[a], List.cons_prefix_cons.mpr ⟨rfl, List.nil_prefix⟩, .cons hne ?_⟩
        rw [hcut]
        exact .nil

theorem Chain.head_mem {final a : Node} {nodes : List Node}
    (h : Chain next final a nodes) (hne : a ≠ final) : a ∈ nodes := by
  cases h with
  | nil => exact absurd rfl hne
  | cons _ _ => simp

theorem Chain.next_mem {final a b : Node} {nodes : List Node}
    (h : Chain next final a nodes) (hb : b ∈ nodes) (hne : next b ≠ final) :
    next b ∈ nodes := by
  induction h with
  | nil => simp at hb
  | cons _ htail ih =>
      rcases List.mem_cons.mp hb with rfl | hb
      · exact List.mem_cons_of_mem _ (htail.head_mem hne)
      · exact List.mem_cons_of_mem _ (ih hb)

theorem Chain.tail {final a : Node} {nodes : List Node} (h : Chain next final a nodes)
    (hne : a ≠ final) : ∃ rest, nodes = a :: rest ∧ Chain next final (next a) rest := by
  cases h with
  | nil => exact absurd rfl hne
  | cons _ htail => exact ⟨_, rfl, htail⟩

theorem Chain.unique {final a : Node} {nodes nodes' : List Node} (h : Chain next final a nodes)
    (h' : Chain next final a nodes') : nodes = nodes' := by
  induction h generalizing nodes' with
  | nil =>
      cases h' with
      | nil => rfl
      | cons hne _ => exact absurd rfl hne
  | cons hne _ ih =>
      obtain ⟨rest, rfl, htail⟩ := h'.tail hne
      rw [ih htail]

theorem Chain.congr {next' : Node → Node} {final a : Node} {nodes : List Node}
    (h : Chain next final a nodes) (hnext : ∀ b ∈ nodes, next' b = next b) :
    Chain next' final a nodes := by
  induction h with
  | nil => exact .nil
  | cons hne _ ih =>
      refine .cons hne ?_
      rw [hnext _ List.mem_cons_self]
      exact ih fun b hb => hnext b (List.mem_cons_of_mem _ hb)

theorem Chain.iterate_length {final a : Node} {nodes : List Node}
    (h : Chain next final a nodes) : next^[nodes.length] a = final := by
  induction h with
  | nil => rfl
  | cons _ _ ih => exact ih

theorem Chain.iterate_mem {final a : Node} {nodes : List Node} (h : Chain next final a nodes)
    {k : Nat} (hk : ∀ i ≤ k, next^[i] a ≠ final) : next^[k] a ∈ nodes := by
  induction k with
  | zero => exact h.head_mem (hk 0 le_rfl)
  | succ k ih =>
      have hmem := ih fun i hi => hk i (Nat.le_succ_of_le hi)
      have hne := hk (k + 1) le_rfl
      rw [Function.iterate_succ_apply'] at hne ⊢
      exact h.next_mem hmem hne

theorem Chain.walk_mem {final a b : Node} {nodes : List Node} (h : Chain next final a nodes)
    (hfinal : stop final = true) {fuel : Nat} (hwalk : walk stop next fuel a = some b) :
    b = final ∨ b ∈ nodes := by
  induction h generalizing fuel with
  | nil =>
      cases fuel with
      | zero => cases hwalk
      | succ fuel =>
          rw [walk, if_pos hfinal] at hwalk
          exact .inl (Option.some.inj hwalk).symm
  | @cons c nodes hne htail ih =>
      cases fuel with
      | zero => cases hwalk
      | succ fuel =>
          rw [walk] at hwalk
          split at hwalk
          · exact .inr (Option.some.inj hwalk ▸ List.mem_cons_self)
          · exact (ih hwalk).imp_right (List.mem_cons_of_mem _)

theorem Chain.walk_congr {stop' : Node → Bool} {next' : Node → Node} {final a : Node}
    {nodes : List Node} (h : Chain next final a nodes) (hfinal : stop final = true)
    (hfinal' : stop' final = true) (hstop : ∀ b ∈ nodes, stop' b = stop b)
    (hnext : ∀ b ∈ nodes, next' b = next b) (fuel : Nat) :
    walk stop' next' fuel a = walk stop next fuel a := by
  induction h generalizing fuel with
  | nil =>
      cases fuel with
      | zero => rfl
      | succ fuel => rw [walk, walk, if_pos hfinal, if_pos hfinal']
  | @cons c nodes hne htail ih =>
      cases fuel with
      | zero => rfl
      | succ fuel =>
          have hrest := ih (fun b hb => hstop b (List.mem_cons_of_mem _ hb))
            (fun b hb => hnext b (List.mem_cons_of_mem _ hb)) fuel
          rw [walk, walk, hstop c List.mem_cons_self, hnext c List.mem_cons_self, hrest]

/-- Taking a node out behind its predecessor keeps every chain finite, also the
ones that share nodes with the chain it is taken from. -/
theorem Chain.skip {next' : Node → Node} {final a p : Node} {nodes : List Node}
    (h : Chain next final a nodes) (hp : next p ≠ final) (hskip : next' p = next (next p))
    (hnext : ∀ b ∈ nodes, b ≠ p → next' b = next b) :
    ∃ nodes', Chain next' final a nodes' ∧ ∀ b ∈ nodes', b ∈ nodes := by
  -- The chain behind the node that is taken out is two nodes shorter.
  induction hlen : nodes.length using Nat.strong_induction_on generalizing a nodes with
  | _ n ih =>
      cases h with
      | nil => exact ⟨[], .nil, by simp⟩
      | cons hne htail =>
          rename_i rest
          rw [List.length_cons] at hlen
          by_cases ha : a = p
          · subst ha
            cases htail with
            | nil => exact absurd rfl hp
            | cons hne' htail' =>
                rename_i rest'
                rw [List.length_cons] at hlen
                obtain ⟨nodes', hchain, hsub⟩ := ih rest'.length (by omega) htail'
                  (fun b hb => hnext b (by simp [hb])) rfl
                refine ⟨a :: nodes', .cons hne (hskip ▸ hchain), ?_⟩
                intro b hb
                rcases List.mem_cons.mp hb with rfl | hb
                · exact List.mem_cons_self
                · exact List.mem_cons_of_mem _ (List.mem_cons_of_mem _ (hsub b hb))
          · obtain ⟨nodes', hchain, hsub⟩ := ih rest.length (by omega) htail
              (fun b hb => hnext b (List.mem_cons_of_mem _ hb)) rfl
            have hsame : next' a = next a := hnext a List.mem_cons_self ha
            refine ⟨a :: nodes', .cons hne (hsame ▸ hchain), ?_⟩
            intro b hb
            rcases List.mem_cons.mp hb with rfl | hb
            · exact List.mem_cons_self
            · exact List.mem_cons_of_mem _ (hsub b hb)

end ShlteOs.PointerWalk
