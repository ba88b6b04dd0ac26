import ShlteOs.PointerWalk
import Mathlib.Data.List.Basic
import Mathlib.Order.Nat

/-!
Queues that a program and a device share.  The program polls until the queue meets a
condition and then puts something in or takes something out; the device moves on its
own between any two accesses.  A wait that ends does so for all fuel from some amount
on, which `Settles` states once for sequences of waits.
-/

namespace ShlteOs.PolledQueue

open ShlteOs.PointerWalk

variable {α : Type*}

section Queue

/-- A queue with everything that has left it, in order. -/
structure Queue (α : Type*) where
  passed : List α
  held : List α

/-- All elements the queue has accepted, in order. -/
def Queue.taken (q : Queue α) : List α :=
  q.passed ++ q.held

/-- A queue of the given depth has no place for more. -/
def Queue.push (depth : Nat) (q : Queue α) (a : α) : Queue α :=
  if q.held.length < depth then { q with held := q.held ++ [a] } else q

/-- The first element leaves the queue. -/
def Queue.pop (q : Queue α) : Queue α :=
  match q.held with
  | [] => q
  | a :: rest => { passed := q.passed ++ [a], held := rest }

theorem Queue.taken_pop (q : Queue α) : q.pop.taken = q.taken := by
  obtain ⟨passed, held⟩ := q
  cases held with
  | nil => rfl
  | cons a rest => exact List.append_assoc passed [a] rest

theorem Queue.length_pop (q : Queue α) : q.pop.held.length = q.held.length - 1 := by
  obtain ⟨passed, held⟩ := q
  cases held with
  | nil => rfl
  | cons a rest => rfl

theorem Queue.push_of_lt {depth : Nat} {q : Queue α} (h : q.held.length < depth) (a : α) :
    q.push depth a = { q with held := q.held ++ [a] } :=
  if_pos h

theorem Queue.push_of_le {depth : Nat} {q : Queue α} (h : depth ≤ q.held.length) (a : α) :
    q.push depth a = q :=
  if_neg (Nat.not_lt.mpr h)

theorem Queue.taken_push {depth : Nat} {q : Queue α} (h : q.held.length < depth) (a : α) :
    (q.push depth a).taken = q.taken ++ [a] := by
  rw [Queue.push_of_lt h, Queue.taken, Queue.taken, List.append_assoc]

end Queue

section Fuel

variable {β : Type*}

/-- With enough fuel the result is `a`. -/
def Settles (f : Nat → Option α) (a : α) : Prop :=
  ∃ n, ∀ fuel ≥ n, f fuel = some a

theorem Settles.const (a : α) : Settles (fun _ => some a) a :=
  ⟨0, fun _ _ => rfl⟩

theorem Settles.bind {f : Nat → Option α} {g : Nat → α → Option β} {a : α} {b : β}
    (hf : Settles f a) (hg : Settles (fun fuel => g fuel a) b) :
    Settles (fun fuel => (f fuel).bind (g fuel)) b := by
  obtain ⟨n, hn⟩ := hf
  obtain ⟨m, hm⟩ := hg
  refine ⟨max n m, fun fuel hfuel => ?_⟩
  beta_reduce
  rw [hn fuel (le_trans (le_max_left n m) hfuel), Option.bind_some]
  exact hm fuel (le_trans (le_max_right n m) hfuel)

theorem Settles.map {f : Nat → Option α} {a : α} (hf : Settles f a) (g : α → β) :
    Settles (fun fuel => (f fuel).map g) (g a) := by
  obtain ⟨n, hn⟩ := hf
  refine ⟨n, fun fuel hfuel => ?_⟩
  beta_reduce
  rw [hn fuel hfuel, Option.map_some]

theorem walk_settles {stop : α → Bool} {next : α → α} {a : α}
    (hends : ∃ n, stop (next^[n] a) = true) :
    ∃ n, stop (next^[n] a) = true ∧ Settles (fun fuel => walk stop next fuel a) (next^[n] a) := by
  classical
  refine ⟨Nat.find hends, Nat.find_spec hends, Nat.find hends + 1, fun fuel hfuel => ?_⟩
  rw [walk_eq_some_iff]
  refine ⟨Nat.find hends, hfuel, rfl, Nat.find_spec hends, fun i hi => ?_⟩
  exact Bool.eq_false_iff.mpr (Nat.find_min hends hi)

end Fuel

section Polling

/-- The queue and the number of accesses so far. -/
structure Polled (α : Type*) where
  queue : Queue α
  time : Nat

variable (device : Nat → Queue α → Queue α)

/-- The move of the device that goes with an access. -/
def Polled.tick (p : Polled α) : Polled α where
  queue := device p.time p.queue
  time := p.time + 1

/-- Read the state of the queue until it is ready. -/
def pollUntil (ready : Polled α → Bool) (fuel : Nat) (p : Polled α) : Option (Polled α) :=
  (walk ready (Polled.tick device) fuel p).map (Polled.tick device)

variable {device} {ready : Polled α → Bool}

theorem pollUntil_settles {p : Polled α}
    (hends : ∃ n, ready ((Polled.tick device)^[n] p) = true) :
    ∃ n, ready ((Polled.tick device)^[n] p) = true ∧
      Settles (fun fuel => pollUntil device ready fuel p) ((Polled.tick device)^[n + 1] p) := by
  obtain ⟨n, hready, hwalk⟩ := walk_settles hends
  refine ⟨n, hready, ?_⟩
  have hread := hwalk.map (Polled.tick device)
  rw [← Function.iterate_succ_apply' (Polled.tick device)] at hread
  exact hread

theorem exists_of_pollUntil {fuel : Nat} {p p' : Polled α}
    (h : pollUntil device ready fuel p = some p') : ∃ n, (Polled.tick device)^[n] p = p' := by
  obtain ⟨p₁, hwalk, rfl⟩ := Option.map_eq_some_iff.mp h
  obtain ⟨n, -, rfl, -, -⟩ := walk_eq_some_iff.mp hwalk
  exact ⟨n + 1, Function.iterate_succ_apply' _ n p⟩

theorem iterate_tick {P : Polled α → Prop} (hstep : ∀ p, P p → P (p.tick device)) {p : Polled α}
    (hp : P p) (n : Nat) : P ((Polled.tick device)^[n] p) := by
  induction n with
  | zero => exact hp
  | succ n ih =>
      rw [Function.iterate_succ_apply']
      exact hstep _ ih

theorem time_iterate_tick (p : Polled α) (n : Nat) :
    ((Polled.tick device)^[n] p).time = p.time + n := by
  induction n with
  | zero => rfl
  | succ n ih =>
      rw [Function.iterate_succ_apply', Polled.tick, ih]
      rfl

end Polling

section Draining

/-- The device takes the front of the queue at the chosen moments. -/
def drain (drains : Nat → Bool) (time : Nat) (q : Queue α) : Queue α :=
  if drains time then q.pop else q

/-- It never stops for good. -/
def Recurs (moments : Nat → Bool) : Prop :=
  ∀ t, ∃ t' ≥ t, moments t' = true

variable {drains : Nat → Bool}

theorem taken_drain (time : Nat) (q : Queue α) : (drain drains time q).taken = q.taken := by
  rw [drain]
  split
  · exact q.taken_pop
  · rfl

theorem length_drain_le (time : Nat) (q : Queue α) :
    (drain drains time q).held.length ≤ q.held.length := by
  rw [drain]
  split
  · rw [q.length_pop]
    exact Nat.sub_le _ _
  · rfl

theorem taken_iterate_drain (p : Polled α) (n : Nat) :
    ((Polled.tick (drain drains))^[n] p).queue.taken = p.queue.taken :=
  iterate_tick (P := fun p' => p'.queue.taken = p.queue.taken)
    (fun p' h => (taken_drain p'.time p'.queue).trans h) rfl n

theorem length_iterate_drain_le (p : Polled α) (n : Nat) :
    ((Polled.tick (drain drains))^[n] p).queue.held.length ≤ p.queue.held.length :=
  iterate_tick (P := fun p' => p'.queue.held.length ≤ p.queue.held.length)
    (fun p' h => (length_drain_le p'.time p'.queue).trans h) le_rfl n

theorem exists_empty (hdrains : Recurs drains) (p : Polled α) :
    ∃ n, ((Polled.tick (drain drains))^[n] p).queue.held = [] := by
  generalize hk : p.queue.held.length = k
  induction k using Nat.strong_induction_on generalizing p with
  | _ k ih =>
      rcases Nat.eq_zero_or_pos k with rfl | hpos
      · exact ⟨0, List.length_eq_zero_iff.mp hk⟩
      · obtain ⟨t, ht, hdrain⟩ := hdrains p.time
        -- after the next drain the queue is shorter
        have hshorter : ((Polled.tick (drain drains))^[t - p.time + 1] p).queue.held.length <
            k := by
          have hle : ((Polled.tick (drain drains))^[t - p.time] p).queue.held.length ≤
              p.queue.held.length := length_iterate_drain_le p (t - p.time)
          have htime : ((Polled.tick (drain drains))^[t - p.time] p).time = t := by
            rw [time_iterate_tick, Nat.add_sub_cancel' ht]
          rw [Function.iterate_succ_apply', Polled.tick, htime, drain, if_pos hdrain,
            Queue.length_pop]
          omega
        obtain ⟨n, hn⟩ := ih _ hshorter _ rfl
        refine ⟨n + (t - p.time + 1), ?_⟩
        rw [Function.iterate_add_apply]
        exact hn

end Draining

end ShlteOs.PolledQueue
