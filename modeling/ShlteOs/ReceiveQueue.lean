import ShlteOs.ByteMemory
import ShlteOs.PolledQueue

/-!
Reading from the console.  Bytes arrive in a queue of the port at moments of their own,
and one that finds the queue full, or the receiver off, is lost.  `uart_getc` waits for a
byte and `uart_getc_nonblock` answers -1 if there is none; over any sequence of such calls
the values they return give the bytes in the order in which the queue took them in.
-/

namespace ShlteOs.ReceiveQueue

open ShlteOs.ByteMemory
open ShlteOs.PolledQueue

variable {α : Type}

section Line

variable (depth : Nat) (arrives : Nat → Option α) (fuel : Nat)

/-- What arrives is dropped when the queue is full. -/
def receive (time : Nat) (q : Queue α) : Queue α :=
  match arrives time with
  | some a => q.push depth a
  | none => q

/-- A receiver that is off lets everything pass. -/
def device (enabled : Bool) : Nat → Queue α → Queue α :=
  if enabled then receive depth arrives else fun _ q => q

def nonEmpty (p : Polled α) : Bool :=
  !p.queue.held.isEmpty

/-- A read of the data register. -/
def readData (enabled : Bool) (p : Polled α) : Option (α × Polled α) :=
  p.queue.held.head?.map fun a =>
    (a, Polled.tick (device depth arrives enabled) { p with queue := p.queue.pop })

/-- Poll the state until there is something to read, and read it. -/
def awaitData (enabled : Bool) (p : Polled α) : Option (α × Polled α) :=
  (pollUntil (device depth arrives enabled) nonEmpty fuel p).bind (readData depth arrives enabled)

/-- Read if there is something; the inner `none` is an empty queue. -/
def tryData (enabled : Bool) (p : Polled α) : Option (Option α × Polled α) :=
  if nonEmpty p then
    (readData depth arrives enabled (p.tick (device depth arrives enabled))).map
      fun (a, p) => (some a, p)
  else some (none, p.tick (device depth arrives enabled))

end Line

section Drivers

/-- The two functions that read a byte. -/
inductive Call
  | getc
  | getcNonblock
  deriving DecidableEq

/-- The byte a caller gets out of a value. -/
def Call.byte (v : Int) : Call → Option Byte
  | .getc => some (BitVec.ofInt 8 v)
  | .getcNonblock => if v = -1 then none else some (BitVec.ofInt 8 v)

/-- The bytes a sequence of calls gives, from the values returned. -/
def bytesRead : List Call → List Int → List Byte
  | call :: calls, v :: vs => (call.byte v).toList ++ bytesRead calls vs
  | _, _ => []

/-- The values that a sequence of calls returns. -/
def session {σ : Type} (apply : Call → σ → Option (Int × σ)) :
    List Call → σ → Option (List Int × σ)
  | [], s => some ([], s)
  | call :: calls, s =>
      (apply call s).bind fun (v, s) => (session apply calls s).map fun (vs, s) => (v :: vs, s)

/-- What arrives at the port in `n` moments from `t` on. -/
def arrivals (arrives : Nat → Option α) (t n : Nat) : List α :=
  (List.range' t n).filterMap arrives

/-- The `int` that `uart_getc_nonblock` returns. -/
def intOf {w : Nat} (a : Option (BitVec w)) : Int :=
  (a.map fun a => (a.toNat : Int)).getD (-1)

section Com1

variable (depth : Nat) (arrives : Nat → Option Byte) (fuel : Nat)

/-- A 16550 holds bytes, and a `char` is signed. -/
def Com1.uartGetc (p : Polled Byte) : Option (Int × Polled Byte) :=
  (awaitData depth arrives fuel true p).map fun (a, p) => (a.toInt, p)

def Com1.uartGetcNonblock (p : Polled Byte) : Option (Int × Polled Byte) :=
  (tryData depth arrives true p).map fun (a, p) => (intOf a, p)

def Com1.apply : Call → Polled Byte → Option (Int × Polled Byte)
  | .getc => Com1.uartGetc depth arrives fuel
  | .getcNonblock => Com1.uartGetcNonblock depth arrives

end Com1

/-- The driver's `uart_base`, set or not, and a PL011: whether its receiver is on, and the
queue, which holds four error flags with every byte.  `uart_init` leaves the receiver on. -/
structure Pl011 where
  initialized : Bool
  enabled : Bool
  line : Polled (BitVec 12)
  ready : initialized = true → enabled = true

/-- The state in which `uart_init` leaves the driver and the port. -/
def Pl011.started (p : Polled (BitVec 12)) : Pl011 where
  initialized := true
  enabled := true
  line := p
  ready := fun _ => rfl

section Pl011

variable (depth : Nat) (arrives : Nat → Option (BitVec 12)) (busy : Nat → Bool) (fuel : Nat)

def notBusy (p : Polled (BitVec 12)) : Bool :=
  !busy p.time

/-- Once the port is not busy, `UART_CR`, `UART_IMSC` and `UART_ICR` are written with the
receiver off and `UART_CR` again to put it on. -/
def Pl011.uartInit (st : Pl011) : Option Pl011 :=
  (pollUntil (device depth arrives st.enabled) (notBusy busy) fuel st.line).map fun p =>
    .started (Polled.tick (device depth arrives true)
      ((Polled.tick (device depth arrives false))^[3] p))

/-- The driver initializes the port on first use. -/
def Pl011.prepared (st : Pl011) : Option Pl011 :=
  if st.initialized then some st else Pl011.uartInit depth arrives busy fuel st

/-- A `char` is unsigned. -/
def Pl011.uartGetc (st : Pl011) : Option (Int × Pl011) :=
  (Pl011.prepared depth arrives busy fuel st).bind fun st =>
    (awaitData depth arrives fuel st.enabled st.line).map fun (a, p) =>
      (((a.setWidth 8).toNat : Int), { st with line := p })

def Pl011.uartGetcNonblock (st : Pl011) : Option (Int × Pl011) :=
  (Pl011.prepared depth arrives busy fuel st).bind fun st =>
    (tryData depth arrives st.enabled st.line).map fun (a, p) =>
      (intOf a, { st with line := p })

def Pl011.apply : Call → Pl011 → Option (Int × Pl011)
  | .getc => Pl011.uartGetc depth arrives busy fuel
  | .getcNonblock => Pl011.uartGetcNonblock depth arrives busy fuel

end Pl011

end Drivers

section Moments

variable {depth : Nat} {arrives : Nat → Option α} {listening enabled : Bool}

theorem receive_of_some {t : Nat} {a : α} (h : arrives t = some a) (q : Queue α) :
    receive depth arrives t q = q.push depth a := by
  rw [receive, h]

theorem receive_of_none {t : Nat} (h : arrives t = none) (q : Queue α) :
    receive depth arrives t q = q := by
  rw [receive, h]

/-- From one moment to a later one the queue only took things in at the back, in the
order in which they came, and all of them if it was listening and there was a place for
each. -/
structure Received (depth : Nat) (arrives : Nat → Option α) (listening : Bool)
    (p p' : Polled α) : Prop where
  le_time : p.time ≤ p'.time
  held_le : p'.queue.held.length ≤
    p.queue.held.length + (arrivals arrives p.time (p'.time - p.time)).length
  taken : ∃ got, p'.queue.taken = p.queue.taken ++ got ∧
    got.Sublist (arrivals arrives p.time (p'.time - p.time)) ∧
    (listening = true →
      p.queue.held.length + (arrivals arrives p.time (p'.time - p.time)).length ≤ depth →
        got = arrivals arrives p.time (p'.time - p.time))

theorem Received.refl (p : Polled α) : Received depth arrives listening p p := by
  refine ⟨le_rfl, by omega, [], (List.append_nil _).symm, List.nil_sublist _, fun _ _ => ?_⟩
  rw [Nat.sub_self]
  rfl

theorem arrivals_split (arrives : Nat → Option α) {s t u : Nat} (hst : s ≤ t) (htu : t ≤ u) :
    arrivals arrives s (u - s) = arrivals arrives s (t - s) ++ arrivals arrives t (u - t) := by
  have hrange : List.range' s (u - s) = List.range' s (t - s) ++ List.range' t (u - t) := by
    have happend := List.range'_append_1 (s := s) (m := t - s) (n := u - t)
    rw [Nat.add_sub_cancel' hst] at happend
    rw [happend]
    congr 1
    omega
  rw [arrivals, hrange, List.filterMap_append]
  rfl

theorem Received.trans {p p₁ p' : Polled α} (h : Received depth arrives listening p p₁)
    (h' : Received depth arrives listening p₁ p') : Received depth arrives listening p p' := by
  obtain ⟨got, htaken, hsub, hall⟩ := h.taken
  obtain ⟨got', htaken', hsub', hall'⟩ := h'.taken
  have hsplit := arrivals_split arrives h.le_time h'.le_time
  have hheld := h.held_le
  have hheld' := h'.held_le
  refine ⟨h.le_time.trans h'.le_time, ?_, got ++ got', ?_, ?_, ?_⟩
  · rw [hsplit, List.length_append]
    omega
  · rw [htaken', htaken, List.append_assoc]
  · rw [hsplit]
    exact hsub.append hsub'
  · intro hlistening hroom
    rw [hsplit, List.length_append] at hroom
    rw [hsplit, hall hlistening (by omega), hall' hlistening (by omega)]

theorem arrivals_one (arrives : Nat → Option α) (t : Nat) :
    arrivals arrives t (t + 1 - t) = (arrives t).toList := by
  rw [Nat.add_sub_cancel_left, arrivals, List.range'_one, List.filterMap_cons, List.filterMap_nil]
  cases arrives t with
  | none => rfl
  | some a => rfl

theorem Received.receive (p : Polled α) :
    Received depth arrives listening p (p.tick (receive depth arrives)) := by
  have hone := arrivals_one arrives p.time
  rw [Polled.tick]
  cases hnext : arrives p.time with
  | none =>
      rw [hnext] at hone
      rw [receive_of_none hnext]
      exact ⟨Nat.le_succ _, Nat.le_add_right _ _, [], (List.append_nil _).symm,
        List.nil_sublist _, fun _ _ => hone.symm⟩
  | some a =>
      have harrived : arrivals arrives p.time (p.time + 1 - p.time) = [a] := by
        rw [hone, hnext]
        rfl
      rw [receive_of_some hnext]
      by_cases hroom : p.queue.held.length < depth
      · refine ⟨Nat.le_succ _, ?_, [a], Queue.taken_push hroom a, ?_, fun _ _ => ?_⟩
        · rw [harrived, Queue.push_of_lt hroom, List.length_append]
        · rw [harrived]
        · rw [harrived]
      · rw [Queue.push_of_le (Nat.not_lt.mp hroom)]
        refine ⟨Nat.le_succ _, Nat.le_add_right _ _, [], (List.append_nil _).symm,
          List.nil_sublist _, fun _ h => absurd h ?_⟩
        rw [harrived, List.length_singleton]
        omega

theorem Received.tick (h : listening = true → enabled = true) (p : Polled α) :
    Received depth arrives listening p (p.tick (device depth arrives enabled)) := by
  cases enabled with
  | true => exact .receive p
  | false =>
      exact ⟨Nat.le_succ _, Nat.le_add_right _ _, [], (List.append_nil _).symm,
        List.nil_sublist _, fun hlistening => absurd (h hlistening) Bool.false_ne_true⟩

theorem Received.pop (p : Polled α) :
    Received depth arrives listening p { p with queue := p.queue.pop } := by
  refine ⟨le_rfl, ?_, [], ?_, List.nil_sublist _, fun _ _ => ?_⟩
  · rw [Queue.length_pop]
    omega
  · rw [Queue.taken_pop, List.append_nil]
  · rw [Nat.sub_self]
    rfl

theorem Received.iterate (h : listening = true → enabled = true) (p : Polled α) (n : Nat) :
    Received depth arrives listening p
      ((Polled.tick (device depth arrives enabled))^[n] p) :=
  iterate_tick (P := fun p' => Received depth arrives listening p p')
    (fun p' hp' => hp'.trans (.tick h p')) (.refl p) n

theorem held_ne_nil_tick (depth : Nat) (arrives : Nat → Option α) (enabled : Bool) {p : Polled α}
    (h : p.queue.held ≠ []) :
    (p.tick (device depth arrives enabled)).queue.held ≠ [] := by
  cases enabled with
  | false => exact h
  | true =>
      change (receive depth arrives p.time p.queue).held ≠ []
      cases hnext : arrives p.time with
      | none =>
          rw [receive_of_none hnext]
          exact h
      | some a =>
          rw [receive_of_some hnext]
          by_cases hroom : p.queue.held.length < depth
          · rw [Queue.push_of_lt hroom]
            exact List.append_ne_nil_of_right_ne_nil _ (List.cons_ne_nil a [])
          · rw [Queue.push_of_le (Nat.not_lt.mp hroom)]
            exact h

theorem passed_tick (p : Polled α) :
    (p.tick (device depth arrives enabled)).queue.passed = p.queue.passed := by
  cases enabled with
  | false => rfl
  | true =>
      change (receive depth arrives p.time p.queue).passed = p.queue.passed
      cases hnext : arrives p.time with
      | none => rw [receive_of_none hnext]
      | some a =>
          rw [receive_of_some hnext, Queue.push]
          split <;> rfl

theorem passed_iterate (p : Polled α) (n : Nat) :
    ((Polled.tick (device depth arrives enabled))^[n] p).queue.passed = p.queue.passed :=
  iterate_tick (P := fun p' => p'.queue.passed = p.queue.passed)
    (fun p' h => (passed_tick p').trans h) rfl n

end Moments

section Reads

variable {depth : Nat} {arrives : Nat → Option α} {listening enabled : Bool}

theorem readData_of_cons {p : Polled α} {a : α} {rest : List α} (h : p.queue.held = a :: rest) :
    readData depth arrives enabled p = some (a, Polled.tick (device depth arrives enabled)
      { p with queue := p.queue.pop }) := by
  rw [readData, h]
  rfl

theorem readData_spec (hon : listening = true → enabled = true) {p p' : Polled α} {a : α}
    (h : readData depth arrives enabled p = some (a, p')) :
    Received depth arrives listening p p' ∧ p'.queue.passed = p.queue.passed ++ [a] := by
  obtain ⟨⟨passed, held⟩, time⟩ := p
  cases held with
  | nil => cases h
  | cons b rest =>
      obtain ⟨rfl, rfl⟩ := Prod.mk.inj (Option.some.inj h)
      exact ⟨(Received.pop _).trans (.tick hon _), passed_tick _⟩

theorem awaitData_spec (hon : listening = true → enabled = true) {fuel : Nat} {p p' : Polled α}
    {a : α} (h : awaitData depth arrives fuel enabled p = some (a, p')) :
    Received depth arrives listening p p' ∧ p'.queue.passed = p.queue.passed ++ [a] := by
  obtain ⟨p₁, hpoll, hread⟩ := Option.bind_eq_some_iff.mp h
  obtain ⟨n, rfl⟩ := exists_of_pollUntil hpoll
  obtain ⟨hreceived, hpassed⟩ := readData_spec hon hread
  exact ⟨(Received.iterate hon p _).trans hreceived, by rw [hpassed, passed_iterate]⟩

theorem tryData_spec (hon : listening = true → enabled = true) {p p' : Polled α} {a : Option α}
    (h : tryData depth arrives enabled p = some (a, p')) :
    Received depth arrives listening p p' ∧ p'.queue.passed = p.queue.passed ++ a.toList := by
  rw [tryData] at h
  split at h
  · obtain ⟨⟨b, p₁⟩, hread, heq⟩ := Option.map_eq_some_iff.mp h
    obtain ⟨rfl, rfl⟩ := Prod.mk.inj heq
    obtain ⟨hreceived, hpassed⟩ := readData_spec hon hread
    exact ⟨(Received.tick hon p).trans hreceived, by rw [hpassed, passed_tick]; rfl⟩
  · obtain ⟨rfl, rfl⟩ := Prod.mk.inj (Option.some.inj h)
    exact ⟨.tick hon p, by rw [passed_tick]; exact (List.append_nil _).symm⟩

theorem tryData_returns (depth : Nat) (arrives : Nat → Option α) (enabled : Bool) (p : Polled α) :
    ∃ r, tryData depth arrives enabled p = some r := by
  rw [tryData]
  split
  · rename_i hready
    have hheld : p.queue.held ≠ [] := by simpa [nonEmpty] using hready
    obtain ⟨a, rest, hcons⟩ := List.exists_cons_of_ne_nil
      (held_ne_nil_tick depth arrives enabled hheld)
    rw [readData_of_cons hcons]
    exact ⟨_, rfl⟩
  · exact ⟨_, rfl⟩

theorem exists_nonEmpty (hdepth : 0 < depth) (hrecurs : Recurs fun t => (arrives t).isSome)
    (p : Polled α) :
    ∃ n, nonEmpty ((Polled.tick (device depth arrives true))^[n] p) = true := by
  obtain ⟨t, ht, hsome⟩ := hrecurs p.time
  obtain ⟨a, ha⟩ := Option.isSome_iff_exists.mp hsome
  by_cases hempty : ((Polled.tick (device depth arrives true))^[t - p.time] p).queue.held = []
  · refine ⟨t - p.time + 1, ?_⟩
    have htime : ((Polled.tick (device depth arrives true))^[t - p.time] p).time = t := by
      rw [time_iterate_tick, Nat.add_sub_cancel' ht]
    have hroom : ((Polled.tick (device depth arrives true))^[t - p.time] p).queue.held.length <
        depth := by
      rw [hempty]
      exact hdepth
    have hdevice : device depth arrives true = receive depth arrives := rfl
    rw [Function.iterate_succ_apply', Polled.tick, htime, hdevice, receive_of_some ha, nonEmpty,
      Queue.push_of_lt (by rwa [hdevice] at hroom)]
    simp
  · exact ⟨t - p.time, by simpa [nonEmpty] using hempty⟩

theorem awaitData_settles (hdepth : 0 < depth) (hrecurs : Recurs fun t => (arrives t).isSome)
    (p : Polled α) : ∃ r, Settles (fun fuel => awaitData depth arrives fuel true p) r := by
  obtain ⟨n, hready, hpolled⟩ := pollUntil_settles (exists_nonEmpty hdepth hrecurs p)
  have hheld : ((Polled.tick (device depth arrives true))^[n] p).queue.held ≠ [] := by
    simpa [nonEmpty] using hready
  obtain ⟨a, rest, hcons⟩ := List.exists_cons_of_ne_nil
    (held_ne_nil_tick depth arrives true hheld)
  rw [← Function.iterate_succ_apply' (Polled.tick (device depth arrives true))] at hcons
  exact ⟨_, hpolled.bind (g := fun _ => readData depth arrives true)
    ⟨0, fun _ _ => readData_of_cons hcons⟩⟩

end Reads

section Sessions

variable {σ : Type} {data : α → Byte} {depth : Nat} {arrives : Nat → Option α} {listening : Bool}

/-- What one call does: the byte it returns, if any, is the one that leaves the queue. -/
structure Answered (data : α → Byte) (depth : Nat) (arrives : Nat → Option α) (listening : Bool)
    (call : Call) (p : Polled α) (v : Int) (p' : Polled α) : Prop where
  received : Received depth arrives listening p p'
  passed : p'.queue.passed.map data = p.queue.passed.map data ++ (call.byte v).toList

/-- What a sequence of calls does: the bytes returned are those that left the queue, one
for one and in order, and the queue took in what arrived in order too, everything if it
was listening and there was a place for it. -/
structure Read (data : α → Byte) (depth : Nat) (arrives : Nat → Option α) (listening : Bool)
    (calls : List Call) (p : Polled α) (vs : List Int) (p' : Polled α) : Prop where
  bytes : p'.queue.passed.map data = p.queue.passed.map data ++ bytesRead calls vs
  taken : ∃ got, p'.queue.taken = p.queue.taken ++ got ∧
    got.Sublist (arrivals arrives p.time (p'.time - p.time)) ∧
    (listening = true →
      p.queue.held.length + (arrivals arrives p.time (p'.time - p.time)).length ≤ depth →
        got = arrivals arrives p.time (p'.time - p.time))

/-- Run rule: a driver whose calls are each answered, from states that keep an invariant,
reads over any sequence of calls. -/
theorem session_read {apply : Call → σ → Option (Int × σ)} (line : σ → Polled α)
    (Inv : σ → Prop)
    (hstep : ∀ call s v s', Inv s → apply call s = some (v, s') →
      Answered data depth arrives listening call (line s) v (line s') ∧ Inv s')
    {calls : List Call} {s s' : σ} {vs : List Int} (hs : Inv s)
    (h : session apply calls s = some (vs, s')) :
    Read data depth arrives listening calls (line s) vs (line s') := by
  suffices hboth : Received depth arrives listening (line s) (line s') ∧
      (line s').queue.passed.map data = (line s).queue.passed.map data ++ bytesRead calls vs from
    ⟨hboth.2, hboth.1.taken⟩
  induction calls generalizing s vs with
  | nil =>
      obtain ⟨rfl, rfl⟩ := Prod.mk.inj (Option.some.inj h)
      exact ⟨.refl _, (List.append_nil _).symm⟩
  | cons call calls ih =>
      obtain ⟨⟨v, s₁⟩, happly, hrest⟩ := Option.bind_eq_some_iff.mp h
      obtain ⟨⟨ws, s₂⟩, hsession, heq⟩ := Option.map_eq_some_iff.mp hrest
      obtain ⟨rfl, rfl⟩ := Prod.mk.inj heq
      obtain ⟨hanswered, hinv⟩ := hstep call s v s₁ hs happly
      obtain ⟨hreceived, hpassed⟩ := ih hinv hsession
      refine ⟨hanswered.received.trans hreceived, ?_⟩
      rw [hpassed, hanswered.passed, List.append_assoc, bytesRead]

/-- Return rule: if each call returns with enough fuel, so does a sequence of them. -/
theorem session_settles {apply : Nat → Call → σ → Option (Int × σ)} (Inv : σ → Prop)
    {calls : List Call}
    (hstep : ∀ call ∈ calls, ∀ s, Inv s →
      ∃ v s', Settles (fun fuel => apply fuel call s) (v, s') ∧ Inv s')
    {s : σ} (hs : Inv s) : ∃ r, Settles (fun fuel => session (apply fuel) calls s) r := by
  induction calls generalizing s with
  | nil => exact ⟨([], s), .const _⟩
  | cons call calls ih =>
      obtain ⟨v, s₁, happly, hinv⟩ := hstep call List.mem_cons_self s hs
      obtain ⟨r, hrest⟩ := ih (fun call' h => hstep call' (List.mem_cons_of_mem call h)) hinv
      refine ⟨(v :: r.1, r.2), ?_⟩
      exact happly.bind (g := fun fuel r =>
        (session (apply fuel) calls r.2).map fun r' => (r.1 :: r'.1, r'.2))
        (hrest.map fun r' => (v :: r'.1, r'.2))

end Sessions

section Com1

variable {depth fuel : Nat} {arrives : Nat → Option Byte}

theorem Com1.answered {call : Call} {p p' : Polled Byte} {v : Int}
    (h : Com1.apply depth arrives fuel call p = some (v, p')) :
    Answered id depth arrives true call p v p' := by
  cases call with
  | getc =>
      obtain ⟨⟨a, p₁⟩, hawait, heq⟩ := Option.map_eq_some_iff.mp h
      obtain ⟨rfl, rfl⟩ := Prod.mk.inj heq
      obtain ⟨hreceived, hpassed⟩ := awaitData_spec (fun _ => rfl) hawait
      refine ⟨hreceived, ?_⟩
      rw [hpassed, List.map_append, Call.byte, BitVec.ofInt_toInt]
      rfl
  | getcNonblock =>
      obtain ⟨⟨a, p₁⟩, htry, heq⟩ := Option.map_eq_some_iff.mp h
      obtain ⟨rfl, rfl⟩ := Prod.mk.inj heq
      obtain ⟨hreceived, hpassed⟩ := tryData_spec (fun _ => rfl) htry
      refine ⟨hreceived, ?_⟩
      rw [hpassed, List.map_append]
      cases a with
      | none => rfl
      | some a =>
          have hvalue : (a.toNat : Int) ≠ -1 := by omega
          rw [intOf, Option.map_some, Option.getD_some, Call.byte, if_neg hvalue,
            BitVec.ofInt_natCast, BitVec.ofNat_toNat, BitVec.setWidth_eq]
          rfl

theorem Com1.settles (hdepth : 0 < depth) (call : Call)
    (hrecurs : call = .getc → Recurs fun t => (arrives t).isSome) (p : Polled Byte) :
    ∃ v p', Settles (fun fuel => Com1.apply depth arrives fuel call p) (v, p') := by
  cases call with
  | getc =>
      obtain ⟨r, hsettles⟩ := awaitData_settles hdepth (hrecurs rfl) p
      exact ⟨_, _, hsettles.map fun r => (r.1.toInt, r.2)⟩
  | getcNonblock =>
      obtain ⟨r, hreturns⟩ := tryData_returns depth arrives true p
      refine ⟨intOf r.1, r.2, 0, fun fuel _ => ?_⟩
      beta_reduce
      rw [Com1.apply, Com1.uartGetcNonblock, hreturns, Option.map_some]

end Com1

section Pl011

variable {depth fuel : Nat} {arrives : Nat → Option (BitVec 12)} {busy : Nat → Bool}
  {listening : Bool}

theorem Pl011.prepared_spec (listening : Bool) {st st' : Pl011}
    (hon : listening = true → st.initialized = true)
    (h : Pl011.prepared depth arrives busy fuel st = some st') :
    Received depth arrives listening st.line st'.line ∧
      st'.line.queue.passed = st.line.queue.passed ∧ st'.initialized = true := by
  rw [Pl011.prepared] at h
  split at h
  · rename_i hinit
    obtain rfl := Option.some.inj h
    exact ⟨.refl _, rfl, hinit⟩
  · rename_i hinit
    have hoff : ∀ enabled : Bool, listening = true → enabled = true :=
      fun _ hlistening => absurd (hon hlistening) hinit
    obtain ⟨p₁, hpoll, rfl⟩ := Option.map_eq_some_iff.mp h
    obtain ⟨n, rfl⟩ := exists_of_pollUntil hpoll
    refine ⟨?_, ?_, rfl⟩
    · exact ((Received.iterate (hoff _) _ _).trans (.iterate (hoff _) _ 3)).trans (.tick (hoff _) _)
    · rw [Pl011.started, passed_tick, passed_iterate, passed_iterate]

theorem Pl011.prepared_settles (depth : Nat) (arrives : Nat → Option (BitVec 12)) {st : Pl011}
    (hidle : st.initialized = false → Recurs fun t => !busy t) :
    ∃ st', Settles (fun fuel => Pl011.prepared depth arrives busy fuel st) st' := by
  cases hinit : st.initialized with
  | true =>
      refine ⟨st, 0, fun fuel _ => ?_⟩
      beta_reduce
      rw [Pl011.prepared, if_pos hinit]
  | false =>
      obtain ⟨t, ht, hquiet⟩ := hidle hinit st.line.time
      have hends : ∃ n,
          notBusy busy ((Polled.tick (device depth arrives st.enabled))^[n] st.line) = true := by
        refine ⟨t - st.line.time, ?_⟩
        rw [notBusy, time_iterate_tick, Nat.add_sub_cancel' ht]
        exact hquiet
      obtain ⟨n, -, hsettles⟩ := pollUntil_settles hends
      have hprepared : ∀ fuel, Pl011.prepared depth arrives busy fuel st =
          (pollUntil (device depth arrives st.enabled) (notBusy busy) fuel st.line).map fun p =>
            .started (Polled.tick (device depth arrives true)
              ((Polled.tick (device depth arrives false))^[3] p)) := by
        intro fuel
        rw [Pl011.prepared, if_neg (by simp [hinit]), Pl011.uartInit]
      simp only [hprepared]
      exact ⟨_, hsettles.map _⟩

theorem Pl011.answered {call : Call} {st st' : Pl011} {v : Int}
    (hon : listening = true → st.initialized = true)
    (h : Pl011.apply depth arrives busy fuel call st = some (v, st')) :
    Answered (BitVec.setWidth 8) depth arrives listening call st.line v st'.line ∧
      st'.initialized = true := by
  cases call with
  | getc =>
      obtain ⟨st₁, hprepared, hcall⟩ := Option.bind_eq_some_iff.mp h
      obtain ⟨hearlier, hsame, hinit⟩ := Pl011.prepared_spec listening hon hprepared
      obtain ⟨⟨a, p⟩, hawait, heq⟩ := Option.map_eq_some_iff.mp hcall
      obtain ⟨rfl, rfl⟩ := Prod.mk.inj heq
      obtain ⟨hreceived, hpassed⟩ := awaitData_spec (fun _ => st₁.ready hinit) hawait
      refine ⟨⟨hearlier.trans hreceived, ?_⟩, hinit⟩
      rw [hpassed, hsame, List.map_append, Call.byte, BitVec.ofInt_natCast, BitVec.ofNat_toNat,
        BitVec.setWidth_eq]
      rfl
  | getcNonblock =>
      obtain ⟨st₁, hprepared, hcall⟩ := Option.bind_eq_some_iff.mp h
      obtain ⟨hearlier, hsame, hinit⟩ := Pl011.prepared_spec listening hon hprepared
      obtain ⟨⟨a, p⟩, htry, heq⟩ := Option.map_eq_some_iff.mp hcall
      obtain ⟨rfl, rfl⟩ := Prod.mk.inj heq
      obtain ⟨hreceived, hpassed⟩ := tryData_spec (fun _ => st₁.ready hinit) htry
      refine ⟨⟨hearlier.trans hreceived, ?_⟩, hinit⟩
      rw [hpassed, hsame, List.map_append]
      cases a with
      | none => rfl
      | some a =>
          have hvalue : (a.toNat : Int) ≠ -1 := by omega
          rw [intOf, Option.map_some, Option.getD_some, Call.byte, if_neg hvalue,
            BitVec.ofInt_natCast, BitVec.ofNat_toNat]
          rfl

theorem Pl011.settles (hdepth : 0 < depth) (call : Call)
    (hrecurs : call = .getc → Recurs fun t => (arrives t).isSome) {st : Pl011}
    (hidle : st.initialized = false → Recurs fun t => !busy t) :
    ∃ v st', Settles (fun fuel => Pl011.apply depth arrives busy fuel call st) (v, st') ∧
      st'.initialized = true := by
  obtain ⟨st₁, n, hprepared⟩ := Pl011.prepared_settles depth arrives hidle
  have hinit : st₁.initialized = true :=
    (Pl011.prepared_spec false (fun h => absurd h Bool.false_ne_true)
      (hprepared n le_rfl)).2.2
  have henabled := st₁.ready hinit
  cases call with
  | getc =>
      obtain ⟨r, hsettles⟩ := awaitData_settles hdepth (hrecurs rfl) st₁.line
      refine ⟨((r.1.setWidth 8).toNat : Int), { st₁ with line := r.2 },
        Settles.bind ⟨n, hprepared⟩ ?_, hinit⟩
      have hawait := hsettles.map fun r =>
        (((r.1.setWidth 8).toNat : Int), ({ st₁ with line := r.2 } : Pl011))
      rw [← henabled] at hawait
      exact hawait
  | getcNonblock =>
      obtain ⟨r, hreturns⟩ := tryData_returns depth arrives st₁.enabled st₁.line
      refine ⟨intOf r.1, { st₁ with line := r.2 },
        Settles.bind ⟨n, hprepared⟩ ⟨0, fun _ _ => ?_⟩, hinit⟩
      beta_reduce
      rw [hreturns, Option.map_some]

end Pl011

/-- Over every sequence of blocking and non-blocking reads, with bytes arriving at any
moments, what is returned is what left the queue.  On the PL011 this includes the first
call, which initializes the port; only then can an arrival find the receiver off.  Every
sequence returns if something arrives again and again wherever a call waits for it, and an
uninitialized PL011 is not busy for good. -/
theorem sessions_read {depth : Nat} (hdepth : 0 < depth) (calls : List Call) :
    (∀ (arrives : Nat → Option Byte) (p : Polled Byte),
      (∀ fuel vs p', session (Com1.apply depth arrives fuel) calls p = some (vs, p') →
        Read id depth arrives true calls p vs p') ∧
      ((.getc ∈ calls → Recurs fun t => (arrives t).isSome) →
        ∃ r, Settles (fun fuel => session (Com1.apply depth arrives fuel) calls p) r)) ∧
    ∀ (arrives : Nat → Option (BitVec 12)) (busy : Nat → Bool) (st : Pl011),
      (∀ fuel vs st', session (Pl011.apply depth arrives busy fuel) calls st = some (vs, st') →
        Read (BitVec.setWidth 8) depth arrives st.initialized calls st.line vs st'.line) ∧
      ((.getc ∈ calls → Recurs fun t => (arrives t).isSome) →
        (st.initialized = false → Recurs fun t => !busy t) →
          ∃ r, Settles (fun fuel => session (Pl011.apply depth arrives busy fuel) calls st) r) := by
  refine ⟨fun arrives p => ⟨fun fuel vs p' h => ?_, fun hrecurs => ?_⟩,
    fun arrives busy st => ⟨fun fuel vs st' h => ?_, fun hrecurs hidle => ?_⟩⟩
  · refine session_read (fun p => p) (fun _ => True) (fun call s v s' _ happly => ?_) trivial h
    exact ⟨Com1.answered happly, trivial⟩
  · refine session_settles (fun _ => True) (fun call hcall s _ => ?_) trivial
    obtain ⟨v, s', hsettles⟩ := Com1.settles hdepth call
      (fun heq => hrecurs (heq ▸ hcall)) s
    exact ⟨v, s', hsettles, trivial⟩
  · refine session_read Pl011.line (fun s => st.initialized = true → s.initialized = true)
      (fun call s v s' hs happly => ?_) id h
    obtain ⟨hanswered, hinit⟩ := Pl011.answered hs happly
    exact ⟨hanswered, fun _ => hinit⟩
  · refine session_settles (fun s => s.initialized = false → Recurs fun t => !busy t)
      (fun call hcall s hs => ?_) hidle
    obtain ⟨v, s', hsettles, hinit⟩ := Pl011.settles hdepth call
      (fun heq => hrecurs (heq ▸ hcall)) hs
    exact ⟨v, s', hsettles, fun h => absurd hinit (by simp [h])⟩

/-- A PL011 that has not been initialized, and a byte with an error flag at every moment. -/
theorem sessions_read_pl011 :
    0 < 16 ∧ ∃ r, Settles (fun fuel => session
      (Pl011.apply 16 (fun _ => some 0x841) (fun _ => false) fuel) [.getcNonblock, .getc]
        ⟨false, false, ⟨⟨[], []⟩, 0⟩, fun h => h⟩) r := by
  refine ⟨by decide, ?_⟩
  exact ((sessions_read (by decide : 0 < 16) [.getcNonblock, .getc]).2 (fun _ => some 0x841)
    (fun _ => false) ⟨false, false, ⟨⟨[], []⟩, 0⟩, fun h => h⟩).2
    (fun _ t => ⟨t, le_rfl, rfl⟩) (fun _ t => ⟨t, le_rfl, rfl⟩)

end ShlteOs.ReceiveQueue
