import ShlteOs.ConsoleOutput
import ShlteOs.PolledQueue

/-!
What `uart_puts` gets onto the wire.  Behind the data register is a queue that the port
empties at moments of its own, and a byte stored to a full queue is lost.  `uart_putc`
waits twice before it stores a carriage return and then not at all before the newline,
so it is the newlines that can be lost: on a PL011, which is ready as soon as there is
one place, but not on a 16550, which is ready when its queue is empty.
-/

namespace ShlteOs.TransmitQueue

open ShlteOs.ByteMemory
open ShlteOs.ConsoleOutput
open ShlteOs.PolledQueue

section Driver

variable (limit depth : Nat) (drains : Nat → Bool) (fuel : Nat)

def below (p : Polled Byte) : Bool :=
  decide (p.queue.held.length < limit)

/-- Wait until fewer than `limit` bytes are in the queue. -/
def wait (p : Polled Byte) : Option (Polled Byte) :=
  pollUntil (drain drains) (below limit) fuel p

/-- A byte given to the queue, which drops it when it is full. -/
def store (p : Polled Byte) (c : Byte) : Polled Byte :=
  Polled.tick (drain drains) { p with queue := p.queue.push depth c }

/-- `uart_putc` of a port that is ready below `limit`. -/
def uartPutc (c : Byte) (p : Polled Byte) : Option (Polled Byte) :=
  putcWith (wait limit drains fuel) (store depth drains) c p

def uartPuts (s : List Byte) (p : Polled Byte) : Option (Polled Byte) :=
  putsWith (uartPutc limit depth drains fuel) s p

/-- A second byte finds a place behind the one stored now. -/
def room (p : Polled Byte) : Bool :=
  decide (p.queue.held.length + 1 < depth) || drains p.time

/-- If the byte is a newline, there is room for two bytes when the waits are over. -/
def roomFor (c : Byte) (p : Polled Byte) : Bool :=
  c != newline || (((wait limit drains fuel p).bind (wait limit drains fuel)).map
    (room depth drains)).getD true

/-- Whether each newline of the string finds room behind its carriage return. -/
def roomAtNewlines : List Byte → Polled Byte → Bool
  | [], _ => true
  | c :: s, p =>
      roomFor limit depth drains fuel c p &&
        ((uartPutc limit depth drains fuel c p).map (roomAtNewlines s)).getD true

end Driver

section Bytes

variable {limit depth : Nat} {drains : Nat → Bool}

theorem wait_settles (hlimit : 0 < limit) (hdrains : Recurs drains) (p : Polled Byte) :
    ∃ p', Settles (fun fuel => wait limit drains fuel p) p' ∧
      p'.queue.taken = p.queue.taken ∧ p'.queue.held.length < limit := by
  obtain ⟨k, hk⟩ := exists_empty hdrains p
  have hends : ∃ n, below limit ((Polled.tick (drain drains))^[n] p) = true := by
    refine ⟨k, ?_⟩
    rw [below, hk]
    exact decide_eq_true hlimit
  obtain ⟨n, hready, hsettles⟩ := pollUntil_settles hends
  refine ⟨_, hsettles, taken_iterate_drain p (n + 1), ?_⟩
  rw [Function.iterate_succ_apply']
  exact Nat.lt_of_le_of_lt (length_drain_le _ _) (of_decide_eq_true hready)

theorem taken_store {p : Polled Byte} (h : p.queue.held.length < depth) (c : Byte) :
    (store depth drains p c).queue.taken = p.queue.taken ++ [c] := by
  rw [store, Polled.tick, taken_drain, Queue.taken_push h]

theorem taken_store_store {p : Polled Byte} (h : p.queue.held.length < depth) (c c' : Byte) :
    (store depth drains (store depth drains p c) c').queue.taken =
      p.queue.taken ++ if room depth drains p then [c, c'] else [c] := by
  have hfirst : (store depth drains p c).queue.taken = p.queue.taken ++ [c] := taken_store h c
  have hheld : (store depth drains p c).queue.held.length =
      if drains p.time then p.queue.held.length else p.queue.held.length + 1 := by
    rw [store, Polled.tick, drain, Queue.push_of_lt h]
    split
    · rw [Queue.length_pop, List.length_append, List.length_singleton, Nat.add_sub_cancel]
    · rw [List.length_append, List.length_singleton]
  cases hroom : room depth drains p with
  | true =>
      have hplace : (store depth drains p c).queue.held.length < depth := by
        rw [hheld]
        rw [room, Bool.or_eq_true, decide_eq_true_iff] at hroom
        split <;> rename_i hdrain
        · exact h
        · exact hroom.resolve_right hdrain
      rw [taken_store hplace, hfirst, List.append_assoc]
      rfl
  | false =>
      rw [room, Bool.or_eq_false_iff, decide_eq_false_iff_not] at hroom
      have hfull : depth ≤ (store depth drains p c).queue.held.length := by
        rw [hheld, hroom.2, if_neg Bool.false_ne_true]
        exact Nat.not_lt.mp hroom.1
      rw [store, Queue.push_of_le hfull, Polled.tick, taken_drain, hfirst]
      rfl

theorem uartPutc_of_ne (hlimit : 0 < limit) (hdepth : limit ≤ depth) (hdrains : Recurs drains)
    {c : Byte} (hc : c ≠ newline) (p : Polled Byte) :
    ∃ p', Settles (fun fuel => uartPutc limit depth drains fuel c p) p' ∧
      p'.queue.taken = p.queue.taken ++ [c] := by
  obtain ⟨p₁, hsettles, htaken, hready⟩ := wait_settles hlimit hdrains p
  refine ⟨store depth drains p₁ c, ?_, ?_⟩
  · have hput := hsettles.map fun p => store depth drains p c
    convert hput using 2 with fuel
    rw [uartPutc, putcWith]
    cases wait limit drains fuel p with
    | none => rfl
    | some p₁ => simp [hc]
  · rw [taken_store (Nat.lt_of_lt_of_le hready hdepth), htaken]

theorem uartPutc_newline (hlimit : 0 < limit) (hdepth : limit ≤ depth) (hdrains : Recurs drains)
    (p : Polled Byte) :
    ∃ p₂ p', Settles (fun fuel => (wait limit drains fuel p).bind (wait limit drains fuel)) p₂ ∧
      p₂.queue.held.length < limit ∧
      Settles (fun fuel => uartPutc limit depth drains fuel newline p) p' ∧
      p'.queue.taken = p.queue.taken ++
        if room depth drains p₂ then [carriageReturn, newline] else [carriageReturn] := by
  obtain ⟨p₁, hfirst, htaken₁, -⟩ := wait_settles hlimit hdrains p
  obtain ⟨p₂, hsecond, htaken₂, hready⟩ := wait_settles hlimit hdrains p₁
  have hwaits := hfirst.bind hsecond
  refine ⟨p₂, store depth drains (store depth drains p₂ carriageReturn) newline, hwaits, hready,
    ?_, ?_⟩
  · have hput := hwaits.map fun p =>
      store depth drains (store depth drains p carriageReturn) newline
    convert hput using 2 with fuel
    rw [uartPutc, putcWith]
    cases wait limit drains fuel p with
    | none => rfl
    | some p₁ => cases hw : wait limit drains fuel p₁ <;> simp [hw]
  · rw [taken_store_store (Nat.lt_of_lt_of_le hready hdepth), htaken₂, htaken₁]

/-- Only the newline of a `uart_putc` can be lost. -/
theorem uartPutc_settles (hlimit : 0 < limit) (hdepth : limit ≤ depth) (hdrains : Recurs drains)
    (c : Byte) (p : Polled Byte) :
    ∃ kept p₁, Settles (fun fuel => uartPutc limit depth drains fuel c p) p₁ ∧
      (∃ n, ∀ fuel ≥ n, roomFor limit depth drains fuel c p = kept) ∧
      p₁.queue.taken = p.queue.taken ++ (if kept then consoleText [c] else [carriageReturn]) ∧
      (kept = false → c = newline) := by
  by_cases hc : c = newline
  · subst hc
    obtain ⟨p₂, p₁, ⟨n, hwaits⟩, -, hput, htaken⟩ :=
      uartPutc_newline hlimit hdepth hdrains p
    refine ⟨room depth drains p₂, p₁, hput, ⟨n, fun fuel hfuel => ?_⟩, htaken, fun _ => rfl⟩
    have hdone : (wait limit drains fuel p).bind (wait limit drains fuel) = some p₂ :=
      hwaits fuel hfuel
    rw [roomFor, hdone, bne_self_eq_false, Bool.false_or]
    rfl
  · obtain ⟨p₁, hput, htaken⟩ := uartPutc_of_ne hlimit hdepth hdrains hc p
    refine ⟨true, p₁, hput, ⟨0, fun fuel _ => ?_⟩, ?_, fun h => by cases h⟩
    · rw [roomFor, bne_iff_ne.mpr hc, Bool.true_or]
    · rw [htaken, if_pos rfl, consoleText, List.flatMap_singleton, if_neg hc]

end Bytes

section Text

variable {limit depth : Nat} {drains : Nat → Bool}

/-- What became of a string: only newlines can be missing, and none is exactly if there
was room for each. -/
structure Transmitted (limit depth : Nat) (drains : Nat → Bool) (s : List Byte)
    (p p' : Polled Byte) : Prop where
  others : p'.queue.taken.filter (· != newline) =
    (p.queue.taken ++ consoleText s).filter (· != newline)
  length : p'.queue.taken.length ≤ p.queue.taken.length + (consoleText s).length
  complete : ∃ n, ∀ fuel ≥ n, (p'.queue.taken = p.queue.taken ++ consoleText s ↔
    roomAtNewlines limit depth drains fuel s p = true)

theorem Transmitted.nil (p : Polled Byte) : Transmitted limit depth drains [] p p := by
  refine ⟨?_, Nat.le_add_right _ _, 0, fun fuel _ => iff_of_true ?_ rfl⟩
  · rw [consoleText, List.flatMap_nil, List.append_nil]
  · rw [consoleText, List.flatMap_nil, List.append_nil]

theorem Transmitted.cons {c : Byte} {s : List Byte} {p p₁ p' : Polled Byte} {kept : Bool}
    (hput : Settles (fun fuel => uartPutc limit depth drains fuel c p) p₁)
    (hroom : ∃ n, ∀ fuel ≥ n, roomFor limit depth drains fuel c p = kept)
    (htaken : p₁.queue.taken =
      p.queue.taken ++ (if kept then consoleText [c] else [carriageReturn]))
    (hlost : kept = false → c = newline) (h : Transmitted limit depth drains s p₁ p') :
    Transmitted limit depth drains (c :: s) p p' := by
  obtain ⟨n₁, hput⟩ := hput
  obtain ⟨n₂, hroom⟩ := hroom
  obtain ⟨n₃, hcomplete⟩ := h.complete
  have hrest : ∀ fuel ≥ max n₁ (max n₂ n₃),
      roomAtNewlines limit depth drains fuel (c :: s) p =
        (kept && roomAtNewlines limit depth drains fuel s p₁) := by
    intro fuel hfuel
    have hfirst : uartPutc limit depth drains fuel c p = some p₁ := hput fuel (by omega)
    rw [roomAtNewlines, hroom fuel (by omega), hfirst]
    rfl
  have htext := consoleText_cons c s
  cases kept with
  | true =>
      rw [if_pos rfl] at htaken
      refine ⟨?_, ?_, max n₁ (max n₂ n₃), fun fuel hfuel => ?_⟩
      · rw [h.others, htaken, htext, List.append_assoc]
      · have hlength := h.length
        rw [htaken, List.length_append] at hlength
        rw [htext, List.length_append]
        omega
      · rw [hrest fuel hfuel, Bool.true_and, ← hcomplete fuel (by omega), htaken, htext,
          List.append_assoc]
  | false =>
      obtain rfl := hlost rfl
      rw [if_neg Bool.false_ne_true] at htaken
      have hnewline : consoleText [newline] = [carriageReturn, newline] := rfl
      have hshort : p'.queue.taken.length < p.queue.taken.length +
          (consoleText (newline :: s)).length := by
        have hlength := h.length
        rw [htaken, List.length_append] at hlength
        rw [htext, hnewline, List.length_append]
        simp only [List.length_cons, List.length_nil] at hlength ⊢
        omega
      refine ⟨?_, Nat.le_of_lt hshort, max n₁ (max n₂ n₃), fun fuel hfuel => ?_⟩
      · have hkept : [carriageReturn, newline].filter (· != newline) =
            [carriageReturn].filter (· != newline) := by decide
        rw [h.others, htaken, htext, hnewline]
        simp only [List.filter_append, hkept, List.append_assoc]
      · rw [hrest fuel hfuel, Bool.false_and]
        refine iff_of_false (fun heq => ?_) Bool.false_ne_true
        rw [heq, List.length_append] at hshort
        exact Nat.lt_irrefl _ hshort

theorem uartPuts_settles (hlimit : 0 < limit) (hdepth : limit ≤ depth) (hdrains : Recurs drains)
    {s : List Byte} (hs : 0 ∉ s) (tail : List Byte) (p : Polled Byte) :
    ∃ p', Settles (fun fuel => uartPuts limit depth drains fuel (s ++ 0 :: tail) p) p' ∧
      Transmitted limit depth drains s p p' := by
  induction s generalizing p with
  | nil =>
      refine ⟨p, ⟨0, fun fuel _ => ?_⟩, .nil p⟩
      beta_reduce
      rw [uartPuts, List.nil_append, putsWith, if_pos rfl]
  | cons c s ih =>
      obtain ⟨hc, hs⟩ := List.ne_and_not_mem_of_not_mem_cons hs
      obtain ⟨kept, p₁, hput, hroom, htaken, hlost⟩ :=
        uartPutc_settles hlimit hdepth hdrains c p
      obtain ⟨p', hputs, htransmitted⟩ := ih hs p₁
      refine ⟨p', ?_, .cons hput hroom htaken hlost htransmitted⟩
      have hboth := hput.bind (g := fun fuel => uartPuts limit depth drains fuel (s ++ 0 :: tail))
        hputs
      convert hboth using 2 with fuel
      rw [uartPuts, List.cons_append, putsWith, if_neg (Ne.symm hc)]
      rfl

end Text

section Com1

/-- A 16550 is ready when its queue is empty. -/
def com1Puts (depth : Nat) (drains : Nat → Bool) (fuel : Nat) (s : List Byte)
    (p : Polled Byte) : Option (Polled Byte) :=
  uartPuts 1 depth drains fuel s p

variable {depth : Nat} {drains : Nat → Bool}

theorem roomFor_com1 (hdepth : 2 ≤ depth) (hdrains : Recurs drains) (c : Byte) (p : Polled Byte) :
    ∃ n, ∀ fuel ≥ n, roomFor 1 depth drains fuel c p = true := by
  obtain ⟨p₂, -, ⟨n, hwaits⟩, hready, -, -⟩ :=
    uartPutc_newline Nat.one_pos (Nat.le_of_succ_le hdepth) hdrains p
  refine ⟨n, fun fuel hfuel => ?_⟩
  have hdone : (wait 1 drains fuel p).bind (wait 1 drains fuel) = some p₂ := hwaits fuel hfuel
  have hroom : room depth drains p₂ = true := by
    rw [room, Bool.or_eq_true, decide_eq_true_iff]
    exact .inl (by omega)
  rw [roomFor, hdone, Option.map_some, hroom, Option.getD_some, Bool.or_true]

theorem roomAtNewlines_com1 (hdepth : 2 ≤ depth) (hdrains : Recurs drains) (s : List Byte)
    (p : Polled Byte) : ∃ n, ∀ fuel ≥ n, roomAtNewlines 1 depth drains fuel s p = true := by
  induction s generalizing p with
  | nil => exact ⟨0, fun _ _ => rfl⟩
  | cons c s ih =>
      obtain ⟨-, p₁, ⟨n₁, hput⟩, -, -, -⟩ :=
        uartPutc_settles Nat.one_pos (Nat.le_of_succ_le hdepth) hdrains c p
      obtain ⟨n₂, hroom⟩ := roomFor_com1 hdepth hdrains c p
      obtain ⟨n₃, hrest⟩ := ih p₁
      refine ⟨max n₁ (max n₂ n₃), fun fuel hfuel => ?_⟩
      have hfirst : uartPutc 1 depth drains fuel c p = some p₁ := hput fuel (by omega)
      rw [roomAtNewlines, hroom fuel (by omega), hfirst, Option.map_some, Option.getD_some,
        hrest fuel (by omega)]
      rfl

end Com1

/-- On the 16550, whose queue has two places or more, no byte is ever lost, at whatever
moments the port empties it. -/
theorem com1_transmits_all {depth : Nat} (hdepth : 2 ≤ depth) {drains : Nat → Bool}
    (hdrains : Recurs drains) {s : List Byte} (hs : 0 ∉ s) (tail : List Byte)
    (p : Polled Byte) :
    ∃ p', Settles (fun fuel => com1Puts depth drains fuel (s ++ 0 :: tail) p) p' ∧
      p'.queue.taken = p.queue.taken ++ consoleText s := by
  obtain ⟨p', hputs, htransmitted⟩ :=
    uartPuts_settles Nat.one_pos (Nat.le_of_succ_le hdepth) hdrains hs tail p
  obtain ⟨n, hcomplete⟩ := htransmitted.complete
  obtain ⟨m, hroom⟩ := roomAtNewlines_com1 hdepth hdrains s p
  exact ⟨p', hputs, (hcomplete (max n m) (le_max_left n m)).mpr
    (hroom (max n m) (le_max_right n m))⟩

theorem recurs_always : Recurs fun _ => true :=
  fun t => ⟨t, le_rfl, rfl⟩

theorem com1_transmits_all_newline :
    ∃ p', Settles (fun fuel => com1Puts 16 (fun _ => true) fuel ([newline] ++ [0]) ⟨⟨[], []⟩, 0⟩)
        p' ∧ p'.queue.taken = consoleText [newline] :=
  com1_transmits_all (by decide) recurs_always (by decide) [] ⟨⟨[], []⟩, 0⟩

section Pl011

/-- The driver's `uart_base`, set or not, and the queue of a PL011. -/
structure Pl011 where
  initialized : Bool
  line : Polled Byte

variable (depth : Nat) (drains shifting : Nat → Bool) (fuel : Nat)

/-- The port is busy while there is a byte in the queue or one is being shifted out. -/
def idle (p : Polled Byte) : Bool :=
  p.queue.held.isEmpty && !shifting p.time

/-- The wait in front of the initialization. -/
def waitIdle (p : Polled Byte) : Option (Polled Byte) :=
  pollUntil (drain drains) (idle shifting) fuel p

/-- The four registers `uart_init` writes leave the bytes in the queue alone. -/
def Pl011.uartInit (st : Pl011) : Option Pl011 :=
  (waitIdle drains shifting fuel st.line).map fun p =>
    { initialized := true, line := (Polled.tick (drain drains))^[4] p }

/-- The driver initializes the port on first use. -/
def Pl011.prepared (st : Pl011) : Option Pl011 :=
  if st.initialized then some st else Pl011.uartInit drains shifting fuel st

/-- A PL011 is ready when its queue is not full. -/
def Pl011.uartPutc (c : Byte) (st : Pl011) : Option Pl011 :=
  (Pl011.prepared drains shifting fuel st).bind fun st =>
    (TransmitQueue.uartPutc depth depth drains fuel c st.line).map fun p => { st with line := p }

def Pl011.uartPuts (s : List Byte) (st : Pl011) : Option Pl011 :=
  putsWith (Pl011.uartPutc depth drains shifting fuel) s st

variable {depth drains shifting fuel}

theorem held_nil_tick {p : Polled Byte} (h : p.queue.held = []) :
    (p.tick (drain drains)).queue.held = [] := by
  have hle : (drain drains p.time p.queue).held.length ≤ p.queue.held.length :=
    length_drain_le p.time p.queue
  rw [h] at hle
  exact List.length_eq_zero_iff.mp (Nat.le_zero.mp hle)

theorem waitIdle_settles (hdrains : Recurs drains) (hidle : Recurs fun t => !shifting t)
    (p : Polled Byte) :
    ∃ p', Settles (fun fuel => waitIdle drains shifting fuel p) p' ∧
      p'.queue.taken = p.queue.taken := by
  obtain ⟨k, hk⟩ := exists_empty hdrains p
  have hends : ∃ n, idle shifting ((Polled.tick (drain drains))^[n] p) = true := by
    obtain ⟨t, ht, hquiet⟩ := hidle (p.time + k)
    refine ⟨t - (p.time + k) + k, ?_⟩
    have hempty : ((Polled.tick (drain drains))^[t - (p.time + k) + k] p).queue.held = [] := by
      rw [Function.iterate_add_apply]
      exact iterate_tick (P := fun p' => p'.queue.held = []) (fun p' => held_nil_tick) hk _
    have htime : p.time + (t - (p.time + k) + k) = t := by omega
    rw [idle, hempty, time_iterate_tick, htime]
    exact hquiet
  obtain ⟨n, -, hsettles⟩ := pollUntil_settles hends
  exact ⟨_, hsettles, taken_iterate_drain p (n + 1)⟩

theorem prepared_settles (hdrains : Recurs drains) (hidle : Recurs fun t => !shifting t)
    (st : Pl011) :
    ∃ p, Settles (fun fuel => Pl011.prepared drains shifting fuel st) ⟨true, p⟩ ∧
      p.queue.taken = st.line.queue.taken := by
  cases hinit : st.initialized with
  | true =>
      refine ⟨st.line, ⟨0, fun fuel _ => ?_⟩, rfl⟩
      beta_reduce
      rw [Pl011.prepared, if_pos hinit, ← hinit]
  | false =>
      obtain ⟨p, hsettles, htaken⟩ := waitIdle_settles hdrains hidle st.line
      refine ⟨(Polled.tick (drain drains))^[4] p, ?_, ?_⟩
      · have hstart := hsettles.map fun p =>
          Pl011.mk true ((Polled.tick (drain drains))^[4] p)
        convert hstart using 2 with fuel
        rw [Pl011.prepared, hinit, if_neg Bool.false_ne_true, Pl011.uartInit]
      · rw [taken_iterate_drain, htaken]

theorem uartPuts_initialized (s : List Byte) (p : Polled Byte) :
    Pl011.uartPuts depth drains shifting fuel s ⟨true, p⟩ =
      (uartPuts depth depth drains fuel s p).map (Pl011.mk true) := by
  induction s generalizing p with
  | nil => rfl
  | cons c s ih =>
      by_cases hc : c = 0
      · rw [Pl011.uartPuts, uartPuts, putsWith, putsWith, if_pos hc, if_pos hc, Option.map_some]
      · rw [Pl011.uartPuts, uartPuts, putsWith, putsWith, if_neg hc, if_neg hc, Pl011.uartPutc,
          Pl011.prepared, if_pos rfl, Option.bind_some]
        cases TransmitQueue.uartPutc depth depth drains fuel c p with
        | none => rfl
        | some p₁ => exact ih p₁

theorem uartPuts_settles_prepared {st st' : Pl011} {p : Polled Byte} {s tail : List Byte}
    (hs : 0 ∉ s) (hne : s ≠ [])
    (hprepared : Settles (fun fuel => Pl011.prepared drains shifting fuel st) ⟨true, p⟩)
    (hputs : Settles (fun fuel =>
      Pl011.uartPuts depth drains shifting fuel (s ++ 0 :: tail) ⟨true, p⟩) st') :
    Settles (fun fuel => Pl011.uartPuts depth drains shifting fuel (s ++ 0 :: tail) st) st' := by
  obtain ⟨n, hprepared⟩ := hprepared
  obtain ⟨m, hputs⟩ := hputs
  refine ⟨max n m, fun fuel hfuel => ?_⟩
  rw [← hputs fuel (by omega)]
  have hfirst : Pl011.prepared drains shifting fuel st = some ⟨true, p⟩ :=
    hprepared fuel (by omega)
  have hagain : Pl011.prepared drains shifting fuel ⟨true, p⟩ = some ⟨true, p⟩ := if_pos rfl
  cases s with
  | nil => exact absurd rfl hne
  | cons c s =>
      have hc : c ≠ 0 := fun h => hs (h ▸ List.mem_cons_self)
      simp only [Pl011.uartPuts, List.cons_append, putsWith, if_neg hc, Pl011.uartPutc, hfirst,
        hagain]

end Pl011

/-- On the PL011 only newlines can be lost, at whatever moments the port empties its
queue, and the whole text comes through exactly if at every newline there is room for two
bytes, or the port takes one out between the two stores. -/
theorem pl011_transmits_iff {depth : Nat} (hdepth : 0 < depth) {drains shifting : Nat → Bool}
    (hdrains : Recurs drains) (hidle : Recurs fun t => !shifting t) {s : List Byte}
    (hs : 0 ∉ s) (tail : List Byte) (st : Pl011) :
    ∃ p st', Settles (fun fuel => Pl011.prepared drains shifting fuel st) ⟨true, p⟩ ∧
      Settles (fun fuel => Pl011.uartPuts depth drains shifting fuel (s ++ 0 :: tail) st) st' ∧
      st'.line.queue.taken.filter (· != newline) =
        (st.line.queue.taken ++ consoleText s).filter (· != newline) ∧
      ∃ n, ∀ fuel ≥ n, (st'.line.queue.taken = st.line.queue.taken ++ consoleText s ↔
        roomAtNewlines depth depth drains fuel s p = true) := by
  obtain ⟨p, hprepared, htaken⟩ := prepared_settles hdrains hidle st
  obtain ⟨p', hputs, htransmitted⟩ := uartPuts_settles hdepth le_rfl hdrains hs tail p
  rw [← htaken]
  by_cases hempty : s = []
  · subst hempty
    refine ⟨p, st, hprepared, ⟨0, fun fuel _ => ?_⟩, ?_, 0, fun fuel _ => iff_of_true ?_ rfl⟩
    · beta_reduce
      rw [Pl011.uartPuts, List.nil_append, putsWith, if_pos rfl]
    · rw [htaken, consoleText, List.flatMap_nil, List.append_nil]
    · rw [htaken, consoleText, List.flatMap_nil, List.append_nil]
  · refine ⟨p, ⟨true, p'⟩, hprepared, uartPuts_settles_prepared hs hempty hprepared ?_,
      htransmitted.others, htransmitted.complete⟩
    have hlifted := hputs.map (Pl011.mk true)
    convert hlifted using 2 with fuel
    exact uartPuts_initialized (s ++ 0 :: tail) p

theorem pl011_transmits_iff_newline :
    ∃ p st', Settles (fun fuel => Pl011.prepared (fun _ => true) (fun _ => false) fuel
        ⟨false, ⟨⟨[], []⟩, 0⟩⟩) ⟨true, p⟩ ∧
      Settles (fun fuel => Pl011.uartPuts 1 (fun _ => true) (fun _ => false) fuel
        ([newline] ++ [0]) ⟨false, ⟨⟨[], []⟩, 0⟩⟩) st' ∧
      st'.line.queue.taken.filter (· != newline) =
        (consoleText [newline]).filter (· != newline) ∧
      ∃ n, ∀ fuel ≥ n, (st'.line.queue.taken = consoleText [newline] ↔
        roomAtNewlines 1 1 (fun _ => true) fuel [newline] p = true) :=
  have hidle : Recurs fun t => !(fun _ => false : Nat → Bool) t := recurs_always
  pl011_transmits_iff Nat.one_pos recurs_always hidle (by decide) [] ⟨false, ⟨⟨[], []⟩, 0⟩⟩

/-- A port without a queue of its own that is slower than the driver. -/
example : (uartPuts 1 1 (fun t => t % 5 == 0) 10 [newline, 0] ⟨⟨[], []⟩, 1⟩).map
    (fun p => p.queue.taken) = some [carriageReturn] := by
  decide

end ShlteOs.TransmitQueue
