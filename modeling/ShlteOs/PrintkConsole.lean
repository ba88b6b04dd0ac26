import ShlteOs.ConsoleOutput
import ShlteOs.NumberRendering
import ShlteOs.PointerPrinting
import Mathlib.Data.List.TakeWhile

/-!
From a format to the console.  `printk` formats into a buffer on the stack and hands it
to `uart_puts`, which stops at the first NUL; `printf` sends as many bytes as the text
has.  The number digits that `vsprintf_impl` steps over are whatever the stack held.
-/

namespace ShlteOs.PrintkConsole

open ShlteOs.ByteMemory
open ShlteOs.BufferCursor
open ShlteOs.ConsoleOutput
open ShlteOs.StringFormat (Strings ch chs stringArg limit vsprintf printf)
open ShlteOs.BoundedFormatting
open ShlteOs.PrintkFormat
open ShlteOs.PrintkBounds
open ShlteOs.FormatReads (expands_nul expands_literal_iff)
open ShlteOs.FormatAgreement
open ShlteOs.NumberRendering (content_of_inside content_foldl_put_of_lt)
open ShlteOs.PointerPrinting (emit_pointer)

section Console

/-- A port with its `uart_putc`, which returns and sends a newline behind a carriage
return. -/
structure Console (State : Type) where
  putc : Byte → State → Option State
  sent : State → List Byte
  putc_sent : ∀ c st, ∃ st', putc c st = some st' ∧ sent st' = sent st ++ consoleText [c]

def pl011 {read : Nat → Nat → BitVec 32} (hready : Pl011Ready read) {fuel : Nat}
    (hfuel : 0 < fuel) : Console Pl011 where
  putc := Pl011.uartPutc read fuel
  sent := Pl011.sent
  putc_sent := Pl011.uartPutc_spec hready hfuel

def com1 {inb : Nat → BitVec 16 → Byte} (hready : Com1Ready inb) {fuel : Nat}
    (hfuel : 0 < fuel) : Console Com1 where
  putc := Com1.uartPutc inb fuel
  sent := Com1.sent
  putc_sent := fun c st => putcWith_spec (waitEmpty_of_ready hready hfuel) Com1.sent_outb c st

theorem foldlM_putc {State ι : Type} (console : Console State) (f : ι → Byte) (l : List ι)
    (st : State) :
    ∃ st', l.foldlM (fun st i => console.putc (f i) st) st = some st' ∧
      console.sent st' = console.sent st ++ consoleText (l.map f) := by
  induction l generalizing st with
  | nil => exact ⟨st, rfl, (List.append_nil _).symm⟩
  | cons i l ih =>
      obtain ⟨st₁, hputc, hsent₁⟩ := console.putc_sent (f i) st
      obtain ⟨st', hrest, hsent⟩ := ih st₁
      refine ⟨st', ?_, ?_⟩
      · rw [List.foldlM_cons, hputc]
        exact hrest
      · rw [hsent, hsent₁, List.map_cons, consoleText_cons (f i) (l.map f), List.append_assoc]

end Console

section Buffer

/-- The bytes from the start of the buffer on: stored there, or still those of the stack. -/
def bytesFrom (stack : List Byte) (log : Log Byte) : List Byte :=
  stack.mapIdx fun k old => (content log k).getD old

def char? : Emit → Option Byte
  | .literal c | .counted c | .forced c => some c
  | .digit => none

/-- The output as it stands in the buffer: where a digit should be there is still a byte
of the stack. -/
def shown (stack : List Byte) (es : List Emit) : List Byte :=
  List.zipWith (fun e old => (char? e).getD old) es stack

theorem content_put {lim : Int} {out : Printed} (htrails : out.cursor.Trails)
    (hroom : (out.cursor.pos : Int) < lim) (e : Emit) :
    content (put lim out e).cursor.log out.cursor.pos = char? e := by
  cases e with
  | literal c =>
      rw [put, if_pos hroom]
      exact content_cons_self _ _ _
  | counted c =>
      rw [put, if_pos hroom]
      exact content_cons_self _ _ _
  | forced c => exact content_cons_self _ _ _
  | digit =>
      rw [put, if_pos hroom]
      exact content_of_inside htrails le_rfl

theorem content_foldl_put {lim : Int} (es : List Emit) {out : Printed}
    (htrails : out.cursor.Trails) (hroom : (out.cursor.pos + es.length : Int) ≤ lim) {k : Nat}
    (hk : k < es.length) :
    content (es.foldl (put lim) out).cursor.log (out.cursor.pos + k) = es[k]?.bind char? := by
  induction es generalizing out k with
  | nil => cases hk
  | cons e es ih =>
      obtain ⟨htrails', hmono, hmove⟩ := put_spec lim e htrails
      rw [List.length_cons] at hroom hk
      have hpos := hmove (by omega)
      rw [List.foldl_cons]
      cases k with
      | zero =>
          rw [Nat.add_zero, content_foldl_put_of_lt es htrails' (by omega),
            content_put htrails (by omega)]
          rfl
      | succ k =>
          have hnext := ih htrails' (by omega) (Nat.lt_of_succ_lt_succ hk)
          rw [hpos, Nat.add_right_comm, Nat.add_assoc] at hnext
          rw [hnext, List.getElem?_cons_succ]

theorem bytesFrom_terminate {es : List Emit} (hlen : es.length ≤ 510) {stack : List Byte}
    (hstack : 512 ≤ stack.length) :
    ∃ rest, bytesFrom stack
        (terminate 512 (es.foldl (put (roomFor 512)) .start)).cursor.log =
      shown stack es ++ 0 :: rest := by
  have hroom : roomFor 512 = 511 := by decide
  have hstart : Printed.start.cursor.Trails := Cursor.trails_start
  have hzero : Printed.start.cursor.pos = 0 := rfl
  have hall : (Printed.start.cursor.pos + es.length : Int) ≤ roomFor 512 := by
    rw [hzero, hroom]
    omega
  have hpos := (foldl_put_spec (roomFor 512) es hstart).2.2.1 hall
  rw [hzero, Nat.zero_add] at hpos
  have hlog : (terminate 512 (es.foldl (put (roomFor 512)) .start)).cursor.log =
      (es.length, 0) :: (es.foldl (put (roomFor 512)) .start).cursor.log := by
    rw [terminate, if_pos (by rw [hpos, hroom]; omega)]
    simp only [hpos]
  have hshown : (shown stack es).length = es.length := by
    rw [shown, List.length_zipWith]
    omega
  refine ⟨(bytesFrom stack (terminate 512 (es.foldl (put (roomFor 512)) .start)).cursor.log).drop
    (es.length + 1), ?_⟩
  apply List.ext_getElem?
  intro k
  rcases Nat.lt_trichotomy k es.length with hk | rfl | hk
  · rw [List.getElem?_append_left (by omega), bytesFrom, List.getElem?_mapIdx, hlog,
      content_cons_of_ne _ (Nat.ne_of_lt hk), shown, List.getElem?_zipWith,
      List.getElem?_eq_getElem hk, List.getElem?_eq_getElem (show k < stack.length by omega)]
    have hcontent := content_foldl_put es hstart hall hk
    rw [hzero, Nat.zero_add, List.getElem?_eq_getElem hk, Option.bind_some] at hcontent
    simp only [Option.map_some, hcontent]
  · rw [List.getElem?_append_right (by omega), hshown, Nat.sub_self, List.getElem?_cons_zero,
      bytesFrom, List.getElem?_mapIdx, hlog, content_cons_self,
      List.getElem?_eq_getElem (show es.length < stack.length by omega)]
    rfl
  · rw [List.getElem?_append_right (by omega), hshown]
    obtain ⟨j, rfl⟩ : ∃ j, k = es.length + 1 + j := ⟨k - (es.length + 1), by omega⟩
    rw [show es.length + 1 + j - es.length = j + 1 by omega, List.getElem?_cons_succ,
      List.getElem?_drop]

theorem written_foldl_put {lim : Int} (es : List Emit) {out : Printed}
    (hroom : (out.cursor.pos + es.length : Int) ≤ lim) :
    (es.foldl (put lim) out).written = out.written + es.length := by
  induction es generalizing out with
  | nil => exact (Int.add_zero _).symm
  | cons e es ih =>
      rw [List.length_cons] at hroom
      have hlt : (out.cursor.pos : Int) < lim := by omega
      have hstep : (put lim out e).written = out.written + 1 ∧
          (put lim out e).cursor.pos = out.cursor.pos + 1 := by
        cases e with
        | literal c => rw [put, if_pos hlt]; exact ⟨rfl, rfl⟩
        | counted c => rw [put, if_pos hlt]; exact ⟨rfl, rfl⟩
        | forced c => exact ⟨rfl, rfl⟩
        | digit => rw [put, if_pos hlt]; exact ⟨rfl, rfl⟩
      rw [List.foldl_cons, ih (by rw [hstep.2]; omega), hstep.1, List.length_cons]
      omega

theorem written_terminate (size : Nat) (out : Printed) :
    (terminate size out).written = out.written := by
  rw [terminate]
  split_ifs <;> rfl

theorem append_nul_split (l rest : List Byte) :
    ∃ tail, l ++ 0 :: rest = l.takeWhile (· ≠ 0) ++ 0 :: tail := by
  induction l with
  | nil => exact ⟨rest, rfl⟩
  | cons c l ih =>
      obtain ⟨tail, htail⟩ := ih
      by_cases hc : c = 0
      · subst hc
        exact ⟨l ++ 0 :: rest, rfl⟩
      · refine ⟨tail, ?_⟩
        rw [List.takeWhile_cons_of_pos (by simpa using hc), List.cons_append, htail,
          List.cons_append]

theorem not_mem_takeWhile (l : List Byte) : (0 : Byte) ∉ l.takeWhile (· ≠ 0) := by
  intro h
  have hne := List.mem_takeWhile_imp h
  simp at hne

end Buffer

section Printk

variable {State : Type}

/-- `printk`, with the bytes that the stack holds from the start of its buffer on. -/
def printk (console : Console State) (strings : Strings) (stack : List Byte) (fmt : List Byte)
    (ap : List Word) (st : State) : Option (State × Int) :=
  (PrintkFormat.printk strings fmt ap).bind fun r =>
    (putsWith console.putc (bytesFrom stack r.cursor.log) st).map fun st => (st, r.written)

theorem printk_spec (console : Console State) {strings : Strings} {fmt : List Byte}
    {ap : List Word} {es : List Emit} (hes : Expands strings fmt ap es) (hlen : es.length ≤ 510)
    {stack : List Byte} (hstack : 512 ≤ stack.length) (st : State) :
    ∃ st', printk console strings stack fmt ap st = some (st', (es.length : Int)) ∧
      console.sent st' =
        console.sent st ++ consoleText ((shown stack es).takeWhile (· ≠ 0)) := by
  obtain ⟨rest, hbuffer⟩ := bytesFrom_terminate hlen hstack
  obtain ⟨tail, hsplit⟩ := append_nul_split (shown stack es) rest
  obtain ⟨st', hputs, hsent⟩ :=
    putsWith_spec console.putc_sent (not_mem_takeWhile (shown stack es)) tail st
  refine ⟨st', ?_, hsent⟩
  have hall : (Printed.start.cursor.pos + es.length : Int) ≤ roomFor 512 := by
    have hroom : roomFor 512 = 511 := by decide
    have hzero : Printed.start.cursor.pos = 0 := rfl
    rw [hzero, hroom]
    omega
  have hwritten : (terminate 512 (es.foldl (put (roomFor 512)) .start)).written =
      (es.length : Int) := by
    rw [written_terminate, written_foldl_put es hall]
    exact Int.zero_add _
  rw [printk, PrintkFormat.printk, printkBuffer, vsprintfImpl_eq hes, Option.bind_some, hbuffer,
    hsplit, hputs, hwritten]
  rfl

/-- The output does not end for `uart_puts` here. -/
def goesOn (e : Emit) : Bool :=
  char? e ≠ some 0

theorem takeWhile_shown {es : List Emit} (hes : .digit ∉ es.takeWhile goesOn)
    {stack : List Byte} (hstack : es.length ≤ stack.length) :
    (shown stack es).takeWhile (· ≠ 0) = (es.takeWhile goesOn).filterMap char? := by
  induction es generalizing stack with
  | nil => rfl
  | cons e es ih =>
      cases stack with
      | nil => cases hstack
      | cons old stack =>
          rw [shown, List.zipWith_cons_cons, ← shown]
          cases hchar : char? e with
          | none =>
              have hon : goesOn e = true := by rw [goesOn, hchar]; decide
              rw [List.takeWhile_cons_of_pos hon] at hes
              cases e with
              | digit => exact absurd List.mem_cons_self hes
              | _ => cases hchar
          | some c =>
              by_cases hc : c = 0
              · have hoff : ¬ goesOn e = true := by rw [goesOn, hchar, hc]; decide
                rw [List.takeWhile_cons_of_neg hoff, Option.getD_some,
                  List.takeWhile_cons_of_neg (by simpa using hc)]
                rfl
              · have hon : goesOn e = true := by
                  rw [goesOn, hchar]
                  simpa using hc
                rw [List.takeWhile_cons_of_pos hon] at hes ⊢
                rw [Option.getD_some, List.takeWhile_cons_of_pos (by simpa using hc),
                  List.filterMap_cons_some hchar,
                  ih (fun h => hes (List.mem_cons_of_mem e h)) (Nat.le_of_succ_le_succ hstack)]

theorem takeWhile_shown_replicate {es : List Emit} (hes : .digit ∈ es.takeWhile goesOn) {n : Nat}
    (hn : es.length ≤ n) :
    ∃ text rest, (shown (List.replicate n 0) es).takeWhile (· ≠ 0) = text ∧
      (shown (List.replicate n 65) es).takeWhile (· ≠ 0) = text ++ 65 :: rest := by
  induction es generalizing n with
  | nil => cases hes
  | cons e es ih =>
      obtain ⟨n, rfl⟩ : ∃ m, n = m + 1 := ⟨n - 1, by rw [List.length_cons] at hn; omega⟩
      simp only [shown, List.replicate_succ, List.zipWith_cons_cons]
      cases hchar : char? e with
      | none =>
          refine ⟨[], (shown (List.replicate n 65) es).takeWhile (· ≠ 0), ?_, ?_⟩
          · rw [Option.getD_none, List.takeWhile_cons_of_neg (by decide)]
          · rw [Option.getD_none, List.takeWhile_cons_of_pos (by decide)]
            rfl
      | some c =>
          have hon : goesOn e = true := by
            by_contra hoff
            rw [List.takeWhile_cons_of_neg hoff] at hes
            cases hes
          have hc : c ≠ 0 := by
            rw [goesOn, hchar, decide_eq_true_iff] at hon
            exact fun h => hon (congrArg some h)
          rw [List.takeWhile_cons_of_pos hon] at hes
          have hrest : Emit.digit ∈ es.takeWhile goesOn := by
            refine (List.mem_cons.mp hes).resolve_left ?_
            rintro rfl
            cases hchar
          obtain ⟨text, rest, hzero, hfilled⟩ := ih hrest (Nat.le_of_succ_le_succ hn)
          refine ⟨c :: text, rest, ?_, ?_⟩
          · rw [Option.getD_some, List.takeWhile_cons_of_pos (by simpa using hc), ← shown, hzero]
          · rw [Option.getD_some, List.takeWhile_cons_of_pos (by simpa using hc), ← shown, hfilled]
            rfl

theorem shown_of_forall₂ {es : List Emit} {t : List Byte} (h : List.Forall₂ Shows es t)
    {stack : List Byte} (hstack : es.length ≤ stack.length) : shown stack es = t := by
  induction h generalizing stack with
  | nil => rfl
  | @cons e c es t he hes ih =>
      cases stack with
      | nil => cases hstack
      | cons old stack =>
          have hchar : char? e = some c := by
            rcases he with rfl | rfl | rfl <;> rfl
          rw [shown, List.zipWith_cons_cons, hchar, ← shown,
            ih (Nat.le_of_succ_le_succ hstack)]
          rfl

theorem printk_items (console : Console State) {strings : Strings} (items : List (Item strings))
    (hlen : (expanded items).length ≤ 510) (hnul : 0 ∉ expanded items) {stack : List Byte}
    (hstack : 512 ≤ stack.length) (st : State) :
    ∃ st', printk console strings stack (format items ++ [0]) (arguments items) st =
        some (st', ((expanded items).length : Int)) ∧
      console.sent st' = console.sent st ++ consoleText (expanded items) := by
  obtain ⟨es, hshows, hes⟩ := expands_items items (by omega) [] []
  rw [List.append_nil] at hes
  have hcount := hshows.length_eq
  obtain ⟨st', hprint, hsent⟩ := printk_spec console hes (by omega) hstack st
  rw [hcount] at hprint
  refine ⟨st', hprint, ?_⟩
  rw [hsent, shown_of_forall₂ hshows (by omega), List.takeWhile_eq_self_iff.mpr]
  intro c hc
  exact decide_eq_true fun h => hnul (h ▸ hc)

theorem consoleText_append (s t : List Byte) :
    consoleText (s ++ t) = consoleText s ++ consoleText t := by
  rw [consoleText, List.flatMap_append]
  rfl

end Printk

/-- What `printk` sends depends on what its buffer held before exactly if a digit of a
number comes before the first NUL of its output. -/
theorem printk_stack_independent_iff {State : Type} (console : Console State)
    {strings : Strings} {fmt : List Byte} {ap : List Word} {es : List Emit}
    (hes : Expands strings fmt ap es) (hlen : es.length ≤ 510) (st : State) :
    (∀ stack stack' : List Byte, 512 ≤ stack.length → 512 ≤ stack'.length →
      (printk console strings stack fmt ap st).map (fun r => console.sent r.1) =
        (printk console strings stack' fmt ap st).map fun r => console.sent r.1) ↔
      .digit ∉ es.takeWhile goesOn := by
  constructor
  · intro hsame hdigit
    have hlength : ∀ c : Byte, 512 ≤ (List.replicate 512 c).length := fun c => by
      rw [List.length_replicate]
    obtain ⟨text, rest, hzero, hfilled⟩ :=
      takeWhile_shown_replicate hdigit (hlen.trans (by decide : 510 ≤ 512))
    obtain ⟨st₁, hprint₁, hsent₁⟩ := printk_spec console hes hlen (hlength 0) st
    obtain ⟨st₂, hprint₂, hsent₂⟩ := printk_spec console hes hlen (hlength 65) st
    have heq := hsame _ _ (hlength 0) (hlength 65)
    rw [hprint₁, hprint₂, Option.map_some, Option.map_some, Option.some_inj] at heq
    simp only [hsent₁, hsent₂, hzero, hfilled, consoleText_append, consoleText_cons 65 rest]
      at heq
    have hcount := congrArg List.length heq
    have hone : (consoleText [65]).length = 1 := by decide
    simp only [List.length_append, hone] at hcount
    omega
  · intro hdigit stack stack' hstack hstack'
    obtain ⟨st₁, hprint₁, hsent₁⟩ := printk_spec console hes hlen hstack st
    obtain ⟨st₂, hprint₂, hsent₂⟩ := printk_spec console hes hlen hstack' st
    rw [takeWhile_shown hdigit (by omega)] at hsent₁ hsent₂
    rw [hprint₁, hprint₂, Option.map_some, Option.map_some, Option.some_inj]
    exact hsent₁.trans hsent₂.symm

/-- A PL011 that is always idle. -/
def idlePort : Console Pl011 :=
  have hready : Pl011Ready fun _ _ => 0 := fun _ => ⟨BitVec.zero_and, BitVec.zero_and⟩
  pl011 hready Nat.one_pos

def numberFormat : List Byte := chs ['a', '%', 'd'] ++ [0]

theorem expands_numberFormat (strings : Strings) :
    Expands strings numberFormat [7] [.literal 97, .digit] :=
  ⟨4, rfl⟩

/-- The digit of `printk("a%d", 7)` is what the buffer held before. -/
theorem printk_stack_independent_iff_number :
    ¬ ∀ stack stack' : List Byte, 512 ≤ stack.length → 512 ≤ stack'.length →
      (printk idlePort (fun _ => none) stack numberFormat [7] ⟨true, [], 0⟩).map
          (fun r => idlePort.sent r.1) =
        (printk idlePort (fun _ => none) stack' numberFormat [7] ⟨true, [], 0⟩).map
          fun r => idlePort.sent r.1 := by
  rw [printk_stack_independent_iff idlePort (expands_numberFormat _) (by decide) _]
  have hall : [Emit.literal 97, .digit].takeWhile goesOn = [.literal 97, .digit] := rfl
  rw [hall, not_not]
  exact List.mem_cons_of_mem _ List.mem_cons_self

section Panic

variable {State : Type}

def panicTitle : List Char :=
  List.replicate 24 '*' ++ [' ', 'P', 'A', 'N', 'I', 'C', ' '] ++ List.replicate 24 '*' ++ ['\n']

def panicLabel : List Char := ['P', 'A', 'N', 'I', 'C', ':', ' ']

def panicRule : List Char := List.replicate 60 '*' ++ ['\n']

def panicEnd : List Char :=
  ['S', 'y', 's', 't', 'e', 'm', ' ', 'h', 'a', 'l', 't', 'e', 'd', '.', '\n', '\n']

/-- `panic` up to its endless loop; the buffers of the five calls hold anything. -/
def panic (console : Console State) (strings : Strings) (stack : Fin 5 → List Byte) (msg : Word)
    (st : State) : Option State := do
  let (st, _) ← printk console strings (stack 0) (chs ['\n'] ++ [0]) [] st
  let (st, _) ← printk console strings (stack 1) (chs panicTitle ++ [0]) [] st
  let (st, _) ← printk console strings (stack 2) (chs (panicLabel ++ ['%', 's', '\n']) ++ [0])
    [msg] st
  let (st, _) ← printk console strings (stack 3) (chs panicRule ++ [0]) [] st
  let (st, _) ← printk console strings (stack 4) (chs panicEnd ++ [0]) [] st
  some st

theorem expands_literals (strings : Strings) {s : List Byte}
    (hs : ∀ c ∈ s, c ≠ 0 ∧ c ≠ ch '%') {fmt : List Byte} {ap : List Word} {es : List Emit}
    (h : Expands strings fmt ap es) : Expands strings (s ++ fmt) ap (s.map .literal ++ es) := by
  induction s with
  | nil => exact h
  | cons c s ih =>
      obtain ⟨⟨hnul, hc⟩, hs⟩ := List.forall_mem_cons.mp hs
      exact (expands_literal_iff strings hnul hc _ ap _).mpr ⟨_, ih hs, rfl⟩

/-- The test byte by byte; a decision over all bytes is slow. -/
theorem clean_of_all {s : List Byte} (h : (s.all fun c => c ≠ 0 ∧ c ≠ ch '%') = true) :
    ∀ c ∈ s, c ≠ 0 ∧ c ≠ ch '%' := by
  intro c hc
  exact of_decide_eq_true (List.all_eq_true.mp h c hc)

theorem forall₂_literal (s : List Byte) : List.Forall₂ Shows (s.map .literal) s := by
  rw [List.forall₂_map_left_iff]
  exact List.forall₂_same.mpr fun c _ => .inl rfl

theorem printk_literals (console : Console State) (strings : Strings) {s : List Byte}
    (hs : ∀ c ∈ s, c ≠ 0 ∧ c ≠ ch '%') (hlen : s.length ≤ 510) {stack : List Byte}
    (hstack : 512 ≤ stack.length) (st : State) :
    ∃ st' n, printk console strings stack (s ++ [0]) [] st = some (st', n) ∧
      console.sent st' = console.sent st ++ consoleText s := by
  have hcount : (s.map Emit.literal).length = s.length := List.length_map _
  have hes := expands_literals strings hs (expands_nul strings [] [])
  rw [List.append_nil] at hes
  obtain ⟨st', hprint, hsent⟩ := printk_spec console hes (by omega) hstack st
  refine ⟨st', _, hprint, ?_⟩
  rw [hsent, shown_of_forall₂ (forall₂_literal s) (by omega), List.takeWhile_eq_self_iff.mpr]
  intro c hc
  exact decide_eq_true (hs c hc).1

/-- `"PANIC: %s\n"` with its argument. -/
def panicLine {strings : Strings} {msg : Word} {t : List Byte}
    (ht : stringArg strings msg = some t) : List (Item strings) :=
  [.literal (ch 'P') (by decide) (by decide), .literal (ch 'A') (by decide) (by decide),
    .literal (ch 'N') (by decide) (by decide), .literal (ch 'I') (by decide) (by decide),
    .literal (ch 'C') (by decide) (by decide), .literal (ch ':') (by decide) (by decide),
    .literal (ch ' ') (by decide) (by decide), .string msg t ht,
    .literal (ch '\n') (by decide) (by decide)]

/-- The text of a panic. -/
def panicText (t : List Byte) : List Byte :=
  chs ['\n'] ++ chs panicTitle ++ (chs panicLabel ++ t ++ chs ['\n']) ++ chs panicRule ++
    chs panicEnd

end Panic

/-- `panic` sends its banner with the message, or "(null)", in full and without a byte of
the stack, whatever the port and however often it has been used before. -/
theorem panic_sends {State : Type} (console : Console State) {strings : Strings} {msg : Word}
    {t : List Byte} (ht : stringArg strings msg = some t) (hnul : 0 ∉ t)
    (hlen : t.length ≤ 502) {stack : Fin 5 → List Byte} (hstack : ∀ i, 512 ≤ (stack i).length)
    (st : State) :
    ∃ st', panic console strings stack msg st = some st' ∧
      console.sent st' = console.sent st ++ consoleText (panicText t) := by
  have htext : expanded (panicLine ht) = chs panicLabel ++ t ++ chs ['\n'] := by
    simp [expanded, panicLine, Item.text, chs, panicLabel]
  have hclean : 0 ∉ expanded (panicLine ht) := by
    rw [htext, List.mem_append, List.mem_append]
    rintro ((h | h) | h)
    · exact absurd h (by decide)
    · exact hnul h
    · exact absurd h (by decide)
  have hshort : (expanded (panicLine ht)).length ≤ 510 := by
    have hlabel : (chs panicLabel).length = 7 := rfl
    have hnewline : (chs ['\n']).length = 1 := rfl
    rw [htext, List.length_append, List.length_append]
    omega
  have hformat : format (panicLine ht) = chs (panicLabel ++ ['%', 's', '\n']) := rfl
  have hargs : arguments (panicLine ht) = [msg] := rfl
  obtain ⟨st₁, n₁, hprint₁, hsent₁⟩ := printk_literals console strings
    (clean_of_all (by decide) : ∀ c ∈ chs ['\n'], _) (by decide) (hstack 0) st
  obtain ⟨st₂, n₂, hprint₂, hsent₂⟩ := printk_literals console strings
    (clean_of_all (by decide) : ∀ c ∈ chs panicTitle, _) (by decide) (hstack 1) st₁
  obtain ⟨st₃, hprint₃, hsent₃⟩ :=
    printk_items console (panicLine ht) hshort hclean (hstack 2) st₂
  obtain ⟨st₄, n₄, hprint₄, hsent₄⟩ := printk_literals console strings
    (clean_of_all (by decide) : ∀ c ∈ chs panicRule, _) (by decide) (hstack 3) st₃
  obtain ⟨st₅, n₅, hprint₅, hsent₅⟩ := printk_literals console strings
    (clean_of_all (by decide) : ∀ c ∈ chs panicEnd, _) (by decide) (hstack 4) st₄
  rw [hformat, hargs] at hprint₃
  refine ⟨st₅, ?_, ?_⟩
  · simp only [panic, hprint₁, hprint₂, hprint₃, hprint₄, hprint₅, Option.bind_eq_bind,
      Option.bind_some]
  · rw [hsent₅, hsent₄, hsent₃, hsent₂, hsent₁, htext, panicText]
    simp only [consoleText_append, List.append_assoc]

/-- A 16550 whose holding register is always empty. -/
def emptyPort : Console Com1 :=
  have hready : Com1Ready fun _ _ => 0x20 := fun _ => (by decide : (0x20 : Byte) &&& 0x20 ≠ 0)
  com1 hready Nat.one_pos

theorem panic_sends_null :
    ∃ st', panic emptyPort (fun _ => none) (fun _ => List.replicate 512 0) 0 ⟨[], 0⟩ =
        some st' ∧
      emptyPort.sent st' =
        consoleText (panicText (chs ['(', 'n', 'u', 'l', 'l', ')'])) :=
  panic_sends emptyPort rfl (by decide) (by decide) (fun _ => by rw [List.length_replicate])
    ⟨[], 0⟩

section Printf

variable {State : Type}

def putStored (console : Console State) (st : State) (c : Option Byte) : Option State :=
  c.bind fun c => console.putc c st

/-- `printf` with no stream behind `stdout`: the bytes of the text go to `uart_putc` one
by one, NULs among them. -/
def printfConsole (console : Console State) (strings : Strings) (fmt : List Byte)
    (ap : List Word) (st : State) : Option (State × Nat) :=
  (printf strings fmt ap).bind fun (r, bytes) =>
    (bytes.foldlM (putStored console) st).map fun st => (st, r.ret)

theorem emit_of_room {conv : StringFormat.Conversion} {out : Cursor Byte}
    (hroom : out.pos + (fullText conv).length ≤ limit) :
    StringFormat.emit out conv = out.putAll (fullText conv) := by
  cases conv with
  | text t => exact emit_text hroom
  | pointer v => exact emit_pointer v hroom
  | chars cs => rfl

theorem formatLoop_text (strings : Strings) {fmt : List Byte} {ap : List Word}
    {out : Cursor Byte} {t : List Byte}
    (h : expansion strings (limit - out.pos) fmt ap = some t)
    (hroom : out.pos + t.length < limit) :
    StringFormat.formatLoop strings fmt ap out = some (out.putAll t) := by
  induction fmt, ap, out using StringFormat.formatLoop.induct generalizing t with
  | case1 ap out => simp [expansion] at h
  | case2 c fmt ap out hstop =>
      rw [expansion_stop strings ((stop_iff c out).mpr hstop)] at h
      cases h
      exact formatLoop_stop strings hstop fmt ap
  | case3 ap out hgo =>
      rw [expansion, if_neg (mt (stop_iff _ out).mp hgo), if_pos rfl] at h
      cases h
  | case4 ap out d fmt hgo ih =>
      have hlt : out.pos < limit := not_not.mp fun h => hgo (.inr h)
      rw [expansion_directive strings (mt (stop_iff _ out).mp hgo)] at h
      obtain ⟨⟨conv, ap'⟩, hconv, htext⟩ := Option.bind_eq_some_iff.mp h
      obtain ⟨rest, hrest, happend⟩ := Option.bind_eq_some_iff.mp htext
      have ht : fullText conv ++ rest = t := Option.some.inj happend
      rw [← ht, List.length_append] at hroom
      have hemit : StringFormat.emit out conv = out.putAll (fullText conv) :=
        emit_of_room (by omega)
      have hpos : (StringFormat.emit out conv).pos = out.pos + (fullText conv).length := by
        rw [hemit, Cursor.putAll_pos]
      have hleft : limit - out.pos - (fullText conv).length =
          limit - (StringFormat.emit out conv).pos := by omega
      rw [hleft] at hrest
      rw [formatLoop_directive strings hlt, hconv, Option.bind_some,
        ih conv ap' hrest (by omega), hemit, ← ht, Cursor.putAll, Cursor.putAll, Cursor.putAll,
        List.foldl_append]
  | case5 c fmt ap out hgo hc ih =>
      obtain ⟨hnul, hpos⟩ := not_or.mp hgo
      have hlt : out.pos < limit := not_not.mp hpos
      rw [expansion_literal strings hc (mt (stop_iff c out).mp hgo)] at h
      obtain ⟨rest, hrest, rfl⟩ := Option.map_eq_some_iff.mp h
      rw [List.length_cons] at hroom
      have hleft : limit - out.pos - 1 = limit - (out.put c).pos := by
        rw [Cursor.put_pos]
        omega
      rw [hleft] at hrest
      rw [formatLoop_literal strings hc hnul hlt,
        ih hrest (by rw [Cursor.put_pos]; omega)]
      rfl

end Printf

/-- Whatever a format expands to, numbers and pointers among it, `printf` sends it byte
for byte as long as it fits into the buffer, and returns its length. -/
theorem printf_sends {State : Type} (console : Console State) {strings : Strings}
    {fmt : List Byte} {ap : List Word} {t : List Byte}
    (ht : expansion strings limit fmt ap = some t) (hlen : t.length ≤ 255) (st : State) :
    ∃ st', printfConsole console strings fmt ap st = some (st', t.length) ∧
      console.sent st' = console.sent st ++ consoleText t := by
  have hzero : (Cursor.start : Cursor Byte).pos = 0 := rfl
  have hlimit : limit = 1023 := rfl
  have hloop : StringFormat.formatLoop strings fmt ap .start = some (Cursor.start.putAll t) :=
    formatLoop_text strings ht (by rw [hzero, hlimit]; omega)
  have hshort : ¬ t.length > limit := by omega
  have hformat : vsprintf strings fmt ap =
      some ⟨(t.length, 0) :: (Cursor.start.putAll t).log, t.length⟩ := by
    simp only [vsprintf, hloop, Option.map_some, Cursor.putAll_pos, hzero, Nat.zero_add,
      if_neg hshort]
  have hbytes : (List.range t.length).map
      (content ((t.length, 0) :: (Cursor.start.putAll t).log)) = t.map some := by
    apply List.ext_getElem
    · rw [List.length_map, List.length_map, List.length_range]
    · intro k hk hk'
      rw [List.length_map] at hk'
      rw [List.getElem_map, List.getElem_map, List.getElem_range, (holds_putAll t).text k hk',
        List.getElem?_eq_getElem hk']
  obtain ⟨st', hputs, hsent⟩ := foldlM_putc console id t st
  rw [List.map_id] at hsent
  have hstored : (t.map some).foldlM (putStored console) st = some st' := by
    rw [List.foldlM_map]
    exact hputs
  refine ⟨st', ?_, hsent⟩
  simp only [printfConsole, printf, hformat, Option.map_some, Option.bind_some, hbytes, hstored]

theorem printf_sends_ab :
    ∃ st', printfConsole idlePort (fun _ => none) BoundedFormatting.shortFormat [] ⟨true, [], 0⟩ =
        some (st', 2) ∧
      idlePort.sent st' = consoleText [97, 98] :=
  printf_sends idlePort (t := [97, 98]) (by decide) (by decide) ⟨true, [], 0⟩

end ShlteOs.PrintkConsole
