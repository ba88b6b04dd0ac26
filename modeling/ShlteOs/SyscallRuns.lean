import ShlteOs.BumpAllocator
import ShlteOs.PrintkConsole

/-!
Runs of system calls.  `syscall_handler` announces a call on the console, serves it and
reports an `int`, which is the only trace of a result: the caller gets nothing back.
The calls share the console and the pointer of the early heap.
-/

namespace ShlteOs.SyscallRuns

open ShlteOs.ByteMemory
open ShlteOs.ConsoleOutput
open ShlteOs.StringFormat (Strings ch chs)
open ShlteOs.PrintkFormat
open ShlteOs.PrintkBounds
open ShlteOs.FormatReads (expands_nul expands_directive_iff)
open ShlteOs.NumberRendering (length_formatNumber numberField_parts)
open ShlteOs.PointerPrinting (directive_pointer)
open ShlteOs.PrintkConsole
open ShlteOs.BumpAllocator

/-- The cases of `syscall_handler`. -/
inductive Syscall where
  | sysExit
  | sysFork
  | sysRead
  | sysWrite
  | sysOpen
  | sysClose
  | sysGetpid
  | sysMalloc
  | sysFree
  | sysTime
  | unknown
  deriving DecidableEq

/-- The cases of the switch; the other numbers of the list have none. -/
def syscallOf (num : Word) : Syscall :=
  if num = 0 then .sysExit
  else if num = 1 then .sysFork
  else if num = 2 then .sysRead
  else if num = 3 then .sysWrite
  else if num = 4 then .sysOpen
  else if num = 5 then .sysClose
  else if num = 8 then .sysGetpid
  else if num = 11 then .sysMalloc
  else if num = 12 then .sysFree
  else if num = 14 then .sysTime
  else .unknown

/-- What a buffer of `printk` holds before it is used. -/
def Stack := { stack : List Byte // 512 ≤ stack.length }

/-- The arguments the handler looks at, and the buffers of its two lines. -/
structure Call where
  num : Word
  arg1 : Word
  arg2 : Word
  arg3 : Word
  stack : Fin 2 → Stack

def Call.syscall (c : Call) : Syscall := syscallOf c.num

/-- What the handler changes: the console, the bump pointer, and whether it has stopped
the CPU. -/
structure Kernel (State : Type) where
  port : State
  allocPtr : Word
  halted : Bool

/-- A piece of a message: plain text, or a directive with its argument. -/
inductive Field where
  | text (s : List Char)
  /-- `%ld` -/
  | decimal (v : Word)
  /-- `%lx` -/
  | hex (v : Word)
  /-- `%p` -/
  | pointer (v : Word)

def Field.chars : Field → List Char
  | .text s => s
  | .decimal _ => ['%', 'l', 'd']
  | .hex _ => ['%', 'l', 'x']
  | .pointer _ => ['%', 'p']

def Field.args : Field → List Word
  | .text _ => []
  | .decimal v | .hex v | .pointer v => [v]

def tag : Field := .text ['[', 'S', 'Y', 'S', 'C', 'A', 'L', 'L', ']', ' ']

/-- The `printk` a case starts with. -/
def announcement (c : Call) : Option (List Field) :=
  match c.syscall with
  | .sysExit =>
      some [tag, .text ['e', 'x', 'i', 't', '('], .decimal c.arg1, .text [')', '\n']]
  | .sysFork => some [tag, .text ['f', 'o', 'r', 'k', '(', ')', '\n']]
  | .sysRead =>
      some [tag, .text ['r', 'e', 'a', 'd', '(', 'f', 'd', '='], .decimal c.arg1,
        .text [',', ' ', 'b', 'u', 'f', '='], .pointer c.arg2,
        .text [',', ' ', 'c', 'o', 'u', 'n', 't', '='], .decimal c.arg3, .text [')', '\n']]
  | .sysWrite =>
      some [tag, .text ['w', 'r', 'i', 't', 'e', '(', 'f', 'd', '='], .decimal c.arg1,
        .text [',', ' ', 'b', 'u', 'f', '='], .pointer c.arg2,
        .text [',', ' ', 'c', 'o', 'u', 'n', 't', '='], .decimal c.arg3, .text [')', '\n']]
  | .sysOpen =>
      some [tag, .text ['o', 'p', 'e', 'n', '('], .pointer c.arg1, .text [',', ' ', '0', 'x'],
        .hex c.arg2, .text [')', '\n']]
  | .sysClose =>
      some [tag, .text ['c', 'l', 'o', 's', 'e', '('], .decimal c.arg1, .text [')', '\n']]
  | .sysGetpid => none
  | .sysMalloc =>
      some [tag, .text ['m', 'a', 'l', 'l', 'o', 'c', '('], .decimal c.arg1, .text [')', '\n']]
  | .sysFree =>
      some [tag, .text ['f', 'r', 'e', 'e', '('], .pointer c.arg1, .text [')', '\n']]
  | .sysTime => some [tag, .text ['t', 'i', 'm', 'e', '(', ')', '\n']]
  | .unknown =>
      some [tag, .text ['U', 'n', 'k', 'n', 'o', 'w', 'n', ' ', 's', 'y', 's', 'c', 'a', 'l',
        'l', ' '], .decimal c.num, .text ['\n']]

/-- The last line of the handler. -/
def report (num : Word) (ret : BitVec 32) : List Field :=
  [tag, .text ['s', 'y', 's', 'c', 'a', 'l', 'l', ' '], .decimal num,
    .text [' ', 'r', 'e', 't', 'u', 'r', 'n', 'e', 'd', ' '], .decimal (ret.signExtend 64),
    .text ['\n']]

section Handler

variable {State : Type} (console : Console State) (strings : Strings) (mem : Memory)

/-- A `printk` of some fields, in front of which the stack holds anything. -/
def say (stack : Stack) (fields : List Field) (port : State) : Option State :=
  (printk console strings stack.val (chs (fields.flatMap Field.chars) ++ [0])
    (fields.flatMap Field.args) port).map Prod.fst

/-- The loop of `write` over the buffer of its caller. -/
def writeBytes (buf : Word) (n : Nat) (port : State) : Option State :=
  (List.range n).foldlM (fun port i => console.putc (mem (buf + BitVec.ofNat 64 i)) port) port

/-- A case behind its `printk`, with the value it leaves in `ret`; `exit` leaves none,
since it does not come out of its loop. -/
def serve (c : Call) (k : Kernel State) : Option (Kernel State × Option (BitVec 32)) :=
  match c.syscall with
  | .sysExit => some ({ k with halted := true }, none)
  | .sysFork => some (k, some (-1))
  | .sysRead => some (k, some (-1))
  | .sysWrite =>
      if c.arg1 = 1 ∨ c.arg1 = 2 then
        (writeBytes console mem c.arg2 c.arg3.toNat k.port).map fun port =>
          ({ k with port := port }, some (c.arg3.setWidth 32))
      else some (k, some 0)
  | .sysOpen => some (k, some (-1))
  | .sysClose => some (k, some 0)
  | .sysGetpid => some (k, some 1)
  | .sysMalloc =>
      let (ptr, allocPtr) := kmallocSimple k.allocPtr c.arg1
      some ({ k with allocPtr := allocPtr }, some (ptr.setWidth 32))
  | .sysFree => some (k, some 0)
  | .sysTime => some (k, some 0)
  | .unknown => some (k, some (-1))

/-- The first line, if the case has one. -/
def announce (c : Call) (port : State) : Option State :=
  match announcement c with
  | none => some port
  | some fields => say console strings (c.stack 0) fields port

/-- `syscall_handler`, with the value its last line is about. -/
def syscallHandler (c : Call) (k : Kernel State) :
    Option (Kernel State × Option (BitVec 32)) := do
  let port ← announce console strings c k.port
  let (k, ret) ← serve console mem c { k with port := port }
  match ret with
  | none => some (k, none)
  | some ret => do
      let port ← say console strings (c.stack 1) (report c.num ret) k.port
      some ({ k with port := port }, some ret)

/-- The calls one after the other, with the numbers and the values of those that were
reported. -/
def run : List Call → Kernel State → Option (Kernel State × List (Word × BitVec 32))
  | [], k => some (k, [])
  | c :: calls, k =>
      if k.halted then some (k, [])
      else do
        let (k, ret) ← syscallHandler console strings mem c k
        let (k, reports) ← run calls k
        some (k, (ret.map fun ret => (c.num, ret)).toList ++ reports)

end Handler

section Lines

/-- The output of a piece. -/
def Field.emits : Field → List Emit
  | .text s => (chs s).map .literal
  | .decimal v =>
      let value := signedArg .long v
      let magnitude := if value.toInt < 0 then -value else value
      numberField {} 0 (signOf {} value)
        (formatNumber magnitude 10 true (signOf {} value) {} (-1))
  | .hex v => numberField {} 0 none (formatNumber (unsignedArg .long v) 16 false none {} (-1))
  | .pointer _ => List.replicate 5 .digit

/-- What is read of a line: the output in the buffer, up to a NUL of the stack. -/
def lineText (stack : Stack) (fields : List Field) : List Byte :=
  (shown stack.val (fields.flatMap Field.emits)).takeWhile (· ≠ 0)

def Field.clean : Field → Bool
  | .text s => (chs s).all fun c => c ≠ 0 ∧ c ≠ ch '%'
  | _ => true

def Field.room : Field → Nat
  | .text s => s.length
  | .decimal _ => 65
  | .hex _ => 65
  | .pointer _ => 5

/-- No text has a directive in it, and the buffer holds the output for all arguments. -/
def wellFormed (fields : List Field) : Bool :=
  fields.all Field.clean && decide ((fields.map Field.room).sum ≤ 510)

theorem length_numberField (sign : Option Byte) (value : Word) (base : Nat) (isSigned : Bool) :
    (numberField {} 0 sign (formatNumber value base isSigned sign {} (-1))).length ≤ 65 := by
  obtain ⟨-, hle⟩ := length_formatNumber value base isSigned sign {}
  obtain ⟨before, behind, hfield, -, hparts⟩ := numberField_parts [] 0 sign hle
  have hsign : sign.toList.length ≤ 1 := by
    cases sign with
    | none => exact Nat.zero_le 1
    | some c => exact le_rfl
  have hplain : numberField {} 0 sign (formatNumber value base isSigned sign {} (-1)) =
      before ++ List.replicate (formatNumber value base isSigned sign {} (-1)).length .digit ++
        behind := hfield
  rw [if_neg List.not_mem_nil] at hparts
  rw [hplain, hparts.1, List.append_nil, List.length_append, List.length_replicate]
  omega

theorem length_emits (f : Field) : f.emits.length ≤ f.room := by
  cases f with
  | text s => simp [Field.emits, Field.room, chs]
  | decimal v => exact length_numberField _ _ _ _
  | hex v => exact length_numberField _ _ _ _
  | pointer v => exact le_rfl

theorem length_flatMap_emits (fields : List Field) :
    (fields.flatMap Field.emits).length ≤ (fields.map Field.room).sum := by
  induction fields with
  | nil => exact le_rfl
  | cons f fields ih =>
      have hf := length_emits f
      rw [List.flatMap_cons, List.length_append, List.map_cons, List.sum_cons]
      omega

theorem expands_field (strings : Strings) {f : Field} (hf : f.clean = true) {fmt : List Byte}
    {ap : List Word} {es : List Emit} (h : Expands strings fmt ap es) :
    Expands strings (chs f.chars ++ fmt) (f.args ++ ap) (f.emits ++ es) := by
  cases f with
  | text s =>
      have hs : ∀ c ∈ chs s, c ≠ 0 ∧ c ≠ ch '%' := by simpa [Field.clean] using hf
      exact expands_literals strings hs h
  | decimal v => exact (expands_directive_iff strings _ _ _).mpr ⟨_, _, _, es, rfl, h, rfl⟩
  | hex v => exact (expands_directive_iff strings _ _ _).mpr ⟨_, _, _, es, rfl, h, rfl⟩
  | pointer v =>
      exact (expands_directive_iff strings _ _ _).mpr
        ⟨_, _, _, es, directive_pointer strings v fmt ap, h, rfl⟩

theorem expands_fields (strings : Strings) {fields : List Field}
    (hclean : ∀ f ∈ fields, f.clean = true) :
    Expands strings (chs (fields.flatMap Field.chars) ++ [0]) (fields.flatMap Field.args)
      (fields.flatMap Field.emits) := by
  induction fields with
  | nil => exact expands_nul strings [] []
  | cons f fields ih =>
      obtain ⟨hf, hclean⟩ := List.forall_mem_cons.mp hclean
      have hfield := expands_field strings hf (ih hclean)
      rw [List.flatMap_cons, chs, List.map_append, List.append_assoc]
      exact hfield

variable {State : Type} (console : Console State) (strings : Strings)

theorem say_spec {fields : List Field} (h : wellFormed fields = true) (stack : Stack)
    (port : State) :
    ∃ port', say console strings stack fields port = some port' ∧
      console.sent port' = console.sent port ++ consoleText (lineText stack fields) := by
  rw [wellFormed, Bool.and_eq_true, List.all_eq_true, decide_eq_true_iff] at h
  have hlen := length_flatMap_emits fields
  obtain ⟨port', hprint, hsent⟩ := printk_spec console (expands_fields strings h.1)
    (hlen.trans h.2) stack.property port
  refine ⟨port', ?_, hsent⟩
  rw [say, hprint]
  rfl

end Lines

/-- The call that does not come back. -/
def exits (c : Call) : Bool := c.syscall = .sysExit

/-- The calls that come back. -/
def returning (calls : List Call) : List Call := calls.takeWhile fun c => !exits c

/-- The bytes a call writes to the console for its caller. -/
def payload (mem : Memory) (c : Call) : List Byte :=
  if c.syscall = .sysWrite ∧ (c.arg1 = 1 ∨ c.arg1 = 2) then
    (List.range c.arg3.toNat).map fun i => mem (c.arg2 + BitVec.ofNat 64 i)
  else []

def opening (mem : Memory) (c : Call) : List Byte :=
  (announcement c).elim [] (lineText (c.stack 0)) ++ payload mem c

/-- What the console shows of a run.  The last call has no report if it is the one that
does not come back. -/
def transcript (mem : Memory) : List Call → List (Word × BitVec 32) → List Byte
  | [], _ => []
  | c :: _, [] => opening mem c
  | c :: calls, (num, ret) :: reports =>
      opening mem c ++ lineText (c.stack 1) (report num ret) ++ transcript mem calls reports

def request? (c : Call) : Option Word := if c.syscall = .sysMalloc then some c.arg1 else none

def requests (calls : List Call) : List Word := (returning calls).filterMap request?

/-- The values reported for `malloc`. -/
def mallocResults (reports : List (Word × BitVec 32)) : List (BitVec 32) :=
  reports.filterMap fun r => if syscallOf r.1 = .sysMalloc then some r.2 else none

section Steps

variable {State : Type} (console : Console State) (strings : Strings) (mem : Memory)

/-- What a call does to the kernel, apart from the console, and what it leaves in `ret`. -/
structure Effect (c : Call) (k k' : Kernel State) (ret : Option (BitVec 32)) : Prop where
  allocPtr : k'.allocPtr =
    (request? c).elim k.allocPtr fun size => (kmallocSimple k.allocPtr size).2
  halted : k'.halted = (k.halted || exits c)
  ret_isNone : ret.isNone = exits c
  malloc : c.syscall = .sysMalloc → ret = some (k.allocPtr.setWidth 32)

theorem Effect.of_ret {c : Call} (k : Kernel State) (hexit : c.syscall ≠ .sysExit)
    (hmalloc : c.syscall ≠ .sysMalloc) (ret : BitVec 32) (port : State) :
    Effect c k { k with port := port } (some ret) where
  allocPtr := by rw [request?, if_neg hmalloc]; rfl
  halted := by rw [exits, decide_eq_false hexit, Bool.or_false]
  ret_isNone := by rw [exits, decide_eq_false hexit]; rfl
  malloc := fun h => absurd h hmalloc

theorem payload_of_ne {c : Call} (h : c.syscall ≠ .sysWrite) : payload mem c = [] :=
  if_neg fun hc => h hc.1

theorem serve_of_ret {c : Call} {k : Kernel State} {ret : BitVec 32}
    (h : serve console mem c k = some (k, some ret)) (hexit : c.syscall ≠ .sysExit)
    (hmalloc : c.syscall ≠ .sysMalloc) (hpayload : payload mem c = []) :
    ∃ k' ret, serve console mem c k = some (k', ret) ∧ Effect c k k' ret ∧
      console.sent k'.port = console.sent k.port ++ consoleText (payload mem c) := by
  rw [hpayload]
  exact ⟨k, some ret, h, .of_ret k hexit hmalloc ret k.port, (List.append_nil _).symm⟩

theorem serve_spec (c : Call) (k : Kernel State) :
    ∃ k' ret, serve console mem c k = some (k', ret) ∧ Effect c k k' ret ∧
      console.sent k'.port = console.sent k.port ++ consoleText (payload mem c) := by
  cases hcall : c.syscall with
  | sysExit =>
      rw [payload_of_ne mem (by rw [hcall]; decide)]
      refine ⟨{ k with halted := true }, none, by simp only [serve, hcall], ⟨?_, ?_, ?_, ?_⟩,
        (List.append_nil _).symm⟩
      · rw [request?, if_neg (by rw [hcall]; decide)]
        rfl
      · rw [exits, decide_eq_true hcall, Bool.or_true]
      · rw [exits, decide_eq_true hcall]
        rfl
      · intro h
        rw [hcall] at h
        cases h
  | sysWrite =>
      by_cases hfd : c.arg1 = 1 ∨ c.arg1 = 2
      · obtain ⟨port, hwrite, hsent⟩ := foldlM_putc console
          (fun i => mem (c.arg2 + BitVec.ofNat 64 i)) (List.range c.arg3.toNat) k.port
        refine ⟨{ k with port := port }, some (c.arg3.setWidth 32), ?_,
          .of_ret k (by rw [hcall]; decide) (by rw [hcall]; decide) _ port, ?_⟩
        · simp only [serve, hcall, if_pos hfd, writeBytes, hwrite, Option.map_some]
        · rw [payload, if_pos ⟨hcall, hfd⟩]
          exact hsent
      · have hnone : payload mem c = [] := if_neg fun h => hfd h.2
        have hserve : serve console mem c k = some (k, some 0) := by
          simp only [serve, hcall, if_neg hfd]
        exact serve_of_ret console mem hserve (by rw [hcall]; decide) (by rw [hcall]; decide)
          hnone
  | sysMalloc =>
      rw [payload_of_ne mem (by rw [hcall]; decide)]
      refine ⟨{ k with allocPtr := (kmallocSimple k.allocPtr c.arg1).2 },
        some (k.allocPtr.setWidth 32), by simp only [serve, hcall, kmallocSimple],
        ⟨?_, ?_, ?_, fun _ => rfl⟩, (List.append_nil _).symm⟩
      · rw [request?, if_pos hcall]
        rfl
      · rw [exits, hcall]
        exact (Bool.or_false _).symm
      · rw [exits, hcall]
        rfl
  | _ =>
      exact serve_of_ret console mem (by simp only [serve, hcall]; rfl) (by rw [hcall]; decide)
        (by rw [hcall]; decide) (payload_of_ne mem (by rw [hcall]; decide))

theorem announcement_wellFormed {c : Call} {fields : List Field}
    (h : announcement c = some fields) : wellFormed fields = true := by
  rw [announcement] at h
  split at h
  all_goals cases h
  all_goals rfl

theorem announce_spec (c : Call) (port : State) :
    ∃ port', announce console strings c port = some port' ∧
      console.sent port' = console.sent port ++
        consoleText ((announcement c).elim [] (lineText (c.stack 0))) := by
  rw [announce]
  cases hannounce : announcement c with
  | none => exact ⟨port, rfl, (List.append_nil _).symm⟩
  | some fields => exact say_spec console strings (announcement_wellFormed hannounce) _ port

/-- One call: what it leaves, and what the console is sent meanwhile. -/
theorem syscallHandler_spec (c : Call) (k : Kernel State) :
    ∃ k' ret, syscallHandler console strings mem c k = some (k', ret) ∧ Effect c k k' ret ∧
      console.sent k'.port = console.sent k.port ++
        consoleText (opening mem c ++
          ret.elim [] fun ret => lineText (c.stack 1) (report c.num ret)) := by
  obtain ⟨port₁, hannounce, hsent₁⟩ := announce_spec console strings c k.port
  obtain ⟨k₂, ret, hserve, heffect, hsent₂⟩ :=
    serve_spec console mem c { k with port := port₁ }
  have hopening : console.sent k₂.port = console.sent k.port ++ consoleText (opening mem c) := by
    rw [hsent₂, hsent₁, opening, consoleText_append, List.append_assoc]
  cases ret with
  | none =>
      refine ⟨k₂, none, ?_, ⟨heffect.1, heffect.2, heffect.3, heffect.4⟩, ?_⟩
      · simp only [syscallHandler, hannounce, hserve, Option.bind_eq_bind, Option.bind_some]
      · rw [hopening, Option.elim_none, List.append_nil]
  | some ret =>
      obtain ⟨port₃, hsay, hsent₃⟩ := say_spec console strings
        (show wellFormed (report c.num ret) = true from rfl) (c.stack 1) k₂.port
      refine ⟨{ k₂ with port := port₃ }, some ret, ?_,
        ⟨heffect.1, heffect.2, heffect.3, heffect.4⟩, ?_⟩
      · simp only [syscallHandler, hannounce, hserve, hsay, Option.bind_eq_bind,
          Option.bind_some]
      · rw [hsent₃, hopening, Option.elim_some, consoleText_append, List.append_assoc]

theorem run_of_halted (calls : List Call) {k : Kernel State} (h : k.halted = true) :
    run console strings mem calls k = some (k, []) := by
  cases calls with
  | nil => rfl
  | cons c calls => exact if_pos h

/-- What a run is to leave: a report for every call that came back, the regions of the
heap in the order of the requests, and the text on the console. -/
structure Outcome (calls : List Call) (k k' : Kernel State) (reports : List (Word × BitVec 32)) :
    Prop where
  nums : reports.map Prod.fst = (returning calls).map Call.num
  halted : k'.halted = calls.any exits
  results : mallocResults reports =
    (allocations k.allocPtr (requests calls)).map fun r => r.base.setWidth 32
  sent : console.sent k'.port =
    console.sent k.port ++ consoleText (transcript mem calls reports)

theorem Outcome.nil {k : Kernel State} (h : k.halted = false) :
    Outcome console mem [] k k [] where
  nums := rfl
  halted := h
  results := rfl
  sent := (List.append_nil _).symm

section Cons

variable {c : Call} {calls : List Call} {k k' k'' : Kernel State}

theorem Outcome.exit (hexit : exits c = true) (heffect : Effect c k k' none)
    (hsent : console.sent k'.port = console.sent k.port ++ consoleText (opening mem c)) :
    Outcome console mem (c :: calls) k k' [] where
  nums := by rw [returning, List.takeWhile_cons_of_neg (by rw [hexit]; decide)]; rfl
  halted := by rw [heffect.halted, hexit, List.any_cons, hexit, Bool.or_true, Bool.true_or]
  results := by
    rw [requests, returning, List.takeWhile_cons_of_neg (by rw [hexit]; decide)]
    rfl
  sent := hsent

theorem returning_cons (hexit : exits c = false) :
    returning (c :: calls) = c :: returning calls :=
  List.takeWhile_cons_of_pos (by rw [hexit]; rfl)

theorem mallocResults_cons (num : Word) (ret : BitVec 32) (reports : List (Word × BitVec 32)) :
    mallocResults ((num, ret) :: reports) =
      (if syscallOf num = .sysMalloc then [ret] else []) ++ mallocResults reports := by
  rw [mallocResults, List.filterMap_cons, ← mallocResults]
  by_cases h : syscallOf num = .sysMalloc
  · simp only [if_pos h, List.singleton_append]
  · simp only [if_neg h, List.nil_append]

theorem Outcome.cons {ret : BitVec 32} {reports : List (Word × BitVec 32)}
    (hexit : exits c = false) (heffect : Effect c k k' (some ret))
    (hsent : console.sent k'.port = console.sent k.port ++
      consoleText (opening mem c ++ lineText (c.stack 1) (report c.num ret)))
    (h : Outcome console mem calls k' k'' reports) :
    Outcome console mem (c :: calls) k k'' ((c.num, ret) :: reports) where
  nums := by rw [returning_cons hexit, List.map_cons, List.map_cons, h.nums]
  halted := by rw [h.halted, List.any_cons, hexit, Bool.false_or]
  results := by
    have hrest := h.results
    rw [heffect.allocPtr] at hrest
    by_cases hmalloc : c.syscall = .sysMalloc
    · have hrequest : request? c = some c.arg1 := if_pos hmalloc
      have hret : ret = k.allocPtr.setWidth 32 := Option.some.inj (heffect.malloc hmalloc)
      rw [hrequest, Option.elim_some] at hrest
      rw [requests, returning_cons hexit, List.filterMap_cons_some hrequest, ← requests,
        allocations, List.map_cons, ← hrest, mallocResults_cons,
        if_pos (show syscallOf c.num = .sysMalloc from hmalloc), hret]
      rfl
    · have hrequest : request? c = none := if_neg hmalloc
      rw [hrequest, Option.elim_none] at hrest
      rw [requests, returning_cons hexit, List.filterMap_cons_none hrequest, ← requests, ← hrest,
        mallocResults_cons, if_neg (show ¬ syscallOf c.num = .sysMalloc from hmalloc),
        List.nil_append]
  sent := by simp only [h.sent, hsent, transcript, consoleText_append, List.append_assoc]

end Cons

theorem run_spec (calls : List Call) {k : Kernel State} (hk : k.halted = false) :
    ∃ k' reports, run console strings mem calls k = some (k', reports) ∧
      Outcome console mem calls k k' reports := by
  induction calls generalizing k with
  | nil => exact ⟨k, [], rfl, .nil console mem hk⟩
  | cons c calls ih =>
      obtain ⟨k₁, ret, hcall, heffect, hsent⟩ := syscallHandler_spec console strings mem c k
      have hhalted := heffect.halted
      rw [hk, Bool.false_or] at hhalted
      cases ret with
      | none =>
          have hexit : exits c = true := heffect.ret_isNone.symm
          rw [Option.elim_none, List.append_nil] at hsent
          refine ⟨k₁, [], ?_, .exit console mem hexit heffect hsent⟩
          simp only [run, hk, hcall, run_of_halted console strings mem calls (hhalted.trans hexit),
            Option.bind_eq_bind, Option.bind_some]
          rfl
      | some ret =>
          have hexit : exits c = false := heffect.ret_isNone.symm
          obtain ⟨k₂, reports, hrun, houtcome⟩ := ih (hhalted.trans hexit)
          refine ⟨k₂, (c.num, ret) :: reports, ?_,
            houtcome.cons console mem hexit heffect hsent⟩
          simp only [run, hk, hcall, hrun, Option.bind_eq_bind, Option.bind_some]
          rfl

end Steps

theorem signExtend_setWidth_iff (p : Word) :
    (p.setWidth 32).signExtend 64 = p ↔ p.toNat < 2 ^ 31 ∨ 2 ^ 64 - 2 ^ 31 ≤ p.toNat := by
  have hlt := p.isLt
  rw [← BitVec.toInt_inj, BitVec.toInt_signExtend_of_le (by decide), BitVec.toInt_setWidth,
    BitVec.toInt_eq_toNat_bmod, Int.bmod_def, Int.bmod_def]
  split_ifs <;> omega

/-- Every sequence of system calls is served up to its first `exit`, with a report for
every call before it.  The console shows the calls one after the other, and the bytes of
each `write` to the standard streams in full between the two lines of the call. -/
theorem run_shows {State : Type} (console : Console State) (strings : Strings) (mem : Memory)
    (calls : List Call) (port : State) (allocPtr : Word) :
    ∃ k reports, run console strings mem calls ⟨port, allocPtr, false⟩ = some (k, reports) ∧
      reports.map Prod.fst = (returning calls).map Call.num ∧
      (k.halted = true ↔ ∃ c ∈ calls, exits c = true) ∧
      console.sent k.port =
        console.sent port ++ consoleText (transcript mem calls reports) := by
  obtain ⟨k, reports, hrun, h⟩ :=
    run_spec console strings mem calls (k := ⟨port, allocPtr, false⟩) rfl
  refine ⟨k, reports, hrun, h.nums, ?_, h.sent⟩
  rw [h.halted, List.any_eq_true]

/-- The values reported for the `malloc` calls of a run are the regions the early heap
gave them exactly if all of these start in the first or in the last 2 GiB. -/
theorem malloc_results_iff {State : Type} (console : Console State) (strings : Strings)
    (mem : Memory) (calls : List Call) (port : State) (arch : Arch) :
    ∃ k reports,
      run console strings mem calls ⟨port, heapStart arch, false⟩ = some (k, reports) ∧
        ((mallocResults reports).map (BitVec.signExtend 64) =
            (allocations (heapStart arch) (requests calls)).map Region.base ↔
          ∀ r ∈ allocations (heapStart arch) (requests calls),
            r.base.toNat < 2 ^ 31 ∨ 2 ^ 64 - 2 ^ 31 ≤ r.base.toNat) := by
  obtain ⟨k, reports, hrun, h⟩ :=
    run_spec console strings mem calls (k := ⟨port, heapStart arch, false⟩) rfl
  refine ⟨k, reports, hrun, ?_⟩
  rw [h.results, List.map_map, List.map_inj_left]
  exact forall₂_congr fun r _ => signExtend_setWidth_iff r.base

end ShlteOs.SyscallRuns
