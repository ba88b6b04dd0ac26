import ShlteOs.StringFormat

/-!
The formatter behind `printk`.  `vsprintf_impl` parses flags, width, precision
and a length modifier, and tests the size of the buffer at every store it
makes, except for `%c`.  Reads behind the end of the format and missing
arguments are `none`, as for `vsprintf`.
-/

namespace ShlteOs.PrintkFormat

open ShlteOs.ByteMemory
open ShlteOs.BufferCursor
open ShlteOs.StringFormat

/-- A value in the range of `int`. -/
def wrapInt (x : Int) : Int := x.bmod (2 ^ 32)

structure Flags where
  plus : Bool := false
  space : Bool := false
  hash : Bool := false
  zero : Bool := false
  left : Bool := false

def parseFlags (flags : Flags) : List Byte → Option (Flags × List Byte)
  | [] => none
  | c :: fmt =>
      if c = ch '+' then parseFlags { flags with plus := true } fmt
      else if c = ch ' ' then parseFlags { flags with space := true } fmt
      else if c = ch '#' then parseFlags { flags with hash := true } fmt
      else if c = ch '0' then parseFlags { flags with zero := true } fmt
      else if c = ch '-' then parseFlags { flags with left := true } fmt
      else some (flags, c :: fmt)

def digitValue (c : Byte) : Int := (c.toNat : Int) - 48

/-- The digits of a width or a precision, which wrap as an `int`. -/
def parseDigits (acc : Int) : List Byte → Option (Int × List Byte)
  | [] => none
  | c :: fmt =>
      if isDigit c then parseDigits (wrapInt (acc * 10 + digitValue c)) fmt
      else some (acc, c :: fmt)

/-- A width starts with a digit other than zero. -/
def parseWidth : List Byte → Option (Int × List Byte)
  | [] => none
  | c :: fmt =>
      if ch '1' ≤ c ∧ c ≤ ch '9' then parseDigits (digitValue c) fmt else some (0, c :: fmt)

/-- A precision of `-1` stands for none. -/
def parsePrecision : List Byte → Option (Int × List Byte)
  | [] => none
  | c :: fmt => if c = ch '.' then parseDigits 0 fmt else some (-1, c :: fmt)

inductive LenMod where
  | none
  | short
  | long
  | longLong
  deriving DecidableEq

/-- The length modifiers `l`, `ll` and `h`. -/
def parseLenMod : List Byte → Option (LenMod × List Byte)
  | [] => Option.none
  | c :: fmt =>
      if c = ch 'l' then
        match fmt with
        | [] => Option.none
        | d :: fmt => if d = ch 'l' then some (.longLong, fmt) else some (.long, d :: fmt)
      else if c = ch 'h' then some (.short, fmt)
      else some (.none, c :: fmt)

/-- The digits of a number, the last one first; a `uint64_t` has at most 20. -/
def reverseDigits (base : Nat) : Nat → Nat → List Byte
  | 0, _ => []
  | fuel + 1, value =>
      if 0 < value then digitChar (value % base) :: reverseDigits base fuel (value / base)
      else []

/-- The text `format_number` leaves in its array. -/
def formatNumber (value : Word) (base : Nat) (isSigned : Bool) (sign : Option Byte)
    (flags : Flags) (precision : Int) : List Byte :=
  if value = 0 ∧ precision ≤ 0 then
    if isSigned = true ∧ sign ≠ none then
      [if sign = some (ch '-') then ch '-' else ch '+', ch '0']
    else if flags.hash = true ∧ base = 16 then chs ['0', 'x', '0']
    else [ch '0']
  else (reverseDigits base 64 value.toNat).reverse

/-- What the loop does with one character of the output. -/
inductive Emit where
  /-- A character stored and counted if there is room. -/
  | literal (c : Byte)
  /-- A character stored if there is room, and counted in any case. -/
  | counted (c : Byte)
  /-- A character stored without a test. -/
  | forced (c : Byte)
  /-- A digit of a number: the cursor moves if there is room, but nothing is
  stored. -/
  | digit

/-- The output so far.  The source counts in an `int`, whose overflow after `2 ^ 31`
characters is undefined; the count here goes on. -/
structure Printed where
  cursor : Cursor Byte
  written : Int

def Printed.start : Printed := ⟨.start, 0⟩

/-- The bound every test compares with: `(int)size - 1`. -/
def roomFor (size : Nat) : Int := wrapInt (wrapInt size - 1)

/-- One character of the output, where `lim` is the room of the buffer. -/
def put (lim : Int) (out : Printed) : Emit → Printed
  | .literal c =>
      if (out.cursor.pos : Int) < lim then ⟨out.cursor.put c, out.written + 1⟩ else out
  | .counted c =>
      if (out.cursor.pos : Int) < lim then ⟨out.cursor.put c, out.written + 1⟩
      else { out with written := out.written + 1 }
  | .forced c => ⟨out.cursor.put c, out.written + 1⟩
  | .digit =>
      if (out.cursor.pos : Int) < lim then ⟨out.cursor.skip, out.written + 1⟩ else out

def padding (pad : Int) (c : Byte) : List Emit := List.replicate pad.toNat (.counted c)

def stringField (flags : Flags) (width precision : Int) (s : List Byte) : List Emit :=
  let slen := if 0 ≤ precision ∧ precision < wrapInt s.length then precision.toNat else s.length
  let pad := wrapInt (width - wrapInt slen)
  (if flags.left then [] else padding pad (ch ' ')) ++
    (s.take slen).map .counted ++
    (if flags.left then padding pad (ch ' ') else [])

/-- The field of a number.  The loop over its digits moves the pointer and stores
nothing. -/
def numberField (flags : Flags) (width : Int) (sign : Option Byte) (num : List Byte) :
    List Emit :=
  let unsignedPad := wrapInt (width - num.length)
  let pad := if sign = none then unsignedPad else wrapInt (unsignedPad - 1)
  (if flags.left then [] else padding pad (ch '0')) ++
    (sign.toList.map .literal) ++
    List.replicate num.length .digit ++
    (if flags.left then padding pad (ch ' ') else [])

/-- An argument taken as `int` or `long long`. -/
def signedArg (lenMod : LenMod) (v : Word) : Word :=
  if lenMod = .longLong then v else (v.setWidth 32).signExtend 64

/-- An argument taken as `unsigned int` or `unsigned long long`. -/
def unsignedArg (lenMod : LenMod) (v : Word) : Word :=
  if lenMod = .longLong then v else (v.setWidth 32).setWidth 64

def signOf (flags : Flags) (value : Word) : Option Byte :=
  if value.toInt < 0 then some (ch '-')
  else if flags.plus then some (ch '+')
  else if flags.space then some (ch ' ')
  else none

/-- The text `%p` puts into the number buffer: what `snprintf` leaves of
`"0x%lx"`, up to the first NUL. -/
def pointerText (strings : Strings) (value : Word) : Option (List Byte) :=
  (snprintf strings 32 (chs ['0', 'x', '%', 'l', 'x'] ++ [0]) [value]).map fun r =>
    ((List.range r.ret).map fun k => (content r.log k).getD 0).takeWhile (· ≠ 0)

/-- The output of a conversion and the arguments it leaves. -/
def conversion (strings : Strings) (flags : Flags) (width precision : Int) (lenMod : LenMod)
    (spec : Byte) (ap : List Word) : Option (List Emit × List Word) :=
  if spec = ch 'd' ∨ spec = ch 'i' then do
    let (v, ap) ← vaArg ap
    let value := signedArg lenMod v
    let sign := signOf flags value
    let magnitude := if value.toInt < 0 then -value else value
    some (numberField flags width sign (formatNumber magnitude 10 true sign flags precision), ap)
  else if spec = ch 'u' then do
    let (v, ap) ← vaArg ap
    let num := formatNumber (unsignedArg lenMod v) 10 false none flags precision
    some (numberField flags width none num, ap)
  else if spec = ch 'x' ∨ spec = ch 'X' then do
    let (v, ap) ← vaArg ap
    let num := formatNumber (unsignedArg lenMod v) 16 false none flags precision
    some (numberField flags width none num, ap)
  else if spec = ch 'p' then do
    let (v, ap) ← vaArg ap
    let num ← pointerText strings v
    some (numberField flags width none num, ap)
  else if spec = ch 's' then do
    let (v, ap) ← vaArg ap
    let s ← stringArg strings v
    some (stringField flags width precision s, ap)
  else if spec = ch 'c' then do
    let (v, ap) ← vaArg ap
    some ([.forced (v.setWidth 8)], ap)
  else some ([.counted spec], ap)

def directive (strings : Strings) (fmt : List Byte) (ap : List Word) :
    Option (List Emit × List Byte × List Word) := do
  let (flags, fmt) ← parseFlags {} fmt
  let (width, fmt) ← parseWidth fmt
  let (precision, fmt) ← parsePrecision fmt
  let (lenMod, fmt) ← parseLenMod fmt
  match fmt with
  | [] => none
  | spec :: fmt => do
      let (es, ap) ← conversion strings flags width precision lenMod spec ap
      some (es, fmt, ap)

/-- The loop of `vsprintf_impl`. Every round reads at least one byte of the
format. -/
def formatLoop (strings : Strings) (lim : Int) :
    Nat → List Byte → List Word → Printed → Option Printed
  | 0, _, _, _ => none
  | _ + 1, [], _, _ => none
  | fuel + 1, c :: fmt, ap, out =>
      if c = 0 then some out
      else if c ≠ ch '%' then formatLoop strings lim fuel fmt ap (put lim out (.literal c))
      else do
        let (es, fmt, ap) ← directive strings fmt ap
        formatLoop strings lim fuel fmt ap (es.foldl (put lim) out)

/-- The terminator, counted from the cursor when there is no room. -/
def terminate (size : Nat) (out : Printed) : Printed :=
  if (out.cursor.pos : Int) < roomFor size then
    { out with cursor.log := (out.cursor.pos, 0) :: out.cursor.log }
  else if 0 < size then
    { out with cursor.log := (out.cursor.pos + (size - 1), 0) :: out.cursor.log }
  else out

/-- The loop and the NUL behind it.  As many turns as the format has bytes are enough. -/
def vsprintfImpl (strings : Strings) (size : Nat) (fmt : List Byte) (ap : List Word) :
    Option Printed :=
  (formatLoop strings (roomFor size) fmt.length fmt ap .start).map (terminate size)

def printkBuffer : Nat := 512

def printk (strings : Strings) (fmt : List Byte) (ap : List Word) : Option Printed :=
  vsprintfImpl strings printkBuffer fmt ap

end ShlteOs.PrintkFormat
