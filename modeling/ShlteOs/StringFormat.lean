import ShlteOs.BufferCursor
import ShlteOs.ByteMemory

/-!
The formatted output of `string.c` and `stdio.c`: `vsprintf` with its fixed
limit of 1023 characters, and the functions that call it.  A format is the list
of the bytes that can be read from `fmt` on; reading behind its end, taking an
argument that is not there, and following a bad string pointer are `none`.
-/

namespace ShlteOs.StringFormat

open ShlteOs.ByteMemory
open ShlteOs.BufferCursor

def ch (c : Char) : Byte := BitVec.ofNat 8 c.toNat

def chs (cs : List Char) : List Byte := cs.map ch

/-- The test of the parsers for a decimal digit. -/
def isDigit (c : Byte) : Bool := ch '0' ≤ c ∧ c ≤ ch '9'

theorem percent_ne_zero : ch '%' ≠ 0 := by decide

/-- The strings that pointers lead to, each up to its NUL. -/
abbrev Strings := Word → Option (List Byte)

def vaArg : List Word → Option (Word × List Word)
  | [] => none
  | v :: ap => some (v, ap)

/-- A NULL pointer is printed as `(null)`. -/
def stringArg (strings : Strings) (s : Word) : Option (List Byte) :=
  if s = 0 then some (chs ['(', 'n', 'u', 'l', 'l', ')']) else strings s

/-- The digits of a `long`, put in front of `acc` from the last one on, into a
buffer with room for `room` of them. -/
def longDigits : Nat → Int → List Byte → List Byte
  | 0, _, acc => acc
  | room + 1, val, acc =>
      let acc := BitVec.ofInt 8 (48 + val.tmod 10) :: acc
      if 0 < val.tdiv 10 then longDigits room (val.tdiv 10) acc else acc

def digitChar (d : Nat) : Byte :=
  if d < 10 then BitVec.ofNat 8 (48 + d) else BitVec.ofNat 8 (97 + d - 10)

/-- The loop over the digits of an unsigned number. -/
def ulongDigits (base : Nat) : Nat → Nat → List Byte → List Byte
  | 0, _, acc => acc
  | room + 1, val, acc =>
      let acc := digitChar (val % base) :: acc
      if 0 < val / base then ulongDigits base room (val / base) acc else acc

/-- `%d`: the negation of the least `long` is itself. -/
def longText (v : Word) : List Byte :=
  if v.toInt < 0 then ch '-' :: longDigits 31 (-v).toInt [] else longDigits 31 v.toInt []

def ulongText (base : Nat) (v : Word) : List Byte := ulongDigits base 31 v.toNat []

/-- How the output of a directive is checked against the limit. -/
inductive Conversion where
  /-- A text that is cut off at the limit. -/
  | text (t : List Byte)
  /-- A pointer, checked digit by digit. -/
  | pointer (val : Word)
  /-- Characters that are stored without a check. -/
  | chars (cs : List Byte)

/-- The conversion a character asks for, and the arguments it leaves. -/
def convert (strings : Strings) (d : Byte) (ap : List Word) :
    Option (Conversion × List Word) :=
  if d = ch 's' then do
    let (s, ap) ← vaArg ap
    let t ← stringArg strings s
    some (.text t, ap)
  else if d = ch 'd' ∨ d = ch 'i' then do
    let (v, ap) ← vaArg ap
    some (.text (longText v), ap)
  else if d = ch 'u' then do
    let (v, ap) ← vaArg ap
    some (.text (ulongText 10 v), ap)
  else if d = ch 'x' ∨ d = ch 'X' then do
    let (v, ap) ← vaArg ap
    some (.text (ulongText 16 v), ap)
  else if d = ch 'p' then do
    let (v, ap) ← vaArg ap
    some (.pointer v, ap)
  else if d = ch 'c' then do
    let (v, ap) ← vaArg ap
    some (.chars [v.setWidth 8], ap)
  else if d = ch '%' then some (.chars [ch '%'], ap)
  else some (.chars [ch '%', d], ap)

/-- `vsprintf` assumes a buffer of 1024 bytes. -/
def limit : Nat := 1023

def nibble (val : Word) (shift : Nat) : Byte := digitChar ((val >>> shift) &&& 0xF).toNat

/-- The digits of `%p`: the low half of the pointer only. -/
def pointerShifts : List Nat := [28, 24, 20, 16, 12, 8, 4, 0]

/-- The stores of a conversion. -/
def emit (out : Cursor Byte) : Conversion → Cursor Byte
  | .text t =>
      let len := if out.pos + t.length > limit then limit - out.pos else t.length
      out.putAll (t.take len)
  | .pointer val =>
      let out := if out.pos + 2 ≤ limit then (out.put (ch '0')).put (ch 'x') else out
      pointerShifts.foldl
        (fun out shift => if out.pos ≥ limit then out else out.put (nibble val shift)) out
  | .chars cs => out.putAll cs

/-- The loop of `vsprintf`. -/
def formatLoop (strings : Strings) : List Byte → List Word → Cursor Byte → Option (Cursor Byte)
  | [], _, _ => none
  | c :: fmt, ap, out =>
      if c = 0 ∨ ¬ out.pos < limit then some out
      else if c = ch '%' then
        match fmt with
        | [] => none
        | d :: fmt => do
            let (conv, ap) ← convert strings d ap
            formatLoop strings fmt ap (emit out conv)
      else formatLoop strings fmt ap (out.put c)

/-- The stores made, and the value returned. -/
structure Formatted where
  log : Log Byte
  ret : Nat

/-- The loop, and the NUL at the end of the text. -/
def vsprintf (strings : Strings) (fmt : List Byte) (ap : List Word) : Option Formatted :=
  (formatLoop strings fmt ap .start).map fun out =>
    let i := if out.pos > limit then limit else out.pos
    { log := (i, 0) :: out.log, ret := i }

/-- `vsnprintf` formats first, without regard to the size, and cuts the text off
afterwards. -/
def vsnprintf (strings : Strings) (size : Nat) (fmt : List Byte) (ap : List Word) :
    Option Formatted :=
  if size = 0 then some { log := [], ret := 0 }
  else
    (vsprintf strings fmt ap).map fun r =>
      if r.ret ≥ size then { log := (size - 1, 0) :: r.log, ret := size - 1 } else r

def snprintf (strings : Strings) (size : Nat) (fmt : List Byte) (ap : List Word) :
    Option Formatted :=
  vsnprintf strings size fmt ap

def printfBuffer : Nat := 256

/-- `printf` into its own buffer; the bytes it then sends are read from there. -/
def printf (strings : Strings) (fmt : List Byte) (ap : List Word) :
    Option (Formatted × List (Option Byte)) :=
  (vsprintf strings fmt ap).map fun r => (r, (List.range r.ret).map (content r.log))

end ShlteOs.StringFormat
