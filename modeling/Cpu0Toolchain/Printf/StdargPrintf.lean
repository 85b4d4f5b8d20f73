import Mathlib.Algebra.Order.Ring.Int
import Cpu0Toolchain.Printf.SanitizerPrintf

/-!
# The small printf

`print` of `input/printf-stdarg.c` and the functions it prints with. They share one output: a null
`out` stands for `putchar`, and otherwise `*out` is a cursor in a memory that nothing bounds. What C
leaves undefined ends the run with a `Fault`, except that `pc`, an `int` there, is a natural number:
a run that prints more characters than an `int` can count goes on.
-/

namespace Cpu0Toolchain.Printf.Stdarg

inductive Fault where
  /-- The scan runs over the NUL of the format. -/
  | formatOverrun
  /-- A character in front of `print_buf`. -/
  | printBufOverrun
  /-- A width past the largest `int`. -/
  | widthOverflow
  /-- `va_arg` finds no argument, or one of another type. -/
  | argument
  | outOfFuel
  deriving DecidableEq, Repr

/-- What `putchar` has been called with, or a memory and the cursor in it. -/
inductive Out where
  | device (printed : List Char)
  | string (mem : ℕ → Char) (cursor : ℕ)

def printchar (c : Char) : Out → Out
  | .device printed => .device (printed ++ [c])
  | .string mem cursor => .string (Function.update mem cursor c) (cursor + 1)

/-- The bits `PAD_RIGHT` and `PAD_ZERO`. -/
structure Pad where
  right : Bool
  zero : Bool
  deriving DecidableEq

/-- The output, and the number `pc` of characters printed to it. -/
abbrev Output := Out × ℕ

/-- `printchar (out, c); ++pc;` -/
def one (c : Char) (p : Output) : Output := (printchar c p.1, p.2 + 1)

/-- `for ( ; width > 0; --width)` with the same character. -/
def repeatChar (c : Char) (n : ℕ) (p : Output) : Output :=
  (List.range n).foldl (fun p _ => one c p) p

def prints (out : Out) (string : List Char) (width : ℕ) (pad : Pad) : Output :=
  let padchar := if width > 0 && pad.zero then '0' else ' '
  let width := if string.length ≥ width then 0 else width - string.length
  let p : Output := (out, 0)
  let (p, width) := if !pad.right then (repeatChar padchar width p, 0) else (p, width)
  let p := string.foldl (fun p c => one c p) p
  repeatChar padchar width p

/-- `pc += …` -/
def add (pc : ℕ) (p : Output) : Output := (p.1, pc + p.2)

/-- `PRINT_BUF_LEN` -/
def printBufLen : ℕ := 12

/-- `t + '0'`, where a digit from ten on has `letbase - '0' - 10` more. -/
def digitLetter (letbase : Char) (t : ℕ) : Char :=
  Char.ofNat ((if t ≥ 10 then t + (letbase.toNat - '0'.toNat - 10) else t) + '0'.toNat)

/-- The loop `while (u)`, with so much room left in front of `s`. -/
def digitLoop (b : ℕ) (letbase : Char) : ℕ → ℕ → List Char → Except Fault (ℕ × List Char)
  | 0, u, s => if u = 0 then .ok (0, s) else .error .printBufOverrun
  | room + 1, u, s =>
    if u = 0 then .ok (room + 1, s)
    else digitLoop b letbase room (u / b) (digitLetter letbase (u % b) :: s)

def printi (out : Out) (i : BitVec 32) (b : ℕ) (sg : Bool) (width : ℕ) (pad : Pad)
    (letbase : Char) : Except Fault Output :=
  if i = 0#32 then .ok (prints out ['0'] width pad)
  else do
    let neg := sg && b = 10 && i.slt 0#32
    let u := if neg then -i else i
    let (room, s) ← digitLoop b letbase (printBufLen - 1) u.toNat []
    if neg then
      if width ≠ 0 && pad.zero then
        let (out, pc) := one '-' (out, 0)
        return add pc (prints out s (width - 1) pad)
      else if room = 0 then throw .printBufOverrun
      else return prints out ('-' :: s) width pad
    else return prints out s width pad

/-! ## The scan -/

def vaInt : List Arg → Except Fault (BitVec 32 × List Arg)
  | .int v :: args => .ok (v, args)
  | _ => .error .argument

/-- `(char *)va_arg( args, int )` -/
def vaPointer : List Arg → Except Fault (Option CString × List Arg)
  | .pointer s :: args => .ok (s, args)
  | _ => .error .argument

/-- `s?s:"(null)"` -/
def stringChars : Option CString → List Char
  | some s => s.chars
  | none => "(null)".toList

def readZeros : List Char → Bool → Bool × List Char
  | [], zero => (zero, [])
  | c :: format, zero => if c = '0' then readZeros format true else (zero, c :: format)

def readWidth : List Char → ℕ → Except Fault (ℕ × List Char)
  | [], width => .ok (width, [])
  | c :: format, width =>
    if isDigit c then
      let width := width * 10 + (c.toNat - '0'.toNat)
      if width < 2 ^ 31 then readWidth format width else .error .widthOverflow
    else .ok (width, c :: format)

/-- `scr` -/
def charString (c : BitVec 32) : List Char :=
  if c.setWidth 8 = 0#8 then [] else [Char.ofNat (c.setWidth 8).toNat]

/-- The tests of the conversion letter. -/
def convert (letter : Char) (width : ℕ) (pad : Pad) (args : List Arg) (p : Output) :
    Except Fault (Output × List Arg) :=
  match letter with
  | 's' => do
    let (s, args) ← vaPointer args
    return (add p.2 (prints p.1 (stringChars s) width pad), args)
  | 'd' => do
    let (i, args) ← vaInt args
    let r ← printi p.1 i 10 true width pad 'a'
    return (add p.2 r, args)
  | 'x' => do
    let (i, args) ← vaInt args
    let r ← printi p.1 i 16 false width pad 'a'
    return (add p.2 r, args)
  | 'X' => do
    let (i, args) ← vaInt args
    let r ← printi p.1 i 16 false width pad 'A'
    return (add p.2 r, args)
  | 'u' => do
    let (i, args) ← vaInt args
    let r ← printi p.1 i 10 false width pad 'a'
    return (add p.2 r, args)
  | 'c' => do
    let (c, args) ← vaInt args
    return (add p.2 (prints p.1 (charString c) width pad), args)
  | _ => return (p, args)

/-- The loop over the format. A `%` at its end is a `break`; behind any other directive the loop
steps over the conversion letter, and if that was the NUL it reads on behind it. -/
def scan : ℕ → List Char → List Arg → Output → Except Fault Output
  | 0, _, _, _ => .error .outOfFuel
  | _ + 1, [], _, p => .ok p
  | fuel + 1, c :: format, args, p =>
    if c ≠ '%' then scan fuel format args (one c p)
    else if format = [] then .ok p
    else if peek format 0 = '%' then scan fuel (format.drop 1) args (one '%' p)
    else do
      let right := peek format 0 = '-'
      let format := if right then format.drop 1 else format
      let (zero, format) := readZeros format false
      let (width, format) ← readWidth format 0
      let (p, args) ← convert (peek format 0) width ⟨right, zero⟩ args p
      match format with
      | [] => throw .formatOverrun
      | _ :: format => scan fuel format args p

/-- `if (out) **out = '\0';` -/
def terminate : Out → Out
  | .device printed => .device printed
  | .string mem cursor => .string (Function.update mem cursor '\x00') cursor

def print (out : Out) (format : CString) (args : List Arg) : Except Fault Output := do
  let p ← scan (format.chars.length + 1) format.chars args (out, 0)
  return (terminate p.1, p.2)

def printf (format : CString) (args : List Arg) : Except Fault Output :=
  print (.device []) format args

/-- `sprintf` to a buffer that lies at the start of the memory. -/
def sprintf (out : ℕ → Char) (format : CString) (args : List Arg) : Except Fault Output :=
  print (.string out 0) format args

end Cpu0Toolchain.Printf.Stdarg
