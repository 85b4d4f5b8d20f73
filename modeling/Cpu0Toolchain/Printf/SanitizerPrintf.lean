import Cpu0Toolchain.Library.BoundedWriter

/-!
# The formatted printing of the Cpu0 runtime

`VSNPrintf` of `input/sanitizer_printf.cpp` and the functions it prints with. The
checks of the file (`CHECK`, `RAW_CHECK`, `RAW_CHECK_MSG`) are macros with empty
bodies and do nothing. What C++ leaves undefined ends the run with a `Fault`, except
for an `int` that overflows: the arithmetic of widths and `-width` are taken to wrap
around, and the number of characters `result` has no bound. Cpu0 is a 32-bit target:
`int`, `long` and pointers are 32 bits wide.
-/

namespace Cpu0Toolchain.Printf
open BoundedWriter

inductive Fault where
  /-- The scan runs over the NUL of the format. -/
  | formatOverrun
  /-- An index of `num_buffer` is not below `kMaxLen`. -/
  | numBufferOverrun
  /-- `va_arg` finds no argument, or one of another type. -/
  | argument
  | outOfFuel
  deriving DecidableEq, Repr

/-- A NUL-terminated string. -/
structure CString where
  chars : List Char
  no_nul : '\x00' ∉ chars
  deriving DecidableEq

inductive Arg where
  | int (v : BitVec 32)
  | long (v : BitVec 32)
  | longLong (v : BitVec 64)
  | pointer (s : Option CString)
  deriving DecidableEq

/-- The buffer with the cursor `buff`, and the number of characters counted so far. -/
abbrev Printed := Writer Char × ℕ

/-- `result += Append…(&buff, …)`. -/
def count (append : Writer Char → Printed) (p : Printed) : Printed :=
  let r := append p.1
  (r.1, p.2 + r.2)

def appendChar (buffEnd : ℕ) (c : Char) (w : Writer Char) : Printed := (write buffEnd c w, 1)

def kMaxLen : ℕ := 30

/-- The digits, lowest first, that the `do` loop writes into what room is left of `num_buffer`. -/
def digitLoop (base : ℕ) : ℕ → ℕ → Except Fault (List ℕ)
  | 0, _ => .error .numBufferOverrun
  | room + 1, value =>
    if value / base > 0 then (value % base :: ·) <$> digitLoop base room (value / base)
    else .ok [value % base]

/-- The loop over the zeros at the top of `num_buffer`, which is read from its end. -/
def skipZeros (buffEnd : ℕ) (padWithZero leftJustified : Bool) :
    List ℕ → Printed → List ℕ × Printed
  | [], p => ([], p)
  | d :: rest, p =>
    if d = 0 then
      let c := if padWithZero || rest.isEmpty then '0' else ' '
      skipZeros buffEnd padWithZero leftJustified rest
        (if !leftJustified then count (appendChar buffEnd c) p else p)
    else (d :: rest, p)

def digitLetter (uppercase : Bool) (digit : ℕ) : Char :=
  if digit < 10 then Char.ofNat ('0'.toNat + digit)
  else Char.ofNat ((if uppercase then 'A' else 'a').toNat + digit - 10)

def appendDigits (buffEnd : ℕ) (uppercase : Bool) (digits : List ℕ) (p : Printed) : Printed :=
  digits.foldl (fun p d => count (appendChar buffEnd (digitLetter uppercase d)) p) p

/-- `result += AppendChar(buff, buff_end, c)`, `n` times. -/
def repeatChar (buffEnd : ℕ) (c : Char) (n : ℕ) (p : Printed) : Printed :=
  (List.range n).foldl (fun p _ => count (appendChar buffEnd c) p) p

def appendNumber (buffEnd : ℕ) (absoluteValue : BitVec 64) (base : ℕ) (minimalNumLength : BitVec 8)
    (padWithZero negative uppercase leftJustified : Bool) (w : Writer Char) :
    Except Fault Printed := do
  let minimal := minimalNumLength.toNat
  let minimal := if negative && minimal ≠ 0 then minimal - 1 else minimal
  let p : Printed := (w, 0)
  let p := if negative && padWithZero then count (appendChar buffEnd '-') p else p
  let digits ← digitLoop base kMaxLen absoluteValue.toNat
  if digits.length < minimal ∧ kMaxLen < minimal then throw .numBufferOverrun
  let numPads := minimal - digits.length
  let numBuffer := digits ++ List.replicate numPads 0
  let (rest, p) := skipZeros buffEnd padWithZero leftJustified numBuffer.reverse p
  let p := if negative && !padWithZero then count (appendChar buffEnd '-') p else p
  let p := appendDigits buffEnd uppercase rest p
  return if leftJustified then repeatChar buffEnd ' ' numPads p else p

def appendUnsigned (buffEnd : ℕ) (num : BitVec 64) (base : ℕ) (minimalNumLength : BitVec 8)
    (padWithZero uppercase leftJustified : Bool) : Writer Char → Except Fault Printed :=
  appendNumber buffEnd num base minimalNumLength padWithZero false uppercase leftJustified

def appendSignedDecimal (buffEnd : ℕ) (num : BitVec 64) (minimalNumLength : BitVec 8)
    (padWithZero leftJustified : Bool) : Writer Char → Except Fault Printed :=
  let negative := num.slt 0
  appendNumber buffEnd (if negative then -num else num) 10 minimalNumLength padWithZero negative
    false leftJustified

/-- `while (result < bound)` with a blank printed in each round. -/
def padWhile (buffEnd : ℕ) (bound : ℤ) (p : Printed) : Printed :=
  repeatChar buffEnd ' ' (bound - p.2).toNat p

def stringLoop (buffEnd : ℕ) (maxChars : ℤ) : List Char → Printed → Printed
  | [], p => p
  | c :: s, p =>
    if 0 ≤ maxChars ∧ maxChars ≤ p.2 then p
    else stringLoop buffEnd maxChars s (count (appendChar buffEnd c) p)

/-- The characters `AppendString` prints from: `if (!s) s = "<null>"`. -/
def stringChars : Option CString → List Char
  | some s => s.chars
  | none => "<null>".toList

def appendString (buffEnd : ℕ) (width maxChars : BitVec 32) (s : Option CString)
    (leftJustified : Bool) (w : Writer Char) : Printed :=
  let s := stringChars s
  let p : Printed := (w, 0)
  let p := if !leftJustified then padWhile buffEnd (width.toInt - s.length) p else p
  let p := stringLoop buffEnd maxChars.toInt s p
  -- `width < -result` for `result < -width`
  if leftJustified then padWhile buffEnd (-width.toInt) p else p

def appendPointer (buffEnd : ℕ) (ptrValue : BitVec 64) (leftJustified : Bool) (w : Writer Char) :
    Except Fault Printed := do
  let p := count (appendString buffEnd 0 (-1) (some ⟨['0', 'x'], by decide⟩) leftJustified) (w, 0)
  let r ← appendUnsigned buffEnd ptrValue 16 12 true false leftJustified p.1
  return (r.1, p.2 + r.2)

/-! ## The scan -/

def vaInt : List Arg → Except Fault (BitVec 32 × List Arg)
  | .int v :: args => .ok (v, args)
  | _ => .error .argument

def vaLong : List Arg → Except Fault (BitVec 32 × List Arg)
  | .long v :: args => .ok (v, args)
  | _ => .error .argument

def vaLongLong : List Arg → Except Fault (BitVec 64 × List Arg)
  | .longLong v :: args => .ok (v, args)
  | _ => .error .argument

def vaPointer : List Arg → Except Fault (Option CString × List Arg)
  | .pointer s :: args => .ok (s, args)
  | _ => .error .argument

/-- What stands between a `%` and its conversion letter. -/
structure Directive where
  leftJustified : Bool
  padWithZero : Bool
  width : BitVec 32
  precision : BitVec 32
  haveZ : Bool
  haveLl : Bool
  deriving DecidableEq

/-- `cur[i]`, where the NUL follows the last character. -/
def peek (cur : List Char) (i : ℕ) : Char := cur.getD i '\x00'

def isDigit (c : Char) : Bool := '0' ≤ c && c ≤ '9'

def readWidth : List Char → BitVec 32 → BitVec 32 × List Char
  | [], width => (width, [])
  | c :: cur, width =>
    if isDigit c then readWidth cur (width * 10 + BitVec.ofNat 32 c.toNat - BitVec.ofNat 32 '0'.toNat)
    else (width, c :: cur)

def readPrecision (cur : List Char) (args : List Arg) :
    Except Fault (BitVec 32 × List Char × List Arg) :=
  if peek cur 0 = '.' ∧ peek cur 1 = '*' then
    (fun r => (r.1, cur.drop 2, r.2)) <$> vaInt args
  else .ok (-1, cur, args)

/-- `have_z` and `have_ll`. -/
def readLength (cur : List Char) : Bool × Bool × List Char :=
  if peek cur 0 = 'z' then (true, false, cur.drop 1)
  else if peek cur 0 = 'l' ∧ peek cur 1 = 'l' then (false, true, cur.drop 2)
  else (false, false, cur)

def readDirective (cur : List Char) (args : List Arg) :
    Except Fault (Directive × List Char × List Arg) := do
  let leftJustified := peek cur 0 = '-'
  let cur := if leftJustified then cur.drop 1 else cur
  let padWithZero := peek cur 0 = '0'
  let (width, cur) := readWidth cur 0
  let (precision, cur, args) ← readPrecision cur args
  let (haveZ, haveLl, cur) := readLength cur
  return (⟨leftJustified, padWithZero, width, precision, haveZ, haveLl⟩, cur, args)

/-- The argument of `%d`, converted to `s64`. -/
def vaSigned (d : Directive) (args : List Arg) : Except Fault (BitVec 64 × List Arg) :=
  if d.haveLl then vaLongLong args
  else if d.haveZ then (fun r => (r.1.signExtend 64, r.2)) <$> vaLong args
  else (fun r => (r.1.signExtend 64, r.2)) <$> vaInt args

/-- The argument of `%u`, `%x` and `%X`, converted to `u64`. -/
def vaUnsigned (d : Directive) (args : List Arg) : Except Fault (BitVec 64 × List Arg) :=
  if d.haveLl then vaLongLong args
  else if d.haveZ then (fun r => (r.1.setWidth 64, r.2)) <$> vaLong args
  else (fun r => (r.1.setWidth 64, r.2)) <$> vaInt args

/-- `result += Append…(&buff, …)` for a function that can run into undefined behaviour. -/
def countM (append : Writer Char → Except Fault Printed) (p : Printed) : Except Fault Printed :=
  (fun r => (r.1, p.2 + r.2)) <$> append p.1

/-- The `switch` over the conversion letter. -/
def convert (buffEnd : ℕ) (d : Directive) (letter : Char) (args : List Arg) (p : Printed) :
    Except Fault (Printed × List Arg) :=
  match letter with
  | 'd' => do
    let (dval, args) ← vaSigned d args
    let p ← countM (appendSignedDecimal buffEnd dval (d.width.setWidth 8) d.padWithZero
      d.leftJustified) p
    return (p, args)
  | 'u' => do
    let (uval, args) ← vaUnsigned d args
    let p ← countM (appendUnsigned buffEnd uval 10 (d.width.setWidth 8) d.padWithZero false
      d.leftJustified) p
    return (p, args)
  | 'x' => do
    let (uval, args) ← vaUnsigned d args
    let p ← countM (appendUnsigned buffEnd uval 16 (d.width.setWidth 8) d.padWithZero false
      d.leftJustified) p
    return (p, args)
  | 'X' => do
    let (uval, args) ← vaUnsigned d args
    let p ← countM (appendUnsigned buffEnd uval 16 (d.width.setWidth 8) d.padWithZero true
      d.leftJustified) p
    return (p, args)
  | 'p' => do
    let (ptr, args) ← vaLong args
    let p ← countM (appendPointer buffEnd (ptr.setWidth 64) d.leftJustified) p
    return (p, args)
  | 's' => do
    let (s, args) ← vaPointer args
    return (count (appendString buffEnd (if d.leftJustified then -d.width else d.width) d.precision s
      d.leftJustified) p, args)
  | 'c' => do
    let (c, args) ← vaInt args
    return (count (appendChar buffEnd (Char.ofNat (c.setWidth 8).toNat)) p, args)
  | '%' => return (count (appendChar buffEnd '%') p, args)
  | _ => return (p, args)

/-- The loop over the format. Behind a directive it steps over the conversion letter, and
if that was the NUL it reads on behind it. -/
def scan (buffEnd : ℕ) : ℕ → List Char → List Arg → Printed → Except Fault Printed
  | 0, _, _, _ => .error .outOfFuel
  | _ + 1, [], _, p => .ok p
  | fuel + 1, c :: cur, args, p =>
    if c ≠ '%' then scan buffEnd fuel cur args (count (appendChar buffEnd c) p)
    else do
      let (d, cur, args) ← readDirective cur args
      let (p, args) ← convert buffEnd d (peek cur 0) args p
      match cur with
      | [] => throw .formatOverrun
      | _ :: cur => scan buffEnd fuel cur args p

/-- `VSNPrintf` on a buffer that lies at the start of the memory. -/
def vsnPrintf (buff : ℕ → Char) (buffLength : ℕ) (format : CString) (args : List Arg) :
    Except Fault ((ℕ → Char) × ℕ) := do
  let buffEnd := buffLength - 1
  let p ← scan buffEnd (format.chars.length + 1) format.chars args (⟨buff, 0⟩, 0)
  return ((appendChar (buffEnd + 1) '\x00' p.1).1.mem, p.2)

end Cpu0Toolchain.Printf
