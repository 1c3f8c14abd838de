import TreeWalk.Json.Reader

/-!
# Numbers in a JSON text

A number without fraction and exponent is an integer as long as it fits: a natural
number into 64 bits, a negative number into 64 bits with sign.  All others are
floats, and so is `-0`.

## The value of a float

The digits are collected into one significand that fits into 64 bits.  The first digit
of the integer part with which it would not fit is dropped, together with the digits of
the integer part behind it, and so is the first such digit of the fraction; the
exponent makes up for dropped digits of the integer part and for kept digits of the
fraction.  The significand is then rounded to a double and multiplied or divided by a
power of ten, each in one operation on doubles.  The result is close to the decimal that
was written, but it is not always the nearest double.
-/

namespace TreeWalk

namespace Json

/-- A number as it was read. -/
inductive Number where
  /-- A natural number below `2^64`. -/
  | natural (n : Nat)
  /-- A negative number not below `-2^63`. -/
  | negative (n : Int64)
  | float (x : Float)
  deriving DecidableEq

namespace Number

/-- What a complaint calls a number. -/
def found : Number → Found
  | natural n => .integer n
  | negative n => .integer n.toInt
  | float x => .float x

end Number

/-- The value of a decimal digit. -/
def digit? (c : Char) : Option Nat :=
  if '0' ≤ c ∧ c ≤ '9' then some (c.toNat - '0'.toNat) else none

/-- Whether a text begins with a decimal digit. -/
def startsWithDigit : List Char → Bool
  | [] => false
  | c :: _ => (digit? c).isSome

/-- The number of digits at the front of a text, and what follows them. -/
def countDigits : Nat → List Char → Nat × List Char
  | n, [] => (n, [])
  | n, c :: rest => if (digit? c).isSome then countDigits (n + 1) rest else (n, c :: rest)

/-- Digits that were collected. -/
structure Digits where
  /-- The significand. -/
  significand : Nat
  /-- How many digits it took up. -/
  kept : Nat
  /-- How many digits were dropped behind them. -/
  dropped : Nat
  deriving DecidableEq, Repr

/-- Collect digits into a significand below `2^64`, after `kept` digits that are in it
already.  From the first digit with which it would not fit, digits are dropped. -/
def collect : Nat → Nat → List Char → Digits × List Char
  | significand, kept, [] => (⟨significand, kept, 0⟩, [])
  | significand, kept, c :: rest =>
    match digit? c with
    | none => (⟨significand, kept, 0⟩, c :: rest)
    | some d =>
      if significand * 10 + d < UInt64.size then collect (significand * 10 + d) (kept + 1) rest
      else
        let (dropped, rest) := countDigits 1 rest
        (⟨significand, kept, dropped⟩, rest)

/-- All digits at the front of a text as one number, after the digits in `n`. -/
def digitsValue : Nat → List Char → Nat × List Char
  | n, [] => (n, [])
  | n, c :: rest =>
    match digit? c with
    | none => (n, c :: rest)
    | some d => digitsValue (n * 10 + d) rest

/-- The double nearest to a power of ten. -/
def powerOfTen (n : Nat) : Float := Float.ofScientific 1 false n

/-- Divide by powers of ten until the remaining one is a double, or the quotient is
zero. -/
def scaleDown : Nat → Float → Nat → Float
  | 0, x, _ => x
  | steps + 1, x, n =>
    if n ≤ 308 then x / powerOfTen n
    else if x == 0 then x
    else scaleDown steps (x / powerOfTen 308) (n - 308)

/-- The double for a significand below `2^64` and a power of ten.  Two divisions bring
every significand to zero. -/
def ofParts (significand : Nat) (exponent : Int) : Except Error Float :=
  let x := significand.toUInt64.toFloat
  if exponent < 0 then .ok (scaleDown 4 x (-exponent).toNat)
  else if exponent ≤ 308 then
    let y := x * powerOfTen exponent.toNat
    if y.isInf then .error .numberOutOfRange else .ok y
  else if x == 0 then .ok x
  else .error .numberOutOfRange

/-- A double with the sign that was written. -/
def signed (negative : Bool) (x : Float) : Float := if negative then -x else x

/-- The largest exponent that is taken at its value. -/
def maxExponent : Nat := Nat.pow 2 31 - 1

/-- The double for a significand and a power of ten that is the sum of a small number and
a written exponent.  A written exponent of more than 31 bits stands for zero or for a
number out of range. -/
def withExponent (significand : Nat) (start : Int) (negative : Bool) (exponent : Nat) :
    Except Error Float :=
  if exponent ≤ maxExponent then
    ofParts significand (if negative then start - exponent else start + exponent)
  else if negative || significand = 0 then .ok 0
  else .error .numberOutOfRange

/-- The exponent of a number, after its `e`: whether it is negative, and its value. -/
def exponent (cs : List Char) : Except Error ((Bool × Nat) × List Char) :=
  let (negative, cs) :=
    match cs with
    | [] => (false, [])
    | c :: rest => if c = '-' then (true, rest) else if c = '+' then (false, rest) else (false, c :: rest)
  match cs with
  | [] => .error .valueEnded
  | c :: rest =>
    match digit? c with
    | none => .error .invalidNumber
    | some d =>
      let (n, rest) := digitsValue d rest
      .ok ((negative, n), rest)

/-- Whether a text begins with the mark of an exponent. -/
def startsWithExponent : List Char → Bool
  | [] => false
  | c :: _ => c == 'e' || c == 'E'

/-- The exponent, if there is one, after a significand and the power of ten that belongs
to it. -/
def floatRest (negative : Bool) (significand : Nat) (start : Int) (cs : List Char) :
    Except Error (Float × List Char) :=
  if startsWithExponent cs then
    match exponent (cs.drop 1) with
    | .error e => .error e
    | .ok ((negativeExponent, n), rest) =>
      match withExponent significand start negativeExponent n with
      | .error e => .error e
      | .ok x => .ok (signed negative x, rest)
  else
    match ofParts significand start with
    | .error e => .error e
    | .ok x => .ok (signed negative x, cs)

/-- The fraction, after its point, and the exponent. -/
def fraction (negative : Bool) (significand : Nat) (start : Int) (cs : List Char) :
    Except Error (Float × List Char) :=
  if startsWithDigit cs then
    let (ds, rest) := collect significand 0 cs
    floatRest negative ds.significand (start - ds.kept) rest
  else if cs.isEmpty then .error .valueEnded
  else .error .invalidNumber

/-- Whether a text begins with a decimal point. -/
def startsWithPoint : List Char → Bool
  | [] => false
  | c :: _ => c == '.'

/-- An integer that has neither fraction nor exponent. -/
def integer (negative : Bool) (n : Nat) : Number :=
  if negative then
    if 0 < n ∧ n ≤ Nat.pow 2 63 then .negative (Int64.ofInt (-n)) else .float (-n.toUInt64.toFloat)
  else .natural n

/-- The rest of a number, after the digits of its integer part. -/
def afterInteger (negative : Bool) (ds : Digits) (cs : List Char) :
    Except Error (Number × List Char) :=
  let read :=
    if startsWithPoint cs then fraction negative ds.significand ds.dropped (cs.drop 1)
    else floatRest negative ds.significand ds.dropped cs
  if ds.dropped = 0 && !startsWithPoint cs && !startsWithExponent cs then
    .ok (integer negative ds.significand, cs)
  else
    match read with
    | .error e => .error e
    | .ok (x, rest) => .ok (.float x, rest)

/-- A number without its sign. -/
def unsignedNumber (negative : Bool) : List Char → Except Error (Number × List Char)
  | [] => .error .valueEnded
  | c :: rest =>
    match digit? c with
    | none => .error .invalidNumber
    | some d =>
      if d = 0 then
        if startsWithDigit rest then .error .invalidNumber
        else afterInteger negative ⟨0, 1, 0⟩ rest
      else
        let (ds, rest) := collect d 1 rest
        afterInteger negative ds rest

/-- A number, whose first character is a minus sign or a digit. -/
def number : Reader Number := fun _ cs =>
  match cs with
  | [] => .error .valueEnded
  | c :: rest => if c = '-' then unsignedNumber true rest else unsignedNumber false (c :: rest)

/-- The text behind its leading digits. -/
def dropDigits (cs : List Char) : List Char := (countDigits 0 cs).2

/-- Skip an exponent, after its mark. -/
def skipExponent (cs : List Char) : Except Error (List Char) :=
  let cs :=
    match cs with
    | [] => []
    | c :: rest => if c = '+' ∨ c = '-' then rest else c :: rest
  if startsWithDigit cs then .ok (dropDigits cs) else .error .invalidNumber

/-- Skip the exponent of a number, if it has one. -/
def skipOptionalExponent (cs : List Char) : Except Error (List Char) :=
  if startsWithExponent cs then skipExponent (cs.drop 1) else .ok cs

/-- Skip a number without its sign.  Its value may be out of range, and a number that the
end of the text cuts short is as bad as any other bad number. -/
def skipUnsigned (cs : List Char) : Except Error (List Char) :=
  match cs with
  | [] => .error .invalidNumber
  | c :: rest =>
    match digit? c with
    | none => .error .invalidNumber
    | some d =>
      if d = 0 && startsWithDigit rest then .error .invalidNumber
      else
        let cs := if d = 0 then rest else dropDigits rest
        if startsWithPoint cs then
          let fraction := cs.drop 1
          if startsWithDigit fraction then skipOptionalExponent (dropDigits fraction)
          else .error .invalidNumber
        else skipOptionalExponent cs

end Json

end TreeWalk
