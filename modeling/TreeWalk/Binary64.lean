/-!
# Doubles as integers

A finite double is a sign and a natural number times a power of two.  `Parts` is
that reading, taken from the 64 bits: eleven bits of exponent, fifty-two of
fraction, and a leading one that is written down nowhere.

The operations that must be exact in every digit are done here on natural
numbers: which integer a whole double is, and the remainder of a division.
Rounding does not occur in either, so nothing here depends on a rounding mode.

## Literals

The doubles that are no number are all one `Float`, although their bits differ.  A program
keeps its literals bit for bit, so a literal is a `FloatBits`, and `FloatBits.value` is the
double that it stands for.
-/

namespace TreeWalk

/-- A finite double, read as `(-1)^negative * mantissa * 2^exponent`. -/
structure Parts where
  /-- Whether the sign bit is set. -/
  negative : Bool
  /-- The significand, as a natural number below `2^53`. -/
  mantissa : Nat
  /-- The power of two that the significand is multiplied by. -/
  exponent : Int
  deriving DecidableEq, Repr

/-- A double that is written down: its 64 bits. -/
structure FloatBits where
  /-- The bits, sign first. -/
  word : UInt64
  deriving DecidableEq, Repr

namespace FloatBits

/-- The bits of a double. -/
def ofFloat (x : Float) : FloatBits := ⟨x.toBits⟩

instance : Coe Float FloatBits := ⟨ofFloat⟩

/-- The double that the bits are read as. -/
def value (b : FloatBits) : Float := Float.ofBits b.word

end FloatBits

namespace Binary64

/-- The bits of a double. -/
def bits (x : Float) : Nat := x.toBits.toNat

/-- The sign bit of a double. -/
def signBit (x : Float) : Bool := bits x / Nat.pow 2 63 == 1

/-- The eleven bits of the exponent, which count from `1` for the smallest normal
double and from `0` for the doubles below it. -/
def biased (x : Float) : Nat := bits x / Nat.pow 2 52 % Nat.pow 2 11

/-- The fifty-two bits of the fraction. -/
def fraction (x : Float) : Nat := bits x % Nat.pow 2 52

/-- The largest exponent field belongs to the infinities and to what is no number. -/
def isFinite (x : Float) : Bool := biased x != 2047

/-- The reading of a finite double as an integer times a power of two. -/
def parts (x : Float) : Parts where
  negative := signBit x
  mantissa := if biased x = 0 then fraction x else Nat.pow 2 52 + fraction x
  exponent := if biased x = 0 then -1074 else (biased x : Int) - 1075

/-- The double `(-1)^negative * n * 2^e` for `n` below `2^53` and `e` not below
`-1074`, which is exact as long as the exponent field does not run over. -/
def ofExact (negative : Bool) (n : Nat) (e : Int) : Float :=
  let shift := min (52 - n.log2) (e + 1074).toNat
  let m := n <<< shift
  let field :=
    if m < Nat.pow 2 52 then m
    else (e - shift + 1075).toNat * Nat.pow 2 52 + (m - Nat.pow 2 52)
  Float.ofBits (UInt64.ofNat (field + if negative then Nat.pow 2 63 else 0))

/-- The integer that a whole double is, without its sign, and nothing for a double
with a fractional part. -/
def whole? (p : Parts) : Option Nat :=
  if 0 ≤ p.exponent then
    some (p.mantissa * Nat.pow 2 p.exponent.toNat)
  else if p.mantissa % Nat.pow 2 (-p.exponent).toNat = 0 then
    some (p.mantissa / Nat.pow 2 (-p.exponent).toNat)
  else
    none

/-- A double that is no number. -/
def notANumber : Float := 0.0 / 0.0

/-- The remainder of the division of `a` by `b` whose quotient is cut off at zero.
It has the sign of `a` and is computed exactly: both operands are multiples of the
smaller of their two powers of two, and so is the remainder. -/
def remainder (a b : Float) : Float :=
  if !isFinite a || b.isNaN || b == 0 then
    notANumber
  else if !isFinite b then
    a
  else
    let p := parts a
    let q := parts b
    let e := min p.exponent q.exponent
    let n := p.mantissa * Nat.pow 2 (p.exponent - e).toNat
    let d := q.mantissa * Nat.pow 2 (q.exponent - e).toNat
    ofExact p.negative (n % d) e

/-- The double nearest to an integer. -/
def ofInt64 (n : Int64) : Float :=
  let magnitude := n.toInt.natAbs.toUInt64.toFloat
  if n < 0 then -magnitude else magnitude

end Binary64

end TreeWalk
