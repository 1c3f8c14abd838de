import TreeWalk.Decimal.Shortest

/-!
# Writing doubles

Doubles are written in three places: as the text of a value, in a listing of the
nodes of a program, and in the complaint about a number where another kind of thing
was expected.  The places differ in their decisions and in nothing else, so a
`Style` is the record of the decisions and `Style.write` is the one writer.
-/

namespace TreeWalk

namespace Decimal

/-- The digits of a natural number, most significant first. -/
def digitChars (n : Nat) : List Char := Nat.toDigits 10 n

/-- A row of zeros. -/
def zeros (n : Nat) : List Char := List.replicate n '0'

/-- A decimal written without an exponent.  A decimal with no digit after the point
has no point either. -/
def positional (d : Decimal) : List Char :=
  let ds := digitChars d.digits
  let point : Int := ds.length + d.exponent
  if 0 ≤ d.exponent then ds ++ zeros d.exponent.toNat
  else if 0 < point then ds.take point.toNat ++ '.' :: ds.drop point.toNat
  else '0' :: '.' :: zeros (-point).toNat ++ ds

/-- A decimal written as one digit, the other digits after a point, and the power of
ten with its sign. -/
def scientific (d : Decimal) : List Char :=
  let ds := digitChars d.digits
  let power : Int := ds.length - 1 + d.exponent
  let fraction := if ds.length ≤ 1 then [] else '.' :: ds.drop 1
  ds.take 1 ++ fraction ++ 'e' :: (if power < 0 then '-' else '+') :: digitChars power.natAbs

/-- The power of ten of the first digit. -/
def power (d : Decimal) : Int := (digitChars d.digits).length - 1 + d.exponent

end Decimal

/-- The decisions in writing a double. -/
structure Style where
  /-- Which of two equally near shortest decimals is written. -/
  tie : Tie
  /-- Whether a whole number shows every digit of its exact value. -/
  wholeExact : Bool
  /-- Whether a whole number ends in `.0`. -/
  pointZero : Bool
  /-- The powers of ten of the first digit that are written without an exponent, all of
  them if there is no range. -/
  positional : Option (Int × Int)
  /-- The text of a double that is no number. -/
  notANumber : String
  /-- The text of the positive infinity. -/
  infinity : String
  deriving DecidableEq, Repr

namespace Style

/-- Whether a decimal is written without an exponent. -/
def isPositional (s : Style) (d : Decimal) : Bool :=
  match s.positional with
  | none => true
  | some (first, last) => first ≤ d.power && d.power ≤ last

/-- The decimal that is written for a positive finite double. -/
def decimal (s : Style) (p : Parts) : Decimal :=
  match s.wholeExact, Binary64.whole? p with
  | true, some n => ⟨n, 0⟩
  | _, _ => Decimal.shortest s.tie p

/-- A finite double without its sign. -/
def magnitude (s : Style) (p : Parts) : List Char :=
  let d := if p.mantissa = 0 then ⟨0, 0⟩ else s.decimal p
  if s.isPositional d then
    d.positional ++ (if s.pointZero && 0 ≤ d.exponent then ['.', '0'] else [])
  else
    d.scientific

/-- A double in a given style.  A minus sign stands before every double whose sign bit
is set, zero and infinity included. -/
def write (s : Style) (x : Float) : String :=
  if x.isNaN then s.notANumber
  else
    let sign := if Binary64.signBit x then ['-'] else []
    let body := if Binary64.isFinite x then s.magnitude (Binary64.parts x) else s.infinity.toList
    String.ofList (sign ++ body)

end Style

end TreeWalk
