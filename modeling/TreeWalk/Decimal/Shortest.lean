import TreeWalk.Binary64

/-!
# The shortest decimal of a double

A double stands for every real number that rounds to it, an interval around the
double's own value.  Writing the double with few digits means to choose, among the
decimals in that interval, one with the fewest digits, and among those the nearest
to the value.

## The interval

For a value `m * 2^q` the neighbours are one unit of `2^q` away, except below a
power of two, where the lower neighbour is half as far.  The interval ends halfway
to the neighbours, so in units of `2^(q-2)` it reaches from `4m - 2`, or `4m - 1`,
to `4m + 2`.  The ends round to the even significand: they belong to the interval
exactly when `m` is even.

## The search

A grid is the set of multiples of one power of ten.  On each grid only the two
multiples around the value matter, because if any multiple lies in the interval then
one of these two does.  The search goes from the grid with one digit to the grid
with seventeen and stops at the first with a multiple inside.  Seventeen digits
always suffice for a double; should a grid be missing all the same, the exact
decimal of the value is the answer, and it lies in the interval too.

All comparisons are between natural numbers.
-/

namespace TreeWalk

/-- A positive decimal number, `digits * 10^exponent`. -/
structure Decimal where
  /-- The digits, read as one natural number. -/
  digits : Nat
  /-- The power of ten of the last digit. -/
  exponent : Int
  deriving DecidableEq, Repr

/-- Which of two decimals is taken when the value lies exactly between them. -/
inductive Tie where
  /-- The larger one. -/
  | up
  /-- The one whose last digit is even. -/
  | even
  deriving DecidableEq, Repr

namespace Decimal

/-- The reals that round to a double, between two multiples of `2^scale`. -/
structure Interval where
  /-- The lower end. -/
  low : Nat
  /-- The value itself. -/
  value : Nat
  /-- The upper end. -/
  high : Nat
  /-- The unit is `2^scale`. -/
  scale : Int
  /-- Whether the two ends belong to the interval. -/
  closed : Bool
  deriving DecidableEq, Repr

/-- The interval of the doubles around `m * 2^q`. -/
def Interval.ofParts (p : Parts) : Interval where
  low := if p.mantissa = Nat.pow 2 52 ∧ -1074 < p.exponent then 4 * p.mantissa - 1 else 4 * p.mantissa - 2
  value := 4 * p.mantissa
  high := 4 * p.mantissa + 2
  scale := p.exponent - 2
  closed := p.mantissa % 2 = 0

/-- An interval measured against a grid of decimals: everything is a natural number, and
the multiples of `unit` are the decimals of the grid. -/
structure Ruler where
  /-- The lower end. -/
  low : Nat
  /-- The value itself. -/
  value : Nat
  /-- The upper end. -/
  high : Nat
  /-- The distance of two decimals of the grid. -/
  unit : Nat
  /-- Whether the two ends belong to the interval. -/
  closed : Bool
  deriving DecidableEq, Repr

/-- Put an interval, which is given in multiples of `2^scale`, and the multiples of
`10^grid` over one denominator. -/
def Interval.ruler (i : Interval) (grid : Int) : Ruler :=
  let up := Nat.pow 2 i.scale.toNat * Nat.pow 10 (-grid).toNat
  let down := Nat.pow 2 (-i.scale).toNat * Nat.pow 10 grid.toNat
  ⟨i.low * up, i.value * up, i.high * up, down, i.closed⟩

/-- Whether the decimal with the given digits lies in the interval. -/
def Ruler.holds (r : Ruler) (n : Nat) : Bool :=
  if r.closed then r.low ≤ n * r.unit && n * r.unit ≤ r.high
  else r.low < n * r.unit && n * r.unit < r.high

/-- The digits of the largest decimal of the grid that does not exceed the value. -/
def Ruler.below (r : Ruler) : Nat := r.value / r.unit

/-- Whether of the two decimals `n` and `n + 1` around the value the upper one is taken: it
is nearer, or it is as near and the tie is its. -/
def Ruler.roundsUp (r : Ruler) (tie : Tie) (n : Nat) : Bool :=
  let middle := (2 * n + 1) * r.unit
  middle < 2 * r.value || (middle == 2 * r.value && (tie == .up || n % 2 == 1))

/-- The decimal of the grid that lies in the interval and is nearest to the value. -/
def Ruler.nearest? (r : Ruler) (tie : Tie) : Option Nat :=
  let n := r.below
  match r.holds n, r.holds (n + 1) with
  | true, true => some (if r.roundsUp tie n then n + 1 else n)
  | true, false => some n
  | false, true => some (n + 1)
  | false, false => none

/-- The power of ten of the leading digit of a positive natural number. -/
def leading (n : Nat) : Nat := (Nat.toDigits 10 n).length - 1

/-- The power of ten of the leading digit of the value. -/
def Interval.leading (i : Interval) : Int :=
  if 0 ≤ i.scale then
    Decimal.leading (i.value * Nat.pow 2 i.scale.toNat)
  else
    let d := Nat.pow 2 (-i.scale).toNat
    if d ≤ i.value then Decimal.leading (i.value / d)
    else -(Decimal.leading ((d - 1) / i.value) + 1)

/-- The grids from one digit to seventeen, the coarsest first. -/
def Interval.grids (i : Interval) : List Int :=
  (List.range 17).map fun (k : Nat) => i.leading - (k : Int)

/-- A value with a power of two below one, written with as many digits after the
point as the power has bits. -/
def exact (i : Interval) : Decimal :=
  if 0 ≤ i.scale then ⟨i.value * Nat.pow 2 i.scale.toNat, 0⟩
  else ⟨i.value * Nat.pow 5 (-i.scale).toNat, i.scale⟩

/-- Remove zeros from the end of the digits, at most `fuel` of them. -/
def trim : Nat → Decimal → Decimal
  | 0, d => d
  | fuel + 1, d => if d.digits % 10 = 0 then trim fuel ⟨d.digits / 10, d.exponent + 1⟩ else d

/-- The first grid with a multiple in the interval, and that multiple. -/
def Interval.search (i : Interval) (tie : Tie) : List Int → Decimal
  | [] => exact i
  | grid :: rest =>
    match (i.ruler grid).nearest? tie with
    | some n => ⟨n, grid⟩
    | none => i.search tie rest

/-- The shortest decimal that rounds to a positive finite double, the nearest one of
them, without trailing zeros. -/
def shortest (tie : Tie) (p : Parts) : Decimal :=
  let i := Interval.ofParts p
  trim 18 (i.search tie i.grids)

end Decimal

end TreeWalk
