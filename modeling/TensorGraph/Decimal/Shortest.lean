import TensorGraph.Scalar

/-!
The shortest decimal that reads back as a given double. All comparisons are between natural
numbers: a finite magnitude is `m * 2 ^ q`, and the decimals that round to it fill an interval whose
ends belong to it exactly when `m` is even. Of the grids of 1, 2, … 17 significant digits, the first
one with a point in that interval is taken, and of two such points the nearer.
-/
namespace TensorGraph

structure Decimal where
  digits : Nat
  exponent : Int
deriving DecidableEq, Repr

namespace Decimal

/-- Which of two equally near decimals is taken. -/
inductive Tie where
  | up
  | even
deriving DecidableEq, Repr

/-- Four times a magnitude and the ends of its rounding interval, in units of `2 ^ unit`. -/
structure Interval where
  low : Nat
  value : Nat
  high : Nat
  closed : Bool
  unit : Int

/-- Below a power of two the neighbours are half as far apart, except among the smallest values. -/
def Interval.ofMagnitude (bits : Nat) : Interval :=
  let m := Scalar.significand bits
  let narrow := bits % Scalar.binade = 0 ∧ 2 * Scalar.binade ≤ bits
  { low := 4 * m - (if narrow then 1 else 2)
    value := 4 * m
    high := 4 * m + 2
    closed := m % 2 = 0
    unit := Scalar.lastPlace bits - 2 }

/-- An interval in units of `unit * 10 ^ place`, as three numerators over one denominator. -/
structure Grid where
  low : Nat
  value : Nat
  high : Nat
  denominator : Nat
  closed : Bool

def Interval.onGrid (i : Interval) (place : Int) : Grid :=
  let factor := Nat.pow 2 i.unit.toNat * Nat.pow 10 (-place).toNat
  { low := i.low * factor
    value := i.value * factor
    high := i.high * factor
    denominator := Nat.pow 2 (-i.unit).toNat * Nat.pow 10 place.toNat
    closed := i.closed }

def Grid.contains (g : Grid) (n : Nat) : Bool :=
  let p := n * g.denominator
  if g.closed then g.low ≤ p && p ≤ g.high else g.low < p && p < g.high

/-- The grid point to take, if the value has a neighbour in the interval. -/
def Grid.pick (tie : Tie) (g : Grid) : Option Nat :=
  let below := g.value / g.denominator
  match g.contains below, g.contains (below + 1) with
  | true, true =>
    let distance := 2 * (g.value % g.denominator)
    match compare distance g.denominator, tie with
    | .lt, _ => some below
    | .gt, _ => some (below + 1)
    | .eq, .up => some (below + 1)
    | .eq, .even => some (below + below % 2)
  | true, false => some below
  | false, true => some (below + 1)
  | false, false => none

/-- The number of digits before the point, which is zero or less for values below one tenth. -/
def Interval.wholeDigits (i : Interval) : Int :=
  let guess := ((i.value.log2 : Int) + i.unit) * 30103 / 100000
  let reaches (place : Int) : Bool :=
    let g := i.onGrid place
    decide (g.denominator ≤ g.value)
  if reaches (guess + 1) then guess + 2 else if reaches guess then guess + 1 else guess

/-- Drops trailing zeros. The fuel bounds the number of digits. -/
def strip : Nat → Decimal → Decimal
  | 0, d => d
  | fuel + 1, d => if d.digits % 10 = 0 then strip fuel ⟨d.digits / 10, d.exponent + 1⟩ else d

/-- The first decimal found among the grids of `count`, `count + 1`, … digits. -/
def Interval.search (i : Interval) (tie : Tie) (whole : Int) : Nat → Nat → Decimal
  | 0, _ => ⟨0, 0⟩
  | fuel + 1, count =>
    let place := whole - count
    match (i.onGrid place).pick tie with
    | some n => strip 20 ⟨n, place⟩
    | none => i.search tie whole fuel (count + 1)

/-- The shortest decimal of a finite magnitude other than zero. -/
def shortest (tie : Tie) (bits : Nat) : Decimal :=
  let i := Interval.ofMagnitude bits
  i.search tie i.wholeDigits 18 1

end Decimal
end TensorGraph
