import TensorGraph.Word

/-!
Reading a decimal numeral as a double. The leading digits that fit a word are rounded to a double,
which is then scaled by a power of ten in one step, or in two for very small values. Further digits
only count as places.
-/
namespace TensorGraph.Decimal

structure Numeral where
  negative : Bool
  whole : List Nat
  fraction : Option (List Nat)
  exponent : Option Int
deriving DecidableEq, Repr

/-- Leading digits as a word, and the power of ten to scale it by. -/
structure Scaled where
  significand : Nat
  exponent : Int

/-- Takes a digit before the point; once one does not fit, each further digit is a place. -/
def Scaled.takeWhole (s : Scaled × Bool) (digit : Nat) : Scaled × Bool :=
  let n := s.1.significand * 10 + digit
  if s.2 || Word.limit ≤ n then (⟨s.1.significand, s.1.exponent + 1⟩, true)
  else (⟨n, s.1.exponent⟩, false)

/-- Takes a digit after the point; once one does not fit, the rest is dropped. -/
def Scaled.takeFraction (s : Scaled × Bool) (digit : Nat) : Scaled × Bool :=
  let n := s.1.significand * 10 + digit
  if s.2 || Word.limit ≤ n then (s.1, true) else (⟨n, s.1.exponent - 1⟩, false)

def Numeral.scaled (n : Numeral) : Scaled :=
  let whole := (n.whole.foldl Scaled.takeWhole (⟨0, 0⟩, false)).1
  let all := ((n.fraction.getD []).foldl Scaled.takeFraction (whole, false)).1
  ⟨all.significand, all.exponent + n.exponent.getD 0⟩

def powerOfTen (n : Nat) : Float :=
  Float.ofScientific 1 false n

/-- The nonnegative double for a scaled word, unless it is too large. Too small a value is zero. -/
def Scaled.toFloat? (s : Scaled) : Option Float :=
  let f := (UInt64.ofNat s.significand).toFloat
  if s.significand = 0 then some f
  else if 308 < s.exponent then none
  else if 0 ≤ s.exponent then
    let g := f * powerOfTen s.exponent.toNat
    if g.isInf then none else some g
  else if -308 ≤ s.exponent then some (f / powerOfTen (-s.exponent).toNat)
  else if -616 ≤ s.exponent then some (f / powerOfTen 308 / powerOfTen (-s.exponent - 308).toNat)
  else some 0

def Numeral.toFloat? (n : Numeral) : Option Float :=
  n.scaled.toFloat?.map fun f => if n.negative then -f else f

/-- The integer that a numeral without fraction and exponent denotes, if it fits a signed or an
unsigned word. Negative zero is no integer. -/
def Numeral.toInt? (n : Numeral) : Option Int :=
  if n.fraction.isSome || n.exponent.isSome then none
  else
    let value : Nat := n.whole.foldl (fun acc digit => acc * 10 + digit) 0
    if n.negative then
      if 0 < value ∧ value ≤ Word.signedLimit then some (-(value : Int)) else none
    else if value < Word.limit then some value else none

end TensorGraph.Decimal
