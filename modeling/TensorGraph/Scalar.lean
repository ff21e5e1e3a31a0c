/-!
Element values are doubles, and conversions between element types are roundings of them. Each
rounding here works on the magnitude bits (exponent field and fraction): these grow with the value,
so a value is rounded to a multiple of a power of two by rounding its significand as a natural
number, and a carry moves into the exponent by itself.
-/
namespace TensorGraph.Scalar

/-- The quotient rounded to the nearest natural number, a half going to the even one. -/
def divNearest (n d : Nat) : Nat :=
  let q := n / d
  let r := n % d
  if d < 2 * r ∨ (d = 2 * r ∧ q % 2 = 1) then q + 1 else q

/-- The number of doubles from one power of two up to the next. -/
def binade : Nat := Nat.pow 2 52

def signBit : Nat := Nat.pow 2 63

/-- The magnitude bits of infinity; larger ones are not numbers. -/
def infinityBits : Nat := 2047 * binade

def isNegative (x : Float) : Bool :=
  decide (signBit ≤ x.toBits.toNat)

def magnitude (x : Float) : Nat :=
  x.toBits.toNat % signBit

def ofMagnitude (negative : Bool) (bits : Nat) : Float :=
  Float.ofBits (UInt64.ofNat (if negative then bits + signBit else bits))

/-- The significand of a finite magnitude, with the leading bit of a normal number. -/
def significand (bits : Nat) : Nat :=
  if bits < binade then bits else bits % binade + binade

/-- The exponent of the last place: a finite magnitude is `significand * 2 ^ lastPlace`. -/
def lastPlace (bits : Nat) : Int :=
  max (bits / binade : Nat) 1 - 1075

/-- Rounds a finite magnitude to a multiple of `2 ^ place`, using `divide` on the significand. -/
def roundTo (divide : Nat → Nat → Nat) (place : Int) (bits : Nat) : Nat :=
  let drop := (place - lastPlace bits).toNat
  if drop = 0 then bits
  else
    let unit := Nat.pow 2 drop
    let q := divide (significand bits) unit
    if q = 0 then 0 else bits - significand bits + q * unit

/-- Applies a change of magnitude to a finite value and keeps the sign. -/
def onMagnitude (f : Nat → Nat) (x : Float) : Float :=
  let bits := magnitude x
  if bits < infinityBits then ofMagnitude (isNegative x) (f bits) else x

def truncate (x : Float) : Float :=
  onMagnitude (roundTo (· / ·) 0) x

/-- The nearest integer, a half going to the even one. -/
def roundHalfEven (x : Float) : Float :=
  onMagnitude (roundTo divNearest 0) x

/-- The magnitude rounded to 24 significant bits, at least `2 ^ -149` apart, with infinity from
`2 ^ 128` on. -/
def singleBits (bits : Nat) : Nat :=
  let rounded := roundTo divNearest (max (lastPlace bits + 29) (-149)) bits
  if rounded < (1023 + 128) * binade then rounded else infinityBits

def toSingle (x : Float) : Float :=
  onMagnitude singleBits x

/-- The larger of two values, the first of equal ones; a value that is not a number gives way to the
other. -/
def maximum (a b : Float) : Float :=
  if a.isNaN then b else if a < b then b else a

/-- The smaller of two values, the first of equal ones; a value that is not a number gives way to
the other. -/
def minimum (a b : Float) : Float :=
  if a.isNaN then b else if b < a then b else a

def positivePart (x : Float) : Float :=
  if 0 < x then x else 0

def clamp (low high x : Float) : Float :=
  if x < low then low else if high < x then high else x

/-- Equality up to one part in a million of the larger magnitude, or of one. -/
def approxEqual (a b : Float) : Bool :=
  a == b || (a - b).abs ≤ maximum (maximum a.abs b.abs) 1 * 1e-6

/-- A rational approximation of the error function with error below `1.5e-7`. -/
def erf (x : Float) : Float :=
  let t := 1 / (1 + 0.3275911 * x.abs)
  let poly := t * (0.254829592 +
    t * (-0.284496736 + t * (1.421413741 + t * (-1.453152027 + t * 1.061405429))))
  let y := 1 - poly * (-x * x).exp
  if 0 ≤ x then y else -y

def sigmoid (x : Float) : Float :=
  1 / (1 + (-x).exp)

end TensorGraph.Scalar
