import TensorGraph.Decimal.Shortest

/-!
How a double is written: positionally in listings, and with a bounded number of places in records.
Both use the shortest digits that read back.
-/
namespace TensorGraph.Decimal

def zeros (n : Nat) : String :=
  String.ofList (List.replicate n '0')

/-- The digits of a decimal and the place of its point: `0.d₁d₂… * 10 ^ point`. -/
def layout (d : Decimal) : List Char × Int :=
  let ds := Nat.toDigits 10 d.digits
  (ds, ds.length + d.exponent)

/-- Positional notation, where `whole` follows a number without fraction. -/
def positional (whole : String) (d : Decimal) : String :=
  let (ds, point) := d.layout
  if point ≤ 0 then "0." ++ zeros (-point).toNat ++ String.ofList ds
  else
    let n := point.toNat
    if ds.length ≤ n then String.ofList ds ++ zeros (n - ds.length) ++ whole
    else String.ofList (ds.take n) ++ "." ++ String.ofList (ds.drop n)

def scientific (d : Decimal) : String :=
  let (ds, point) := d.layout
  let exponent := point - 1
  let mantissa := match ds with
    | c :: [] => String.ofList [c]
    | c :: rest => String.ofList [c, '.'] ++ String.ofList rest
    | [] => "0"
  let sign := if exponent < 0 then "-" else "+"
  mantissa ++ "e" ++ sign ++ toString exponent.natAbs

/-- A value as listings show it: never with an exponent, and without fraction when whole. -/
def display (x : Float) : String :=
  let bits := Scalar.magnitude x
  if Scalar.infinityBits < bits then "NaN"
  else
    let sign := if Scalar.isNegative x then "-" else ""
    if bits = Scalar.infinityBits then sign ++ "inf"
    else if bits = 0 then sign ++ "0"
    else sign ++ positional "" (shortest .up bits)

/-- A finite value as records show it: positional from `1e-5` up to `1e16`, with an exponent
elsewhere, and never looking like an integer. -/
def recordText (x : Float) : String :=
  let bits := Scalar.magnitude x
  let sign := if Scalar.isNegative x then "-" else ""
  if bits = 0 then sign ++ "0.0"
  else
    let d := shortest .even bits
    let point := d.layout.2
    if -5 < point ∧ point ≤ 16 then sign ++ positional ".0" d else sign ++ scientific d

end TensorGraph.Decimal
