import TensorGraph.Operator.Basic

/-!
Constant evaluation: the value of an operator on literals, given the output shape that inference
found. Operators that cannot be evaluated ahead of time have no value. Whatever could go wrong with
positions or counts is a fault.
-/
namespace TensorGraph

def Unary.apply : Unary → Float → Float
  | .neg, x => -x
  | .exp, x => x.exp
  | .sqrt, x => x.sqrt
  | .erf, x => Scalar.erf x
  | .tanh, x => x.tanh
  | .sigmoid, x => Scalar.sigmoid x
  | .relu, x => Scalar.positivePart x
  | .nearbyint, x => Scalar.roundHalfEven x
  | .recip, x => 1 / x

def Binary.apply : Binary → Float → Float → Float
  | .add, a, b => a + b
  | .sub, a, b => a - b
  | .mul, a, b => a * b
  | .div, a, b => a / b
  | .pow, a, b => a.pow b
  | .max, a, b => Scalar.maximum a b
  | .min, a, b => Scalar.minimum a b

namespace Operator
namespace Evaluation

/-- The row-major values of a shape, each computed from its index, once there is room for them. -/
def tabulate (out : Shape) (f : List Nat → Except Fault Float) :
    Except Fault (Array Float) := do
  let count ← out.elements
  Word.reserve count
  (Array.range count).mapM fun i => f (out.multiIndex i)

def gather (out : Shape) (data : Array Float) (place : List Nat → Except Fault Nat) :
    Except Fault (Array Float) :=
  tabulate out fun idx => do Fault.inRange data[← place idx]?

def term (idx : List Nat) (i stride : Nat) : Except Fault Nat := do
  Word.mul (← Fault.inRange idx[i]?) stride

def transposePlace (lens permutation idx : List Nat) : Except Fault Nat := do
  let strides := Shape.standardStrides lens
  Word.sum (← permutation.zipIdx.mapM fun (p, i) => do term idx i (← Fault.inRange strides[p]?))

def broadcastPlace (lens : List Nat) (axis : Nat) (idx : List Nat) : Except Fault Nat := do
  let strides := (Shape.standardStrides lens).zipIdx
  Word.sum (← strides.mapM fun (stride, i) => term idx (axis + i) stride)

def multibroadcastPlace (lens : List Nat) (added : Nat) (idx : List Nat) :
    Except Fault Nat := do
  let axes := ((lens.zip (Shape.standardStrides lens)).zipIdx).filter fun ((len, _), _) => len != 1
  Word.sum (← axes.mapM fun ((_, stride), i) => term idx (added + i) stride)

/-- The position on an axis of length `len` that a position outside is reflected to, where the ends
are not repeated. -/
def reflectedPosition (pos len : Int) : Int :=
  if len = 1 then 0
  else
    let period := 2 * (len - 1)
    let p := pos % period
    if p < len then p else period - p

/-- The position on one axis that a padded position reads, or `none` in a constant border. -/
def padPosition (mode : PadMode) (pos len : Int) : Except Fault (Option Int) :=
  match mode with
  | .constant => .ok (if pos < 0 ∨ len ≤ pos then none else some pos)
  | .edge => do
    let last ← Word.signed (len - 1)
    if last < 0 then throw .requirement
    return some (max 0 (min pos last))
  | .reflect => do
    if len ≠ 1 then
      let _ ← Word.signed (2 * (← Word.signed (len - 1)))
    return some (reflectedPosition pos len)

/-- The place that a padded index reads, given the length and stride of each axis. The axes are
taken in order, and the first one in a constant border decides, whatever comes after it. -/
def padPlace (mode : PadMode) :
    List (Nat × Nat) → List Nat → List Nat → Nat → Except Fault (Option Nat)
  | [], _, _, place => .ok (some place)
  | (len, stride) :: axes, i :: idx, first :: pads, place => do
    let pos ← Word.signed (Word.toSigned i - Word.toSigned first)
    match ← padPosition mode pos (Word.toSigned len) with
    | none => return none
    | some p => padPlace mode axes idx pads (← Word.add place (← Word.mul (Word.ofSigned p) stride))
  | _ :: _, _, _, _ => .error .outOfRange

def padValue (input : Literal) (pads : List Nat) (mode : PadMode) (value : Float)
    (idx : List Nat) : Except Fault Float := do
  let lens := input.shape.lens
  match ← padPlace mode (lens.zip (Shape.standardStrides lens)) idx pads 0 with
  | none => return value
  | some place => Fault.inRange input.data[place]?

/-- Each input value is added to the sum at its index, with the reduced axes at zero. -/
def meanSums (input : Literal) (axes strides : List Nat) (sums : Array Float) :
    Except Fault (Array Float) :=
  input.data.toList.zipIdx.foldlM (fun sums (x, i) => do
    let idx ← axes.foldlM (Fault.setAt · · 0) (input.shape.multiIndex i)
    let place ← Word.dot idx strides
    if place < sums.size then return sums.modify place (· + x) else throw .outOfRange) sums

def reduceMeanData (input : Literal) (axes : List Nat) (out : Shape) :
    Except Fault (Array Float) := do
  let count ← out.elements
  Word.reserve count
  let sums ← meanSums input axes (Shape.standardStrides out.lens) (Array.replicate count 0)
  let share := max ((← input.shape.elements) / max count 1) 1
  return sums.map (· / Float.ofNat share)

end Evaluation

open Evaluation

/-- The value of an operator on literals, for the output shape that inference gives. -/
def evaluate (op : Operator) (shape : Shape) (inputs : List Literal) :
    Except Fault (Option Literal) := do
  let out := shape.asStandard
  let input (i : Nat) : Except Fault Literal := Fault.inRange inputs[i]?
  let filled (data : Array Float) : Except Fault (Option Literal) :=
    some <$> Literal.ofComputed out data
  match op with
  | literal value => return some value
  | identity | contiguous | reshape _ | convert _ => filled (← input 0).data
  | unary f => filled ((← input 0).data.map f.apply)
  | binary f =>
    let a ← input 0
    let b ← input 1
    filled (a.data.zipWith f.apply b.data)
  | clip =>
    let x ← input 0
    let low ← input 1
    let high ← input 2
    filled ((x.data.zipWith Scalar.maximum low.data).zipWith Scalar.minimum high.data)
  | transpose permutation =>
    let x ← input 0
    filled (← gather out x.data (transposePlace x.shape.lens permutation))
  | broadcast axis _ =>
    let x ← input 0
    filled (← gather out x.data (broadcastPlace x.shape.lens axis))
  | multibroadcast outLens =>
    let x ← input 0
    let lens := x.shape.lens
    let added ← Word.sub outLens.length lens.length
    filled (← gather out x.data (multibroadcastPlace lens added))
  | pad pads mode value =>
    let x ← input 0
    filled (← tabulate out (padValue x pads mode value))
  | reduceMean axes =>
    let x ← input 0
    filled (← reduceMeanData x axes out)
  | _ => return none

end Operator
end TensorGraph
