import TensorGraph.Decimal.Text
import TensorGraph.Error

/-!
Constant tensors. The values fit one buffer, stand in row-major order, whatever the strides of the
shape they were given with, and are already converted to the element type.
-/
namespace TensorGraph

/-- A constant tensor, whose values a buffer holds. -/
@[ext] structure Literal where
  shape : Shape
  data : Array Float
  size_le : data.size ≤ Word.capacity
deriving DecidableEq, Repr

namespace Literal

instance : BEq Literal where
  beq a b := a.shape == b.shape && a.data == b.data

/-- The literal with these values. A single value fills every element. -/
def ofData (shape : Shape) (data : Array Float) : Except Failure Literal := do
  let count ← shape.elements
  if data.size ≠ count ∧ data.size ≠ 1 then
    refuse (.invalidRecord (.valueCount data.size shape))
  else if room : count ≤ Word.capacity then
    let values : Vector Float count :=
      if all : data.size = count then ⟨data, all⟩ else .replicate count (data.getD 0 0)
    let converted := values.map shape.elementType.cast
    return {
      shape := shape.asStandard
      data := converted.toArray
      size_le := converted.size_toArray.symm ▸ room }
  else throw (.broken .capacity)

/-- The literal with these values, whose number has to be right. -/
def ofComputed (shape : Shape) (data : Array Float) : Except Fault Literal :=
  match ofData shape data with
  | .ok l => .ok l
  | .error (.broken f) => .error f
  | .error (.refused _) =>
    .error (.literalSize data.size shape.text)

/-- A literal of one element; a tuple has none. -/
def scalar (t : ElementType) (x : Float) : Literal :=
  { shape := Shape.scalar t
    data := if t = .tuple then #[] else #[t.cast x]
    size_le := by split <;> exact Nat.le_of_ble_eq_true rfl }

/-- Every element is the value, up to the tolerance of `Scalar.approxEqual`. -/
def allEqual (l : Literal) (x : Float) : Bool :=
  !l.data.isEmpty && l.data.all fun v => Scalar.approxEqual v x

def scalar? (l : Literal) : Option Float :=
  match l.data.toList with
  | [x] => some x
  | _ => none

def shownValues : Nat := 8

def text (l : Literal) : String :=
  let shown := (l.data.toList.take shownValues).map Decimal.display
  let count := l.data.size
  let more := if shownValues < count then s!", ... ({count} values)" else ""
  braced (String.intercalate ", " shown ++ more)

end Literal
end TensorGraph
