import TensorGraph.Literal.Basic
import TensorGraph.Shape.Codec

/-! Literals as records. Reading converts the values to the element type of the shape. -/
namespace TensorGraph.Literal

def toJson (l : Literal) : Json :=
  .record [("shape", l.shape.toJson), ("data", .ofList .ofFloat l.data.toList)]

structure Draft where
  shape : Option Shape := none
  data : Option (List Float) := none

def Draft.take (r : Reading) (d : Draft) : String × Json → Decode Draft
  | ("shape", v) => do return { d with shape := ← Decode.once d.shape (Shape.decode r) v }
  | ("data", v) => do return { d with data := ← Decode.once d.data (Decode.list Decode.float) v }
  | (_, v) => do Decode.unknown v; return d

def decode (r : Reading) (v : Json) : Decode Literal := do
  let d ← Decode.fields ["shape", "data"] (Draft.take r) {} v
  let shape ← Decode.required d.shape
  let data ← Decode.required d.data
  Decode.checked (ofData shape data.toArray)

end TensorGraph.Literal
