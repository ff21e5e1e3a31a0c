import TensorGraph.Json.Decode

/-!
Shapes as records. Reading checks that the parts belong together and that the size fits a word, so
every shape that was read is addressable and has a stride for each length.
-/
namespace TensorGraph

def ElementType.toJson (t : ElementType) : Json :=
  .text t.tag

def ElementType.decode (r : Reading) : Json → Decode ElementType :=
  Decode.name r ElementType.ofTag?

namespace DynamicDimension

def toJson (d : DynamicDimension) : Json :=
  .record [("min", .ofNat d.min), ("max", .ofNat d.max), ("optimals", .ofList .ofNat d.optimals)]

structure Draft where
  min : Option Nat := none
  max : Option Nat := none
  optimals : Option (List Nat) := none

def Draft.take (d : Draft) : String × Json → Decode Draft
  | ("min", v) => do return { d with min := ← Decode.once d.min Decode.word v }
  | ("max", v) => do return { d with max := ← Decode.once d.max Decode.word v }
  | ("optimals", v) => do
    return { d with optimals := ← Decode.once d.optimals (Decode.list Decode.word) v }
  | (_, v) => do Decode.unknown v; return d

def decode (v : Json) : Decode DynamicDimension := do
  let d ← Decode.fields ["min", "max", "optimals"] Draft.take {} v
  return { min := ← Decode.required d.min, max := ← Decode.required d.max
           optimals := d.optimals.getD [] }

end DynamicDimension

namespace Shape

mutual

/-- Axes and sub-shapes are written only where there are any. -/
def toJson : Shape → Json
  | ⟨t, lens, strides, dims, subs⟩ =>
    .record (
      [("ty", t.toJson), ("lens", .ofList .ofNat lens), ("strides", .ofList .ofNat strides)] ++
      (if dims.isEmpty then [] else [("dyn_dims", .ofList DynamicDimension.toJson dims)]) ++
      (match subs with
        | [] => []
        | s :: rest => [("sub_shapes", .list (s.toJson :: toJsonList rest))]))

def toJsonList : List Shape → List Json
  | [] => []
  | s :: rest => s.toJson :: toJsonList rest

end

/-- The checks on a shape that was read, in order. -/
def check (s : Shape) : Except Failure Shape :=
  let flawed (flaw : RecordFlaw) : Except Failure Shape := refuse (.invalidRecord flaw)
  if s.lens.length ≠ s.strides.length then flawed (.strideCount s.lens.length s.strides.length)
  else if (s.isTuple || s.isDynamic) && !s.lens.isEmpty then flawed .unexpectedLens
  else if !s.subShapes.isEmpty && !s.isTuple then flawed (.unexpectedSubShapes s.elementType)
  else if s.isTuple && s.isDynamic then flawed .unexpectedDynamicDims
  else match s.dynamicDims.find? fun d => d.max < d.min with
    | some d => flawed (.emptyRange d)
    | none => if s.addressable then .ok s else flawed (.shapeTooLarge s)

structure Draft where
  elementType : Option ElementType := none
  lens : Option (List Nat) := none
  strides : Option (List Nat) := none
  dynamicDims : Option (List DynamicDimension) := none
  subShapes : Option (List Shape) := none

def Draft.complete (d : Draft) : Decode Shape := do
  Decode.checked (check {
    elementType := ← Decode.required d.elementType
    lens := d.lens.getD []
    strides := d.strides.getD []
    dynamicDims := d.dynamicDims.getD []
    subShapes := d.subShapes.getD [] })

def fieldNames : List String :=
  ["ty", "lens", "strides", "dyn_dims", "sub_shapes"]

mutual

def decode (r : Reading) : Json → Decode Shape
  | .record fields => do (← takeFields r {} fields).complete
  | .list items => do (← takeItems r {} fieldNames items).complete
  | _ => Decode.malformed

def takeField (r : Reading) (d : Draft) : String → Json → Decode Draft
  | "ty", v => do
    return { d with elementType := ← Decode.once d.elementType (ElementType.decode r) v }
  | "lens", v => do return { d with lens := ← Decode.once d.lens (Decode.list Decode.word) v }
  | "strides", v => do
    return { d with strides := ← Decode.once d.strides (Decode.list Decode.word) v }
  | "dyn_dims", v => do
    let dims ← Decode.once d.dynamicDims (Decode.list DynamicDimension.decode) v
    return { d with dynamicDims := dims }
  | "sub_shapes", .list items =>
    match d.subShapes with
    | some _ => Decode.malformed
    | none => do return { d with subShapes := some (← decodeList r items) }
  | "sub_shapes", _ => Decode.malformed
  | _, v => do Decode.unknown v; return d

def takeFields (r : Reading) (d : Draft) : List (String × Json) → Decode Draft
  | [] => .ok d
  | (name, v) :: rest => do takeFields r (← takeField r d name v) rest

def takeItems (r : Reading) (d : Draft) : List String → List Json → Decode Draft
  | _, [] => .ok d
  | [], _ :: _ => Decode.malformed
  | name :: names, v :: rest => do takeItems r (← takeField r d name v) names rest

def decodeList (r : Reading) : List Json → Decode (List Shape)
  | [] => .ok []
  | v :: rest => do return (← decode r v) :: (← decodeList r rest)

end

end Shape
end TensorGraph
