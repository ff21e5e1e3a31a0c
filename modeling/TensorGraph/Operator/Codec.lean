import TensorGraph.Literal.Codec
import TensorGraph.Operator.Basic

/-!
Operators as records: the name, and the attributes of the operators that have some. The attributes
may be written before the name; they are then set aside until the name is known.
-/
namespace TensorGraph

def PadMode.toJson (m : PadMode) : Json :=
  .text m.name

def PadMode.decode (r : Reading) : Json → Decode PadMode :=
  Decode.name r fun s => PadMode.all.find? fun m => m.name == s

namespace Operator

def nats (ns : List Nat) : Json :=
  .ofList .ofNat ns

def attributesJson? : Operator → Option Json
  | literal value => some value.toJson
  | parameter name shape => some (.record [("name", .text name), ("shape", shape.toJson)])
  | allocate shape => some (.record [("shape", shape.toJson)])
  | convert target => some (.record [("target_type", target.toJson)])
  | transpose permutation => some (.record [("permutation", nats permutation)])
  | reshape dims => some (.record [("dims", .ofList .integer dims)])
  | broadcast axis outLens => some (.record [("axis", .ofNat axis), ("out_lens", nats outLens)])
  | multibroadcast outLens => some (.record [("out_lens", nats outLens)])
  | pad pads mode value =>
    some (.record [("pads", nats pads), ("mode", mode.toJson), ("value", .ofFloat value)])
  | convolution w =>
    some (.record [("padding", nats w.padding), ("stride", nats w.stride),
      ("dilation", nats w.dilation), ("group", .ofNat w.group)])
  | reduceMean axes => some (.record [("axes", nats axes)])
  | layernorm epsilon => some (.record [("epsilon", .ofFloat epsilon)])
  | loop maxIterations => some (.record [("max_iterations", .ofNat maxIterations)])
  | getTupleElem index => some (.record [("index", .ofNat index)])
  | _ => none

def toJson (op : Operator) : Json :=
  match op.attributesJson? with
  | some attributes => .record [("operator", .text op.name), ("attributes", attributes)]
  | none => .record [("operator", .text op.name)]

structure Draft where
  name : Option String := none
  shape : Option Shape := none
  target : Option ElementType := none
  permutation : Option (List Nat) := none
  dims : Option (List Int) := none
  axis : Option Nat := none
  outLens : Option (List Nat) := none
  pads : Option (List Nat) := none
  mode : Option PadMode := none
  value : Option Float := none
  padding : Option (List Nat) := none
  stride : Option (List Nat) := none
  dilation : Option (List Nat) := none
  group : Option Nat := none
  axes : Option (List Nat) := none
  epsilon : Option Float := none
  maxIterations : Option Nat := none
  index : Option Nat := none

def Draft.take (r : Reading) (d : Draft) : String × Json → Decode Draft
  | ("name", v) => do return { d with name := ← Decode.once d.name Decode.text v }
  | ("shape", v) => do return { d with shape := ← Decode.once d.shape (Shape.decode r) v }
  | ("target_type", v) => do
    return { d with target := ← Decode.once d.target (ElementType.decode r) v }
  | ("permutation", v) => do return { d with permutation := ← words d.permutation v }
  | ("dims", v) => do
    return { d with dims := ← Decode.once d.dims (Decode.list Decode.signedWord) v }
  | ("axis", v) => do return { d with axis := ← Decode.once d.axis Decode.word v }
  | ("out_lens", v) => do return { d with outLens := ← words d.outLens v }
  | ("pads", v) => do return { d with pads := ← words d.pads v }
  | ("mode", v) => do return { d with mode := ← Decode.once d.mode (PadMode.decode r) v }
  | ("value", v) => do return { d with value := ← Decode.once d.value Decode.float v }
  | ("padding", v) => do return { d with padding := ← words d.padding v }
  | ("stride", v) => do return { d with stride := ← words d.stride v }
  | ("dilation", v) => do return { d with dilation := ← words d.dilation v }
  | ("group", v) => do return { d with group := ← Decode.once d.group Decode.word v }
  | ("axes", v) => do return { d with axes := ← words d.axes v }
  | ("epsilon", v) => do return { d with epsilon := ← Decode.once d.epsilon Decode.float v }
  | ("max_iterations", v) => do
    return { d with maxIterations := ← Decode.once d.maxIterations Decode.word v }
  | ("index", v) => do return { d with index := ← Decode.once d.index Decode.word v }
  | (_, v) => do Decode.unknown v; return d
where
  words (before : Option (List Nat)) (v : Json) : Decode (Option (List Nat)) :=
    Decode.once before (Decode.list Decode.word) v

/-- Reads the attributes of the given names, which form a record and never a list. -/
def attributes (r : Reading) (names : List String) (v : Option Json) : Decode Draft := do
  let take (d : Draft) (f : String × Json) : Decode Draft :=
    if names.contains f.1 then d.take r f
    else do Decode.unknown f.2; return d
  match ← Decode.required v with
  | .record fields => fields.foldlM take {}
  | _ => Decode.malformed

def withoutAttributes (op : Operator) : Option Json → Decode Operator
  | none | some .null => .ok op
  | some _ => Decode.malformed

def plain : List Operator :=
  [output, identity, undefined, contiguous, clip, dot, quantizeLinear, dequantizeLinear, branch] ++
    Unary.all.map unary ++ Binary.all.map binary

def ofParts (r : Reading) (name : String) (v : Option Json) : Decode Operator := do
  match name with
  | "@literal" => return literal (← Literal.decode r (← Decode.required v))
  | "@param" =>
    let d ← attributes r ["name", "shape"] v
    return parameter (← Decode.required d.name) (← Decode.required d.shape)
  | "allocate" =>
    let d ← attributes r ["shape"] v
    return allocate (← Decode.required d.shape)
  | "convert" =>
    let d ← attributes r ["target_type"] v
    return convert (← Decode.required d.target)
  | "transpose" =>
    let d ← attributes r ["permutation"] v
    return transpose (← Decode.required d.permutation)
  | "reshape" =>
    let d ← attributes r ["dims"] v
    return reshape (← Decode.required d.dims)
  | "broadcast" =>
    let d ← attributes r ["axis", "out_lens"] v
    return broadcast (← Decode.required d.axis) (← Decode.required d.outLens)
  | "multibroadcast" =>
    let d ← attributes r ["out_lens"] v
    return multibroadcast (← Decode.required d.outLens)
  | "pad" =>
    let d ← attributes r ["pads", "mode", "value"] v
    return pad (← Decode.required d.pads) (d.mode.getD .constant) (d.value.getD 0)
  | "convolution" =>
    let d ← attributes r ["padding", "stride", "dilation", "group"] v
    return convolution {
      padding := ← Decode.required d.padding
      stride := ← Decode.required d.stride
      dilation := ← Decode.required d.dilation
      group := ← Decode.required d.group }
  | "reduce_mean" =>
    let d ← attributes r ["axes"] v
    return reduceMean (← Decode.required d.axes)
  | "layernorm" =>
    let d ← attributes r ["epsilon"] v
    return layernorm (← Decode.required d.epsilon)
  | "loop" =>
    let d ← attributes r ["max_iterations"] v
    return loop (← Decode.required d.maxIterations)
  | "get_tuple_elem" =>
    let d ← attributes r ["index"] v
    return getTupleElem (← Decode.required d.index)
  | _ =>
    match plain.find? fun op => op.name == name with
    | some op => withoutAttributes op v
    | none => Decode.malformed

inductive Part where
  | name
  | attributes

/-- The next part among the fields, and the fields after it. -/
def nextPart? : List (String × Json) → Decode (Option (Part × Json × List (String × Json)))
  | [] => .ok none
  | (field, v) :: rest =>
    if field = "operator" then .ok (some (.name, v, rest))
    else if field = "attributes" then .ok (some (.attributes, v, rest))
    else do Decode.unknown v; nextPart? rest

def finish (op : Operator) (rest : List (String × Json)) : Decode Operator := do
  match ← nextPart? rest with
  | none => return op
  | some _ => Decode.malformed

def ofFields (fields : List (String × Json)) : Decode Operator := do
  let tag := Decode.name .direct some
  match ← nextPart? fields with
  | some (.name, v, rest) =>
    let name ← tag v
    match ← nextPart? rest with
    | some (.attributes, content, rest) => finish (← ofParts .direct name (some content)) rest
    | some (.name, _) => Decode.malformed
    | none => ofParts .direct name none
  | some (.attributes, content, rest) =>
    if content.isReadable then
      match ← nextPart? rest with
      | some (.name, v, rest) => finish (← ofParts .deferred (← tag v) (some content)) rest
      | _ => Decode.malformed
    else Decode.malformed
  | none => Decode.malformed

/-- An operator as a record, or as the list of its name and its attributes. -/
def decode : Json → Decode Operator
  | .record fields => ofFields fields
  | .list (name :: content :: rest) => do
    let op ← ofParts .direct (← Decode.text name) (some content)
    if rest.isEmpty then return op else Decode.malformed
  | _ => Decode.malformed

end Operator
end TensorGraph
