import TensorGraph.Literal.Basic

/-!
Operators: what an instruction computes, with its attributes. Two operators are the same when they
have the same name and attributes, where numbers are compared as numbers: `==` identifies the two
zeros and tells a value that is not a number from itself.
-/
namespace TensorGraph

inductive Unary where
  | neg
  | exp
  | sqrt
  | erf
  | tanh
  | sigmoid
  | relu
  | nearbyint
  | recip
deriving DecidableEq, Repr

/-- Functions of two elements at the same index. -/
inductive Binary where
  | add
  | sub
  | mul
  | div
  | pow
  | max
  | min
deriving DecidableEq, Repr

inductive PadMode where
  | constant
  | reflect
  | edge
deriving DecidableEq, Repr

/-- The window of a convolution. `padding` lists the begin paddings of the spatial axes and then the
end paddings, or one list for both. -/
structure Window where
  padding : List Nat
  stride : List Nat
  dilation : List Nat
  group : Nat
deriving DecidableEq, Repr

inductive Operator where
  | literal (value : Literal)
  | parameter (name : String) (shape : Shape)
  | output
  | identity
  | undefined
  | allocate (shape : Shape)
  | contiguous
  | convert (target : ElementType)
  | unary (f : Unary)
  | binary (f : Binary)
  /-- The first input moved between the second and the third. -/
  | clip
  | transpose (permutation : List Nat)
  /-- `0` keeps the length of an axis, `-1` is inferred. -/
  | reshape (dims : List Int)
  /-- A view that places the input at `axis` among axes of stride zero. -/
  | broadcast (axis : Nat) (outLens : List Nat)
  /-- A view that aligns the last axes and repeats unit axes. -/
  | multibroadcast (outLens : List Nat)
  /-- All begin paddings, then all end paddings. -/
  | pad (pads : List Nat) (mode : PadMode) (value : Float)
  | convolution (window : Window)
  | dot
  | reduceMean (axes : List Nat)
  /-- Normalization over the last axis. -/
  | layernorm (epsilon : Float)
  | quantizeLinear
  | dequantizeLinear
  | branch
  | loop (maxIterations : Nat)
  | getTupleElem (index : Nat)
deriving BEq, DecidableEq, Repr

def Unary.all : List Unary :=
  [.neg, .exp, .sqrt, .erf, .tanh, .sigmoid, .relu, .nearbyint, .recip]

def Unary.name : Unary → String
  | .neg => "neg"
  | .exp => "exp"
  | .sqrt => "sqrt"
  | .erf => "erf"
  | .tanh => "tanh"
  | .sigmoid => "sigmoid"
  | .relu => "relu"
  | .nearbyint => "nearbyint"
  | .recip => "recip"

def Binary.all : List Binary :=
  [.add, .sub, .mul, .div, .pow, .max, .min]

def Binary.name : Binary → String
  | .add => "add"
  | .sub => "sub"
  | .mul => "mul"
  | .div => "div"
  | .pow => "pow"
  | .max => "max"
  | .min => "min"

def PadMode.all : List PadMode :=
  [.constant, .reflect, .edge]

def PadMode.name : PadMode → String
  | .constant => "constant"
  | .reflect => "reflect"
  | .edge => "edge"

namespace Operator

def add : Operator := .binary .add
def sub : Operator := .binary .sub
def mul : Operator := .binary .mul
def div : Operator := .binary .div

def name : Operator → String
  | literal _ => "@literal"
  | parameter .. => "@param"
  | output => "@return"
  | identity => "identity"
  | undefined => "undefined"
  | allocate _ => "allocate"
  | contiguous => "contiguous"
  | convert _ => "convert"
  | unary f => f.name
  | binary f => f.name
  | clip => "clip"
  | transpose _ => "transpose"
  | reshape _ => "reshape"
  | broadcast .. => "broadcast"
  | multibroadcast _ => "multibroadcast"
  | pad .. => "pad"
  | convolution _ => "convolution"
  | dot => "dot"
  | reduceMean _ => "reduce_mean"
  | layernorm _ => "layernorm"
  | quantizeLinear => "quantizelinear"
  | dequantizeLinear => "dequantizelinear"
  | branch => "if"
  | loop _ => "loop"
  | getTupleElem _ => "get_tuple_elem"

def isBuiltin : Operator → Bool
  | literal _ | parameter .. | output => true
  | _ => false

def isOutput : Operator → Bool
  | output => true
  | _ => false

def usesModules : Operator → Bool
  | branch | loop _ => true
  | _ => false

def isUnary : Operator → Bool
  | unary _ => true
  | _ => false

def isBinary : Operator → Bool
  | binary _ => true
  | _ => false

/-- Each output element is computed from the input elements at the same index. -/
def isPointwise : Operator → Bool
  | unary _ | binary _ | convert _ | clip => true
  | _ => false

def requiresStandardInputs : Operator → Bool
  | convolution _ | reshape _ | dot | reduceMean _ | layernorm _ => true
  | _ => false

def isBroadcast : Operator → Bool
  | broadcast .. | multibroadcast _ => true
  | _ => false

/-- Dead code of this kind goes even if its output is empty. -/
def removableWhenEmpty : Operator → Bool
  | literal _ | parameter .. | output | identity | allocate _ | undefined => true
  | _ => false

def listText {α : Type} [ToString α] (xs : List α) : String :=
  braced (String.intercalate "," (xs.map toString))

def attributeTexts : Operator → List (String × String)
  | parameter name _ => [("name", name)]
  | allocate shape => [("shape", braced shape.text)]
  | convert target => [("target_type", target.name)]
  | transpose permutation => [("permutation", listText permutation)]
  | reshape dims => [("dims", listText dims)]
  | broadcast axis outLens => [("axis", toString axis), ("out_lens", listText outLens)]
  | multibroadcast outLens => [("out_lens", listText outLens)]
  | pad pads mode value =>
    [("pads", listText pads), ("mode", mode.name), ("value", Decimal.display value)]
  | convolution w =>
    [("padding", listText w.padding), ("stride", listText w.stride),
      ("dilation", listText w.dilation), ("group", toString w.group)]
  | reduceMean axes => [("axes", listText axes)]
  | layernorm epsilon => [("epsilon", Decimal.display epsilon)]
  | loop maxIterations => [("max_iterations", toString maxIterations)]
  | getTupleElem index => [("index", toString index)]
  | _ => []

def text (op : Operator) : String :=
  match op.attributeTexts with
  | [] => op.name
  | attributes =>
    op.name ++ "[" ++ String.intercalate "," (attributes.map fun (k, v) => k ++ "=" ++ v) ++ "]"

end Operator
end TensorGraph
