import TensorGraph.Pass.Basic

/-!
Quantization in elementwise arithmetic. Quantizing is
`convert (clip (nearbyint (x / s) + z, lo, hi))` with the limits of the quantized type, and
dequantizing is `(convert q - convert z) * s`.
-/
namespace TensorGraph.Pass
namespace Quantization

/-- The instruction in another type, converted before another one if need be. -/
def convertTo (before i : InstructionId) (t : ElementType) : Module.Edit InstructionId := do
  if (← (← Action.get).get i).shape.elementType = t then return i
  else Module.insert before (.convert t) [i]

/-- A number broadcast to lengths. -/
def splat (before : InstructionId) (t : ElementType) (x : Float) (lens : List Nat) :
    Module.Edit InstructionId := do
  let l ← Module.addLiteral (Literal.scalar t x)
  Module.insert before (.multibroadcast lens) [l]

def quantize : Rule where
  pattern := .name "quantizelinear"
  apply r := do
    let m ← Action.get
    let n ← m.get r.root
    let target := n.shape.elementType
    let lens := n.shape.lens
    let x ← Fault.inRange n.inputs[0]?
    let scale ← Fault.inRange n.inputs[1]?
    let scaleType := (← m.get scale).shape.elementType
    let x ← convertTo r.root x scaleType
    let scaled ← Module.insert r.root .div [x, scale]
    let rounded ← Module.insert r.root (.unary .nearbyint) [scaled]
    let shifted ← match n.inputs[2]? with
      | some z => do
        let z ← convertTo r.root z scaleType
        Module.insert r.root .add [rounded, z]
      | none => pure rounded
    let low ← splat r.root scaleType target.minValue lens
    let high ← splat r.root scaleType target.maxValue lens
    let clipped ← Module.insert r.root .clip [shifted, low, high]
    let quantized ← convertTo r.root clipped target
    let _ ← Module.replaceWith r.root quantized
    return true

def dequantize : Rule where
  pattern := .name "dequantizelinear"
  apply r := do
    let m ← Action.get
    let n ← m.get r.root
    let q ← Fault.inRange n.inputs[0]?
    let scale ← Fault.inRange n.inputs[1]?
    let scaleType := (← m.get scale).shape.elementType
    let q ← convertTo r.root q scaleType
    let shifted ← match n.inputs[2]? with
      | some z => do
        let z ← convertTo r.root z scaleType
        Module.insert r.root .sub [q, z]
      | none => pure q
    let result ← Module.insert r.root .mul [shifted, scale]
    let _ ← Module.replaceWith r.root result
    return true

end Quantization

def quantization : Pass :=
  ofRules "rewrite_quantization" [Quantization.quantize, Quantization.dequantize]

end TensorGraph.Pass
