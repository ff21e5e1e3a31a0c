import TensorGraph.Pass.Basic

/-!
The gaussian error linear unit: `0.5 * x * (1 + erf (x / sqrt 2))`, in the forms it is commonly
written in, becomes `x * sigmoid (1.702 * x)`.
-/
namespace TensorGraph.Pass
namespace Gelu

def constantOf (x : Float) : Pattern :=
  .skipBroadcasts (.hasValue x)

def pattern : Pattern :=
  let x := Pattern.any.bind "x"
  let scaled := Pattern.anyOf [
    ((Pattern.name "div").and (.arg 0 x)).and (.arg 1 (constantOf 1.4142135623730951)),
    (Pattern.name "mul").and (.eitherArg 0 1 x (constantOf 0.7071067811865476))]
  let erf := (Pattern.name "erf").and (.arg 0 scaled)
  let onePlusErf := (Pattern.name "add").and (.eitherArg 0 1 erf (constantOf 1))
  let halfX := (Pattern.name "mul").and (.eitherArg 0 1 x (constantOf 0.5))
  let xTimesErf := (Pattern.name "mul").and (.eitherArg 0 1 x onePlusErf)
  .anyOf [
    (Pattern.name "mul").and (.eitherArg 0 1 halfX onePlusErf),
    (Pattern.name "mul").and (.eitherArg 0 1 xTimesErf (constantOf 0.5))]

def rule : Rule where
  pattern := pattern
  apply r := do
    let x ← r.get "x"
    let shape := (← (← Action.get).get x).shape
    if shape.isDynamic then
      Action.report (.dynamicGelu r.root shape)
      return false
    else
      let scale ← Module.addLiteral (Literal.scalar shape.elementType 1.702)
      let k ← Module.insert r.root (.multibroadcast shape.lens) [scale]
      let kx ← Module.insert r.root .mul [x, k]
      let sigmoid ← Module.insert r.root (.unary .sigmoid) [kx]
      let gelu ← Module.insert r.root .mul [x, sigmoid]
      let _ ← Module.replaceWith r.root gelu
      return true

end Gelu

def gelu : Pass :=
  ofRules "rewrite_gelu" [Gelu.rule]

end TensorGraph.Pass
