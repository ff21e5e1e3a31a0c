import TensorGraph.Pass.Basic

/-!
Conversions: a conversion of a conversion converts the source at once, and one that changes nothing
is passed over.
-/
namespace TensorGraph.Pass
namespace Convert

/-- What stands at the beginning of a chain of at most so many conversions. -/
def source (m : Module) : Nat → InstructionId → Except Fault InstructionId
  | 0, i => .ok i
  | steps + 1, i => do
    let n ← m.get i
    match n.op, n.inputs with
    | .convert _, [input] => source m steps input
    | _, _ => return i

def nested : Rule where
  pattern := (Pattern.name "convert").and (.arg 0 (.name "convert"))
  apply r := do
    let m ← Action.get
    let source ← source m (m.instructions.size + 1) r.root
    let target := (← m.get r.root).shape
    if (← m.get source).shape = target then
      let _ ← Module.replaceWith r.root source
    else
      let _ ← Module.replace r.root (.convert target.elementType) [source]
    return true

def idle : Rule where
  pattern := (Pattern.name "convert").and (.sameShapeAsInput 0)
  apply r := do
    let n ← (← Action.get).get r.root
    let input ← Fault.inRange n.inputs[0]?
    let _ ← Module.replaceWith r.root input
    return true

end Convert

def conversion : Pass :=
  ofRules "eliminate_convert" [Convert.nested, Convert.idle]

end TensorGraph.Pass
