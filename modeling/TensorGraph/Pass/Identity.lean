import TensorGraph.Pass.Basic

/-!
Identities: the users of an identity use its input instead. The last instruction stays, being the
output.
-/
namespace TensorGraph.Pass
namespace Identity

def forward (last : Option InstructionId) (i : InstructionId) : Module.Edit Bool := do
  let n ← (← Action.get).get i
  match n.op, n.inputs with
  | .identity, [input] =>
    if some i = last || n.users.isEmpty then return false
    else
      let _ ← Module.replaceWith i input
      return true
  | _, _ => return false

end Identity

def identity : Pass where
  name := "eliminate_identity"
  run := do
    let m ← Action.get
    Action.anyOf (Identity.forward m.last?) m.order

end TensorGraph.Pass
