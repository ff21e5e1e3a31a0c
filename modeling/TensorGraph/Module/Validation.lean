import TensorGraph.Module.Basic

/-!
Checking a module: the order is complete and topological, inputs and users agree, outputs are listed
last, and every shape is the one that its operator gives.
-/
namespace TensorGraph.Module

/-- The checks on one instruction, of which `seen` stand before and `isLast` tells the last. -/
def checkInstruction (m : Module) (seen : List InstructionId) (isLast : Bool)
    (i : InstructionId) : Except Failure Unit := do
  let invalid (v : Violation) : Except Failure Unit := refuse (.invalid m.name v)
  match m.get? i with
  | none => invalid (.notLive i)
  | some n =>
    n.inputs.forM fun input => do
      if input ∉ seen then invalid (.useBeforeDef i input)
      else if i ∉ (← m.get input).users then invalid (.missingUser input i)
      else return
    n.users.forM fun user =>
      if (m.get? user).any fun u => i ∈ u.inputs then return else invalid (.foreignUser i user)
    if n.op.isOutput && !isLast then invalid (.returnNotLast i)
    else if n.inputs.isEmpty && n.op.isBuiltin then return
    else match n.op.inferShape (← m.shapesOf n.inputs) n.moduleOutputs with
      | .error (.refused (.shape op cause)) => invalid (.inference i op cause)
      | .error e => .error e
      | .ok shape =>
        if shape = n.shape then return else invalid (.cachedShape i n.shape n.op.name shape)

def checkFrom (m : Module) (seen : List InstructionId) :
    List InstructionId → Except Failure Unit
  | [] => .ok ()
  | i :: rest => do
    m.checkInstruction seen rest.isEmpty i
    m.checkFrom (i :: seen) rest

/-- Checks everything that edits are meant to keep, and reports the first thing broken. -/
def validate (m : Module) : Except Failure Unit :=
  if m.order.length ≠ m.instructions.size then
    refuse (.invalid m.name (.liveCount m.order.length m.instructions.size))
  else m.checkFrom [] m.order

end TensorGraph.Module
