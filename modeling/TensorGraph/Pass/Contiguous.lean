import TensorGraph.Pass.Basic

/-!
Layouts: operators that expect row-major inputs, and the outputs of the module, get row-major copies
where the layout is another.
-/
namespace TensorGraph.Pass
namespace Contiguous

/-- Tuples, dynamic shapes and empty ones have no layout to mend. -/
def hasStandardLayout (s : Shape) : Except Fault Bool := do
  if s.isTuple || s.isDynamic then return true
  if (← s.elements) = 0 then return true
  s.isStandard

def isMended (i : InstructionId) : Module.Edit Bool := do
  hasStandardLayout (← (← Action.get).get i).shape

def allMended : List InstructionId → Module.Edit Bool
  | [] => return true
  | i :: rest => do if ← isMended i then allMended rest else return false

/-- The inputs with row-major copies, added before an instruction, where the layout is another. -/
def mendAll (before : InstructionId) : List InstructionId → Module.Edit (List InstructionId)
  | [] => return []
  | i :: rest => do
    let mended ← if ← isMended i then pure i else Module.insert before .contiguous [i]
    return mended :: (← mendAll before rest)

def mendInputs (i : InstructionId) : Module.Edit Bool := do
  let n ← (← Action.get).get i
  if !n.op.requiresStandardInputs then return false
  else if ← allMended n.inputs then return false
  else
    let inputs ← mendAll i n.inputs
    let _ ← Module.replace i n.op inputs
    return true

def mendOutputs : Module.Edit Bool := do
  let m ← Action.get
  match m.output? with
  | some i =>
    let outputs := m.inputsOf i
    if ← allMended outputs then return false
    else
      let mended ← mendAll i outputs
      let _ ← Module.replaceOutput mended
      return true
  | none =>
    match m.last? with
    | some last =>
      if ← isMended last then return false
      else
        let _ ← Module.add .contiguous [last]
        return true
    | none => return false

end Contiguous

def contiguous : Pass where
  name := "auto_contiguous"
  run := do
    let changed ← Action.anyOf Contiguous.mendInputs (← Action.get).order
    let outputs ← Contiguous.mendOutputs
    return changed || outputs

end TensorGraph.Pass
