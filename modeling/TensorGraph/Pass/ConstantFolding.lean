import TensorGraph.Pass.Basic

/-!
Constant folding: where a constant value is used by something that is not constant, or is the
output, a literal takes its place. Broadcasting views of literals stay, so that the literal stays
small, and so do values whose layout no literal has.
-/
namespace TensorGraph.Pass
namespace ConstantFolding

def anyUnknown (m : Module) : List InstructionId → Module.Memo → Except Fault (Bool × Module.Memo)
  | [], memo => .ok (false, memo)
  | i :: rest, memo => do
    match ← m.evalMemo i memo with
    | (none, memo) => return (true, memo)
    | (some _, memo) => anyUnknown m rest memo

/-- The value to fold an instruction into, if it is to be folded. -/
def foldValue (m : Module) (i : InstructionId) (memo : Module.Memo) :
    Except Fault (Option Literal × Module.Memo) := do
  let n ← m.get i
  if n.inputs.isEmpty || n.op.isBuiltin then return (none, memo)
  let ofLiterals := n.inputs.all fun j => ((m.get? j).bind Instruction.literal?).isSome
  if n.op.isBroadcast && ofLiterals then return (none, memo)
  let (escapes, memo) ← anyUnknown m n.users memo
  if m.last? ≠ some i && !escapes then return (none, memo)
  let (value, memo) ← m.evalMemo i memo
  return (value.filter fun v => v.shape = n.shape, memo)

def foldValues (m : Module) :
    List InstructionId → Module.Memo → Except Fault (List (InstructionId × Literal))
  | [], _ => .ok []
  | i :: rest, memo => do
    let (value, memo) ← foldValue m i memo
    let others ← foldValues m rest memo
    return (value.toList.map fun v => (i, v)) ++ others

def foldInto (name : String) : List (InstructionId × Literal) → Module.Edit Unit
  | [] => return
  | (i, value) :: rest => do
    Action.report (.folding name i)
    let l ← Module.addLiteral value
    let _ ← Module.replaceWith i l
    foldInto name rest

end ConstantFolding

def constantFolding : Pass where
  name := "propagate_constant"
  run := do
    let m ← Action.get
    let folds ← ConstantFolding.foldValues m m.order []
    ConstantFolding.foldInto m.name folds
    return !folds.isEmpty

end TensorGraph.Pass
