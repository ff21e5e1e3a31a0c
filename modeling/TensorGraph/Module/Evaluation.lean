import TensorGraph.Module.Basic
import TensorGraph.Operator.Evaluation

/-!
Values of instructions that depend on constants only. Values found on the way are kept in a memo, so
that each instruction is evaluated once.
-/
namespace TensorGraph.Module

/-- Values found so far; `none` is kept for an instruction without one. -/
abbrev Memo := List (InstructionId × Option Literal)

def evalAll (eval : InstructionId → Memo → Except Fault (Option Literal × Memo)) :
    List InstructionId → Memo → Except Fault (Option (List Literal) × Memo)
  | [], memo => .ok (some [], memo)
  | i :: rest, memo => do
    match ← eval i memo with
    | (none, memo) => return (none, memo)
    | (some v, memo) =>
      let (vs, memo) ← evalAll eval rest memo
      return (vs.map (v :: ·), memo)

def evalDepth (m : Module) : Nat → InstructionId → Memo → Except Fault (Option Literal × Memo)
  | 0, _, memo => .ok (none, memo)
  | depth + 1, i, memo =>
    match memo.lookup i with
    | some value => .ok (value, memo)
    | none =>
      match m.get? i with
      | none => .ok (none, memo)
      | some n => do
        let (value, memo) ←
          match n.op with
          | .literal value => pure (some value, memo)
          | op =>
            if n.inputs.isEmpty || n.shape.isTuple || n.shape.isDynamic then pure (none, memo)
            else do
              match ← evalAll (m.evalDepth depth) n.inputs memo with
              | (none, memo) => pure (none, memo)
              | (some args, memo) => pure (← op.evaluate n.shape args, memo)
        return (value, (i, value) :: memo)

/-- The value of an instruction, with a memo that is kept for further ones. A chain of inputs is no
longer than the number of instructions. -/
def evalMemo (m : Module) (i : InstructionId) (memo : Memo) :
    Except Fault (Option Literal × Memo) :=
  m.evalDepth (m.instructions.size + 1) i memo

/-- The value of an instruction whose inputs lead back to constants only. -/
def eval (m : Module) (i : InstructionId) : Except Fault (Option Literal) := do
  return (← m.evalMemo i []).1

end TensorGraph.Module
