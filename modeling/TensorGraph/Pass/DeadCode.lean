import TensorGraph.Pass.Basic

/-!
Removal of dead code: instructions that nothing uses, other than the last one and parameters, and
then what only they used.
-/
namespace TensorGraph.Pass.DeadCode

/-- An empty result of known shape is presumed to be there for a side effect, unless the operator
has none. -/
def keepWhenEmpty (n : Instruction) : Except Fault Bool := do
  if n.shape.isTuple || n.shape.isDynamic then return false
  return (← n.shape.elements) == 0 && !n.op.removableWhenEmpty

/-- Instructions of a module that are still in use, and the module with the others unlinked and at
the end of the order. -/
structure Sweep where
  module : Module
  alive : List InstructionId

/-- Whether an instruction goes: it is neither the last one nor a parameter, and nothing uses it. -/
def isDead (m : Module) (last i : InstructionId) : Bool :=
  i ≠ last && (m.get? i).any fun n => n.users.isEmpty && n.parameter?.isNone

/-- Unlinks the dead among `pending`, and what only they used. -/
def collect (last : InstructionId) (s : Sweep) (pending : List InstructionId) : Sweep :=
  match pending with
  | [] => s
  | i :: rest =>
    if i ∈ s.alive then
      if isDead s.module last i then
        collect last ⟨(s.module.detach i).toEnd i, s.alive.erase i⟩
          ((s.module.inputsOf i).reverse ++ rest)
      else collect last s rest
    else collect last s rest
termination_by (s.alive.length, pending.length)
decreasing_by
  · apply Prod.Lex.left
    have := List.length_erase_of_mem ‹i ∈ s.alive›
    have := List.length_pos_of_mem ‹i ∈ s.alive›
    omega
  · exact Prod.Lex.right _ (Nat.lt_succ_self _)
  · exact Prod.Lex.right _ (Nat.lt_succ_self _)

/-- Starts a collection at each candidate that is still in use and not kept. -/
def collectFrom (keep : Instruction → Except Fault Bool) (last : InstructionId) (s : Sweep) :
    List InstructionId → Except Fault Sweep
  | [] => .ok s
  | i :: rest => do
    let start ← match s.module.get? i with
      | some n => if i ∈ s.alive then do pure !(← keep n) else pure false
      | none => pure false
    collectFrom keep last (if start then collect last s [i] else s) rest

def runWith (keep : Instruction → Except Fault Bool) : Module.Edit Bool := do
  let m ← Action.get
  match m.last? with
  | none => return false
  | some last =>
    let s ← collectFrom keep last ⟨m, m.ids⟩ (m.order.reverse.drop 1)
    Action.set s.module
    let removed ← Module.removeAfter last
    if 0 < removed then Action.report (.removedDead m.name removed)
    return 0 < removed

end TensorGraph.Pass.DeadCode

namespace TensorGraph.Pass

def deadCode : Pass where
  name := "dead_code_elimination"
  run := DeadCode.runWith DeadCode.keepWhenEmpty

end TensorGraph.Pass
