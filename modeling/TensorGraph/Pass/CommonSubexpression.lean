import TensorGraph.Operator.Fingerprint
import TensorGraph.Pass.Basic

/-!
Common subexpressions: an instruction that computes the same as an earlier one gives its users to
it. The users of the earlier one are then looked at again, since they may have become the same.
-/
namespace TensorGraph.Pass
namespace CommonSubexpression

def equivalent (a b : Instruction) : Bool :=
  a.op == b.op && a.inputs == b.inputs && a.moduleArgs == b.moduleArgs

def fingerprint (n : Instruction) : List Feed :=
  n.op.feed ++ Feed.nats (n.inputs.map (·.index)) ++ Feed.nats (n.moduleArgs.map (·.index))

/-- Instructions met so far, under the fingerprints they had then. -/
abbrev Seen := List (List Feed × InstructionId)

/-- The first instruction met under the same fingerprint that is still the same. -/
def earlier? (m : Module) (seen : Seen) (n : Instruction) : Option InstructionId :=
  let key := fingerprint n
  (seen.find? fun (k, j) => k == key && (m.get? j).any (equivalent · n)).map Prod.snd

def inOrder (m : Module) (is : List InstructionId) : List InstructionId :=
  is.mergeSort fun i j => !m.standsAfter i j

/-- Merges the instructions of a list in turn; `again` looks at the users after a merge. -/
def mergeAll (again : List InstructionId → Module.Edit Bool) (seen : Seen) :
    List InstructionId → Module.Edit Bool
  | [] => return false
  | i :: rest => do
    let m ← Action.get
    match m.get? i with
    | none => mergeAll again seen rest
    | some n =>
      if n.users.isEmpty then mergeAll again seen rest
      else match earlier? m seen n with
        | none => mergeAll again (seen ++ [(fingerprint n, i)]) rest
        | some j =>
          let _ ← Module.replaceWith i j
          let m ← Action.get
          let _ ← again (inOrder m (m.usersOf j))
          let _ ← mergeAll again seen rest
          return true

/-- Merges within a list, looking at users again to at most the given depth. Users stand after what
they use, so no more depth is needed than there are instructions. -/
def mergeDepth : Nat → List InstructionId → Module.Edit Bool
  | 0, _ => return false
  | depth + 1, is => mergeAll (mergeDepth depth) [] is

end CommonSubexpression

def commonSubexpression : Pass where
  name := "eliminate_common_subexpression"
  run := do
    let m ← Action.get
    CommonSubexpression.mergeDepth (m.instructions.size + 1) m.order

end TensorGraph.Pass
