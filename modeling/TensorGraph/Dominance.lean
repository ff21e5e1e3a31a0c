import TensorGraph.Module.Basic

/-!
Dominators over the uses of a module. An instruction dominates another when every chain of inputs
from the latter to an instruction without inputs passes through it; post-dominators are the same
along users. The dominators of an instruction are those that all its children share, and itself, so
one pass in the order of the module finds them.
-/
namespace TensorGraph

structure Dominance where
  immediate : List (InstructionId × InstructionId)
deriving Repr

namespace Dominance

def immediate? (d : Dominance) (i : InstructionId) : Option InstructionId :=
  d.immediate.lookup i

def chain (d : Dominance) : Nat → InstructionId → List InstructionId
  | 0, _ => []
  | steps + 1, i =>
    match d.immediate? i with
    | none => []
    | some j => j :: d.chain steps j

/-- The strict dominators of an instruction, nearest first. No chain is longer than the list of
immediate dominators. -/
def strictDominators (d : Dominance) (i : InstructionId) : List InstructionId :=
  d.chain d.immediate.length i

def strictlyDominates (d : Dominance) (a b : InstructionId) : Bool :=
  decide (a ∈ d.strictDominators b)

def dominates (d : Dominance) (a b : InstructionId) : Bool :=
  a == b || d.strictlyDominates a b

/-- The dominators found so far, each set by increasing number. -/
abbrev Sets := List (InstructionId × List InstructionId)

def insertByIndex (i : InstructionId) : List InstructionId → List InstructionId
  | [] => [i]
  | j :: rest =>
    if i.index < j.index then i :: j :: rest
    else if i = j then j :: rest
    else j :: insertByIndex i rest

/-- What all the sets of `others` share with `first`; a set that is not known shares nothing. -/
def common (sets : Sets) (first : InstructionId) (others : List InstructionId) :
    List InstructionId :=
  others.foldl (fun shared child =>
    match sets.lookup child with
    | some set => shared.filter (· ∈ set)
    | none => []) ((sets.lookup first).getD [])

/-- The candidate that dominates none of the others. -/
def closest? (sets : Sets) (candidates : List InstructionId) : Option InstructionId :=
  candidates.find? fun c => candidates.all fun other =>
    other == c || !((sets.lookup other).getD []).contains c

/-- The strict dominators of an instruction and the immediate one, from those of its children. -/
def dominatorsOf (sets : Sets) :
    List InstructionId → List InstructionId × Option InstructionId
  | [] => ([], none)
  | [child] => ((sets.lookup child).getD [], some child)
  | first :: others =>
    let shared := common sets first others
    (shared, closest? sets shared)

def step (children : InstructionId → List InstructionId) (acc : Sets × Dominance)
    (i : InstructionId) : Sets × Dominance :=
  let (sets, d) := acc
  let (strict, immediate) := dominatorsOf sets (children i)
  ((i, insertByIndex i strict) :: sets,
    ⟨(immediate.toList.map fun j => (i, j)) ++ d.immediate⟩)

/-- Dominance along `children`, for instructions that come after their children. -/
def along (children : InstructionId → List InstructionId) (order : List InstructionId) :
    Dominance :=
  (order.foldl (step children) ([], ⟨[]⟩)).2

def ofModule (m : Module) : Dominance :=
  along m.inputsOf m.order

def postOfModule (m : Module) : Dominance :=
  along m.usersOf m.order.reverse

end Dominance
end TensorGraph
