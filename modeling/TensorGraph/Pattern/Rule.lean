import TensorGraph.Module.Edit
import TensorGraph.Pattern.Basic

/-!
Rules: a pattern and what to do where it matches. A sweep visits each instruction once and applies
the first rule that matches it.
-/
namespace TensorGraph

structure Match where
  root : InstructionId
  bindings : Bindings
deriving Repr

namespace Match

def get? (r : Match) (name : String) : Option InstructionId :=
  r.bindings.lookup name

def get (r : Match) (name : String) : Except Fault InstructionId :=
  match r.get? name with
  | some i => .ok i
  | none => .error (.unbound name)

end Match

def Pattern.match? (p : Pattern) (m : Module) (i : InstructionId) :
    Except Fault (Option Match) := do
  match ← p.matches? m i [] with
  | (true, bindings) => return some { root := i, bindings := bindings }
  | (false, _) => return none

structure Rule where
  pattern : Pattern
  apply : Match → Module.Edit Bool

namespace Rule

def forward (pattern : Pattern) (name : String) : Rule where
  pattern
  apply r := do
    let _ ← Module.replaceWith r.root (← r.get name)
    return true

def replaceRoot (pattern : Pattern) (op : Operator) (args : List String) : Rule where
  pattern
  apply r := do
    let inputs ← (args.mapM r.get : Except Fault _)
    let _ ← Module.replace r.root op inputs
    return true

/-- Adds an instruction before the root, with named inputs, and redirects the users of the root to
it. -/
def insertBefore (pattern : Pattern) (op : Operator) (args : List String) : Rule where
  pattern
  apply r := do
    let inputs ← (args.mapM r.get : Except Fault _)
    let new ← Module.insert r.root op inputs
    let _ ← Module.replaceWith r.root new
    return true

def removeNamed (pattern : Pattern) (name : String) : Rule where
  pattern
  apply r := do
    match r.get? name with
    | some i => Module.remove i; return true
    | none => return false

def decline (pattern : Pattern) : Rule where
  pattern
  apply _ := return false

def applyFirst : List Rule → InstructionId → Module.Edit Bool
  | [], _ => return false
  | rule :: rules, i => do
    match ← rule.pattern.match? (← Action.get) i with
    | some r => rule.apply r
    | none => applyFirst rules i

/-- Visits instructions in turn, leaving out those that are gone, and counts the rules applied. -/
def sweepOver (rules : List Rule) : List InstructionId → Module.Edit Nat
  | [] => return 0
  | i :: rest => do
    let applied ← if (← Action.get).contains i then applyFirst rules i else pure false
    let others ← sweepOver rules rest
    return (if applied then others + 1 else others)

/-- Visits the instructions that are there at the beginning, in order, and counts the rules
applied. -/
def sweep (rules : List Rule) : Module.Edit Nat := do
  sweepOver rules (← Action.get).order

end Rule
end TensorGraph
