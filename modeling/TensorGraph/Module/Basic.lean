import TensorGraph.Arena
import TensorGraph.Operator.Inference
import TensorGraph.Reach

/-!
Modules: instructions that use the results of one another. Instructions are stored under numbers of
their own, and the order in which they stand is a separate list; it is meant to put every
instruction after its inputs. Each instruction also lists its users, every one once.
-/
namespace TensorGraph

structure Instruction where
  op : Operator
  inputs : List InstructionId
  users : List InstructionId := []
  shape : Shape
  moduleArgs : List ModuleId := []
  /-- The output shapes of the sub-modules, as they were when the instruction was built. -/
  moduleOutputs : List (List Shape) := []
deriving DecidableEq, Repr

namespace Instruction

def name (n : Instruction) : String :=
  n.op.name

def literal? (n : Instruction) : Option Literal :=
  match n.op with
  | .literal value => some value
  | _ => none

def parameter? (n : Instruction) : Option (String × Shape) :=
  match n.op with
  | .parameter name shape => some (name, shape)
  | _ => none

def parameterName? (n : Instruction) : Option String :=
  n.parameter?.map Prod.fst

def addUser (n : Instruction) (user : InstructionId) : Instruction :=
  if user ∈ n.users then n else { n with users := n.users ++ [user] }

def removeUser (n : Instruction) (user : InstructionId) : Instruction :=
  { n with users := n.users.filter (· ≠ user) }

end Instruction

structure Module where
  name : String
  instructions : Arena Instruction := {}
  order : List InstructionId := []
deriving Repr

namespace Module

def empty (name : String) : Module :=
  { name := name }

def size (m : Module) : Nat :=
  m.order.length

def isEmpty (m : Module) : Bool :=
  m.order.isEmpty

def get? (m : Module) (i : InstructionId) : Option Instruction :=
  m.instructions.get? i.index

def contains (m : Module) (i : InstructionId) : Bool :=
  m.instructions.contains i.index

def get (m : Module) (i : InstructionId) : Except Fault Instruction :=
  m.instructions.get i.index

def ids (m : Module) : List InstructionId :=
  m.instructions.entries.map fun e => ⟨e.1⟩

def nextId (m : Module) : InstructionId :=
  ⟨m.instructions.next⟩

def position? (m : Module) (i : InstructionId) : Option Nat :=
  m.order.idxOf? i

def last? (m : Module) : Option InstructionId :=
  m.order.getLast?

def inputsOf (m : Module) (i : InstructionId) : List InstructionId :=
  ((m.get? i).map Instruction.inputs).getD []

def usersOf (m : Module) (i : InstructionId) : List InstructionId :=
  ((m.get? i).map Instruction.users).getD []

/-- The instruction that lists the outputs, if the last one does. -/
def output? (m : Module) : Option InstructionId :=
  m.last?.filter fun i => (m.get? i).any fun n => n.op.isOutput

/-- Whether `target` is `i` or contributes to it. -/
def dependsOn (m : Module) (i target : InstructionId) : Bool :=
  decide (target ∈ Reach.visit m.inputsOf m.ids [i])

/-- The sub-modules that instructions refer to, in the order of first use. -/
def subModules (m : Module) : List ModuleId :=
  m.order.foldl (fun seen i =>
    (((m.get? i).map Instruction.moduleArgs).getD []).foldl
      (fun seen sub => if sub ∈ seen then seen else seen ++ [sub]) seen) []

def parameter? (m : Module) (name : String) : Option InstructionId :=
  m.order.find? fun i => ((m.get? i).bind Instruction.parameterName?) == some name

def parameterShapes (m : Module) : List (String × Shape) :=
  m.order.filterMap fun i => (m.get? i).bind Instruction.parameter?

def parameterNames (m : Module) : List String :=
  m.parameterShapes.map Prod.fst

/-- The shapes of the outputs, or of the last instruction where none lists outputs. -/
def outputShapes (m : Module) : List Shape :=
  match m.output? with
  | some i => (m.inputsOf i).filterMap fun j => (m.get? j).map Instruction.shape
  | none => (m.last?.bind fun i => (m.get? i).map Instruction.shape).toList

def shapesOf (m : Module) (is : List InstructionId) : Except Fault (List Shape) :=
  is.mapM fun i => do return (← m.get i).shape

end Module
end TensorGraph
