import TensorGraph.Module.Edit

/-!
Programs: modules under unique names, with an entry. Modules refer to each other only as the
sub-modules of control flow, and these references never run in a circle.
-/
namespace TensorGraph

structure Program where
  modules : Arena Module
  names : List (String × ModuleId)
  main : ModuleId
deriving Repr

namespace Program

def mainName : String := "main"

def empty : Program :=
  { modules := Arena.empty.append (Module.empty mainName)
    names := [(mainName, ⟨0⟩)]
    main := ⟨0⟩ }

def size (p : Program) : Nat :=
  p.modules.size

def isEmpty (p : Program) : Bool :=
  p.modules.isEmpty

def get? (p : Program) (m : ModuleId) : Option Module :=
  p.modules.get? m.index

def get (p : Program) (m : ModuleId) : Except Fault Module :=
  p.modules.get m.index

def ids (p : Program) : List ModuleId :=
  p.modules.entries.map fun e => ⟨e.1⟩

def find? (p : Program) (name : String) : Option ModuleId :=
  p.names.lookup name

def subModulesOf (p : Program) (m : ModuleId) : List ModuleId :=
  ((p.get? m).map Module.subModules).getD []

/-- The name of a module, or its number if it is gone. -/
def nameOf (p : Program) (m : ModuleId) : String :=
  match p.get? m with
  | some module => module.name
  | none => m.text

/-- Whether `target` is `m` or is referred to by it, directly or not. -/
def reaches (p : Program) (m target : ModuleId) : Bool :=
  decide (target ∈ Reach.visit p.subModulesOf p.ids [m])

/-- Adds to `done` the modules that `m` refers to, directly or not, and then `m`, following
references to at most the given depth. -/
def postOrder (p : Program) : Nat → ModuleId → List ModuleId → List ModuleId
  | 0, _, done => done
  | depth + 1, m, done =>
    if m ∈ done then done
    else match p.get? m with
      | none => done
      | some module =>
        module.subModules.foldl (fun done sub => p.postOrder depth sub done) done ++ [m]

/-- The modules that the entry refers to, directly or not, each after those it refers to. -/
def reachable (p : Program) : List ModuleId :=
  p.postOrder (p.modules.size + 1) p.main []

abbrev Edit (α : Type) := Action Failure Program α

/-- Runs a computation on a module of the program; `absent` describes that it is not there. -/
def onModule {ε α : Type} (absent : Fault → ε) (m : ModuleId) (x : Action ε Module α) :
    Action ε Program α :=
  Action.onPart (fun p => (p.get m).mapError absent)
    (fun module p => { p with modules := p.modules.modify m.index fun _ => module }) x

def editModule {α : Type} (m : ModuleId) (edit : Module.Edit α) : Edit α :=
  onModule .broken m edit

def createModule (name : String) : Edit ModuleId := do
  let p ← Action.get
  if (p.find? name).isSome then Action.refuse (.duplicateModule name)
  else
    let m : ModuleId := ⟨p.modules.next⟩
    Action.set { p with
      modules := p.modules.append (Module.empty name)
      names := (name, m) :: p.names }
    return m

def removeModule (m : ModuleId) : Edit Module := do
  let p ← Action.get
  match p.get? m with
  | none => Action.refuse (.unknownModule m.text)
  | some module =>
    if m = p.main then Action.refuse (.moduleInUse module.name "<program entry>")
    else match p.modules.entries.find? fun e => m ∈ e.2.subModules with
      | some (_, user) => Action.refuse (.moduleInUse module.name user.name)
      | none =>
        Action.set { p with
          modules := p.modules.remove m.index
          names := p.names.filter fun e => e.1 ≠ module.name }
        return module

/-- The output shapes of the sub-modules that a module wants to refer to, if it may. -/
def checkReferences (p : Program) (owner : ModuleId) (subs : List ModuleId) :
    Except Failure (List (List Shape)) := do
  match p.get? owner with
  | none => refuse (.unknownModule owner.text)
  | some module =>
    subs.mapM fun sub =>
      match p.get? sub with
      | none => refuse (.unknownModule sub.text)
      | some other =>
        if p.reaches sub owner then refuse (.recursiveModule other.name module.name)
        else .ok other.outputShapes

/-- Adds an instruction that refers to sub-modules, whose present output shapes it takes over. -/
def insertWithModules (owner : ModuleId) (before : Option InstructionId) (op : Operator)
    (inputs : List InstructionId) (subs : List ModuleId) : Edit InstructionId := do
  let p ← Action.get
  let outputs ← p.checkReferences owner subs
  editModule owner (Module.insertWithModules before op inputs subs outputs)

end Program
end TensorGraph
