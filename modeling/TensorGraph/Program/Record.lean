import TensorGraph.Program.Basic

/-!
Records of modules and programs. An instruction refers to its inputs by their places in the record
and to sub-modules by name. Shapes are left out: building the module from its record infers them
again.
-/
namespace TensorGraph

structure InstructionRecord where
  op : Operator
  inputs : List Nat := []
  modules : List String := []
deriving BEq, DecidableEq, Repr

structure ModuleRecord where
  name : String
  instructions : List InstructionRecord
deriving BEq, DecidableEq, Repr

/-- The modules of a program, each after those it refers to. -/
structure ProgramRecord where
  modules : List ModuleRecord
deriving BEq, DecidableEq, Repr

def Module.recordOf (m : Module) (moduleName : ModuleId → String) (i : InstructionId) :
    Except Fault InstructionRecord := do
  let n ← m.get i
  let inputs ← n.inputs.mapM fun input => Fault.inRange (m.position? input)
  return { op := n.op, inputs := inputs, modules := n.moduleArgs.map moduleName }

/-- The record of a module, with sub-modules named by `moduleName`. -/
def Module.record (m : Module) (moduleName : ModuleId → String) : Except Fault ModuleRecord := do
  return { name := m.name, instructions := ← m.order.mapM (m.recordOf moduleName) }

def Program.record (p : Program) : Except Fault ProgramRecord := do
  return { modules := ← p.reachable.mapM fun m => do (← p.get m).record p.nameOf }

/-- The inputs of an instruction, which stand at earlier places of the record of its module. -/
def InstructionRecord.resolveInputs (r : InstructionRecord) (module : String) (place : Nat)
    (built : List InstructionId) : Except Failure (List InstructionId) :=
  r.inputs.mapM fun input =>
    match built[input]? with
    | some i => .ok i
    | none => refuse (.invalidRecord (.undefinedInput place module input))

/-- Adds the instructions of a record one by one, knowing those built before. -/
def InstructionRecord.buildAll {σ : Type}
    (add : Nat → List InstructionId → InstructionRecord → Action Failure σ InstructionId)
    (built : List InstructionId) : List InstructionRecord → Action Failure σ Unit
  | [] => pure ()
  | r :: rest => do
    let i ← add built.length built r
    InstructionRecord.buildAll add (built ++ [i]) rest

/-- Adds the instructions of a module that refers to no sub-modules. -/
def ModuleRecord.build (r : ModuleRecord) : Module.Edit Unit :=
  InstructionRecord.buildAll (fun place built ins => do
    if !ins.modules.isEmpty then Action.refuse (.invalidRecord (.unexpectedModules place r.name))
    else Module.add ins.op (← ins.resolveInputs r.name place built)) [] r.instructions

def ModuleRecord.load (r : ModuleRecord) : Outcome Failure Module Unit :=
  r.build.run (Module.empty r.name)

def InstructionRecord.resolveModules (r : InstructionRecord) (p : Program) :
    Except Failure (List ModuleId) :=
  r.modules.mapM fun name =>
    match p.find? name with
    | some m => .ok m
    | none => refuse (.unknownModule name)

/-- Adds a module to a program; the one that has the name of the entry adds to it. -/
def ModuleRecord.buildInto (r : ModuleRecord) : Program.Edit Unit := do
  let m ←
    if r.name = Program.mainName then pure (← Action.get).main else Program.createModule r.name
  InstructionRecord.buildAll (fun place built ins => do
    let inputs ← ins.resolveInputs r.name place built
    let subs ← ins.resolveModules (← Action.get)
    Program.insertWithModules m none ins.op inputs subs) [] r.instructions

def ProgramRecord.build (r : ProgramRecord) : Program.Edit Unit :=
  r.modules.forM ModuleRecord.buildInto

def ProgramRecord.load (r : ProgramRecord) : Outcome Failure Program Unit :=
  r.build.run Program.empty

end TensorGraph
