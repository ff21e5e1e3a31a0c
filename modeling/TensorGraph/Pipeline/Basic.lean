import TensorGraph.Module.Text
import TensorGraph.Module.Validation
import TensorGraph.Pipeline.Config
import TensorGraph.Pipeline.Level
import TensorGraph.Pipeline.Registry
import TensorGraph.Program.Basic

/-!
Pipelines: a schedule of passes that runs over the modules of a program, each pass over all of them
before the next one, and sub-modules before the modules that refer to them.
-/
namespace TensorGraph

inductive PipelineError where
  | malformedConfig
  | unknownPass (name : String) (available : List String)
  | passRefused (pass module : String) (cause : GraphError)
  | invalidModule (pass : String) (cause : GraphError)
deriving DecidableEq, Repr

def PipelineError.message : PipelineError → String
  | .malformedConfig => "invalid pipeline configuration"
  | .unknownPass name available =>
    s!"unknown pass `{name}` (available: " ++ String.intercalate ", " available ++ ")"
  | .passRefused pass module cause =>
    s!"pass `{pass}` failed on module `{module}`: " ++ cause.message
  | .invalidModule pass cause => s!"module is invalid after `{pass}`: " ++ cause.message

inductive PipelineFailure where
  | refused (error : PipelineError)
  | broken (fault : Fault)
deriving DecidableEq, Repr

/-- A failure, with its error put in the context in which it arose. -/
def Failure.within (context : GraphError → PipelineError) : Failure → PipelineFailure
  | .refused e => .refused (context e)
  | .broken f => .broken f

structure Pipeline where
  passes : List Pass := []
  validate : Bool := true
  trace : Bool := false
  finalSweep : Bool := true

namespace Pipeline

def ofLevel (level : Level) : Pipeline :=
  { passes := level.schedule }

def passNames (p : Pipeline) : List String :=
  p.passes.map Pass.name

def append (p : Pipeline) (pass : Pass) : Pipeline :=
  { p with passes := p.passes ++ [pass] }

/-- The pipeline of a configuration, whose passes all have to be known. -/
def ofConfig (registry : Registry) (config : Config) : Except PipelineError Pipeline := do
  let passes ← config.passes.mapM fun name =>
    match registry.find? name with
    | some pass => .ok pass
    | none => .error (.unknownPass name registry.names)
  return {
    passes
    validate := config.validate
    trace := config.trace
    finalSweep := config.finalSweep }

/-- Builds the pipeline of a configuration and reports its schedule. -/
def resolve {σ : Type} (registry : Registry) (config : Config) :
    Action PipelineFailure σ Pipeline := do
  let p ← (ofConfig registry config).mapError PipelineFailure.refused
  Action.report (.resolvedPipeline p.passNames)
  return p

def schedule (p : Pipeline) : List Pass :=
  p.passes ++ if p.finalSweep then [Pass.deadCode] else []

def runPass (p : Pipeline) (pass : Pass) : Action PipelineFailure Module Bool := do
  let name := (← Action.get).name
  let changed ← pass.run.mapError (Failure.within (.passRefused pass.name name))
  let m ← Action.get
  if changed then Action.report (.changedModule m.name pass.name)
  if p.trace then Action.report (.listing pass.name m.listing)
  if p.validate then m.validate.mapError (Failure.within (.invalidModule pass.name))
  return changed

/-- Runs the schedule on a single module. Tells whether it changed. -/
def runModule (p : Pipeline) : Action PipelineFailure Module Bool :=
  Action.anyOf p.runPass p.schedule

def runPassOn (p : Pipeline) (pass : Pass) (m : ModuleId) : Action PipelineFailure Program Bool :=
  Program.onModule PipelineFailure.broken m (p.runPass pass)

/-- Runs the schedule on the modules that the entry reaches. Tells whether one of them changed. -/
def run (p : Pipeline) : Action PipelineFailure Program Bool := do
  let modules := (← Action.get).reachable
  Action.anyOf (fun pass => Action.anyOf (p.runPassOn pass) modules) p.schedule

def optimize (level : Level) : Action PipelineFailure Program Bool :=
  (ofLevel level).run

end Pipeline
end TensorGraph
