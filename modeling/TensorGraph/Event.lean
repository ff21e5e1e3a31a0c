import TensorGraph.Handle
import TensorGraph.Shape.Text

/-! What edits and passes report while they run. -/
namespace TensorGraph

inductive Severity where
  | trace
  | debug
  | info
  | warn
deriving DecidableEq, Repr

def Severity.name : Severity → String
  | .trace => "TRACE"
  | .debug => "DEBUG"
  | .info => "INFO"
  | .warn => "WARN"

inductive Event where
  | inserted (module : String) (i : InstructionId) (position : Nat)
  | removedDead (module : String) (count : Nat)
  | folding (module : String) (i : InstructionId)
  | dynamicGelu (i : InstructionId) (shape : Shape)
  | otherAxisNormalized (i : InstructionId)
  | intermediatesEscape (i : InstructionId)
  | changedModule (module pass : String)
  | listing (pass text : String)
  | resolvedPipeline (passes : List String)
deriving DecidableEq, Repr

namespace Event

def severity : Event → Severity
  | inserted .. | folding .. | listing .. => .trace
  | removedDead .. | otherAxisNormalized _ | intermediatesEscape _ | changedModule .. => .debug
  | resolvedPipeline _ => .info
  | dynamicGelu .. => .warn

def message : Event → String
  | inserted module i position => module ++ ": inserted " ++ i.text ++ s!" at {position}"
  | removedDead module count => s!"{module}: removed {count} dead instructions"
  | folding module i => module ++ ": folding " ++ i.text ++ " into a literal"
  | dynamicGelu i shape =>
    "rewrite_gelu: skipping " ++ i.text ++ ", dynamic input shape " ++ shape.text
  | otherAxisNormalized i => "rewrite_layernorm: " ++ i.text ++ " does not normalize the last axis"
  | intermediatesEscape i =>
    "rewrite_layernorm: intermediates of " ++ i.text ++ " escape the pattern"
  | changedModule module pass => s!"{module}: `{pass}` changed the module"
  | listing pass text => s!"after {pass}:\n{text}"
  | resolvedPipeline passes => "resolved pipeline: [" ++ String.intercalate ", " passes ++ "]"

def line (e : Event) : String :=
  e.severity.name ++ " " ++ e.message

end Event
end TensorGraph
