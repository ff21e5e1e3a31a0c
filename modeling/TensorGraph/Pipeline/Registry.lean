import TensorGraph.Pass.Algebra
import TensorGraph.Pass.CommonSubexpression
import TensorGraph.Pass.ConstantFolding
import TensorGraph.Pass.Contiguous
import TensorGraph.Pass.Convert
import TensorGraph.Pass.DeadCode
import TensorGraph.Pass.Gelu
import TensorGraph.Pass.Identity
import TensorGraph.Pass.Layernorm
import TensorGraph.Pass.Pad
import TensorGraph.Pass.Quantization

/-! The passes that a schedule can name. -/
namespace TensorGraph

/-- Passes with different names, in the order of registration. -/
structure Registry where
  passes : List Pass := []

namespace Registry

def empty : Registry := {}

/-- Adds a pass in place of the one that has its name. -/
def register (r : Registry) (pass : Pass) : Registry :=
  ⟨r.passes.filter (fun p => p.name ≠ pass.name) ++ [pass]⟩

def find? (r : Registry) (name : String) : Option Pass :=
  r.passes.find? fun p => p.name = name

def names (r : Registry) : List String :=
  r.passes.map Pass.name

def builtin : Registry :=
  [Pass.deadCode, Pass.contiguous, Pass.conversion, Pass.padding, Pass.identity,
    Pass.commonSubexpression, Pass.constantFolding, Pass.algebra, Pass.quantization, Pass.gelu,
    Pass.layernorm].foldl register empty

end Registry
end TensorGraph
