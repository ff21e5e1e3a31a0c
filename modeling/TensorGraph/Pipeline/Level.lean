import TensorGraph.Pass.Algebra
import TensorGraph.Pass.CommonSubexpression
import TensorGraph.Pass.ConstantFolding
import TensorGraph.Pass.Contiguous
import TensorGraph.Pass.Convert
import TensorGraph.Pass.DeadCode
import TensorGraph.Pass.Gelu
import TensorGraph.Pass.Identity
import TensorGraph.Pass.Layernorm
import TensorGraph.Pass.Pad
import TensorGraph.Pass.Quantization

/-! Levels of optimization and the passes that run at each. -/
namespace TensorGraph

inductive Level where
  /-- Dead code is removed. -/
  | sweep
  /-- Identities, conversions, pads, algebra and constants are simplified too. -/
  | simplify
  /-- Compound expressions are recognized and common ones merged too. -/
  | full
deriving DecidableEq, Repr

namespace Level

def standard : Level := .simplify

def schedule : Level → List Pass
  | sweep => []
  | simplify =>
    [Pass.identity, Pass.conversion, Pass.padding, Pass.algebra, Pass.constantFolding,
      Pass.deadCode]
  | full =>
    [Pass.quantization, Pass.gelu, Pass.layernorm, Pass.identity, Pass.conversion, Pass.padding,
      Pass.algebra, Pass.constantFolding, Pass.commonSubexpression, Pass.deadCode, Pass.contiguous]

end Level

end TensorGraph
