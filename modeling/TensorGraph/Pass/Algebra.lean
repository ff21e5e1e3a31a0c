import TensorGraph.Pass.Basic

/-!
Algebraic identities: adding or subtracting zero, multiplying or dividing by one, and negating
twice. A broadcast constant counts as that constant.
-/
namespace TensorGraph.Pass
namespace Algebra

def keepOperand (r : Match) : Module.Edit Bool := do
  replaceKeepingShape r.root (← r.get "x")

/-- `op(x, value)` is `x`, and so is `op(value, x)` where `op` is commutative. -/
def neutral (op : String) (value : Float) (commutative : Bool) : Rule where
  pattern :=
    let constant := Pattern.skipBroadcasts (.hasValue value)
    let x := Pattern.any.bind "x"
    let operands := if commutative then .eitherArg 0 1 x constant
      else (Pattern.arg 0 x).and (.arg 1 constant)
    (Pattern.name op).and operands
  apply := keepOperand

def doubleNegation : Rule where
  pattern :=
    let negated := (Pattern.name "neg").and (.arg 0 (Pattern.any.bind "x"))
    (Pattern.name "neg").and (.arg 0 negated)
  apply := keepOperand

end Algebra

def algebra : Pass :=
  ofRules "simplify_algebra"
    [Algebra.neutral "add" 0 true, Algebra.neutral "sub" 0 false, Algebra.neutral "mul" 1 true,
      Algebra.neutral "div" 1 false, Algebra.doubleNegation]

end TensorGraph.Pass
