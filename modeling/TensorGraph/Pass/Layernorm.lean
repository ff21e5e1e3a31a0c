import TensorGraph.Dominance
import TensorGraph.Pass.Basic

/-!
Layer normalization: with `d = x - mean x`, the quotient `d / sqrt (mean (d ^ 2) + eps)` becomes
one instruction. Both means have to reduce the last axis only, and nothing but the quotient may
depend on what lies between, which would otherwise stay beside the new instruction.
-/
namespace TensorGraph.Pass
namespace Layernorm

def pattern : Pattern :=
  let x := Pattern.any.bind "x"
  let mean := ((Pattern.name "reduce_mean").and (.arg 0 x)).bind "mean"
  let diff := (((Pattern.name "sub").and (.arg 0 x)).and
    (.arg 1 (.skipBroadcasts mean))).bind "diff"
  let square := Pattern.anyOf [
    ((Pattern.name "pow").and (.arg 0 diff)).and (.arg 1 (.skipBroadcasts (.hasValue 2))),
    (Pattern.name "mul").and (.args [diff, diff])]
  let var := ((Pattern.name "reduce_mean").and (.arg 0 square)).bind "var"
  let eps := Pattern.skipBroadcasts (Pattern.isConstant.bind "eps")
  let denominator := (Pattern.name "sqrt").and
    (.arg 0 ((Pattern.name "add").and (.eitherArg 0 1 (.skipBroadcasts var) eps)))
  ((Pattern.name "div").and (.arg 0 diff)).and (.arg 1 (.skipBroadcasts denominator))

def reducesLastAxis (rank : Nat) (n : Instruction) : Bool :=
  match n.op with
  | .reduceMean [axis] => axis + 1 == rank
  | _ => false

/-- The value that all elements of a constant share. -/
def commonValue (l : Literal) : Option Float :=
  l.data[0]?.filter l.allEqual

def rule : Rule where
  pattern := pattern
  apply r := do
    let m ← Action.get
    let x ← r.get "x"
    let rank := (← m.get x).shape.rank
    let mean ← r.get "mean"
    let var ← r.get "var"
    if !reducesLastAxis rank (← m.get mean) || !reducesLastAxis rank (← m.get var) then
      Action.report (.otherAxisNormalized r.root)
      return false
    else match (← m.eval (← r.get "eps")).bind commonValue with
      | none => return false
      | some epsilon =>
        let post := Dominance.postOfModule m
        if !post.strictlyDominates r.root mean || !post.strictlyDominates r.root var then
          Action.report (.intermediatesEscape r.root)
          return false
        else
          let normalized ← Module.insert r.root (.layernorm epsilon) [x]
          let _ ← Module.replaceWith r.root normalized
          return true

end Layernorm

def layernorm : Pass :=
  ofRules "rewrite_layernorm" [Layernorm.rule]

end TensorGraph.Pass
