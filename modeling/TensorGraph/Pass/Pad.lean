import TensorGraph.Pass.Basic

/-!
Padding: a convolution of an input that is padded with zeros along spatial axes pads that much more
itself.
-/
namespace TensorGraph.Pass
namespace Pad

def splitPadding (axes : Nat) (padding : List Nat) : Option (List Nat × List Nat) :=
  if padding.length = axes then some (padding, padding)
  else if padding.length = 2 * axes then some (padding.take axes, padding.drop axes)
  else none

/-- The spatial begin and end amounts of a pad that leaves the first two axes alone. -/
def spatialPads (rank : Nat) (pads : List Nat) : Option (List Nat × List Nat) :=
  let first := pads.take rank
  let last := pads.drop rank
  if 2 ≤ rank ∧ pads.length = 2 * rank ∧ first.take 2 = [0, 0] ∧ last.take 2 = [0, 0] then
    some (first.drop 2, last.drop 2)
  else none

def addPads (as bs : List Nat) : Except Fault (List Nat) :=
  (as.zip bs).mapM fun (a, b) => Word.add a b

/-- The convolution that a convolution of a padded input can become, and its inputs. -/
def folded? (m : Module) (i : InstructionId) :
    Except Fault (Option (Operator × List InstructionId)) := do
  let n ← m.get i
  match n.op, n.inputs with
  | .convolution window, input :: rest =>
    let padded ← m.get input
    match padded.op with
    | .pad pads mode value =>
      if mode ≠ .constant || !(value == 0) then return none
      else
        let rank := padded.shape.rank
        match spatialPads rank pads, splitPadding (rank - 2) window.padding, padded.inputs with
        | some (first, last), some (before, after), x :: _ =>
          let padding := (← addPads before first) ++ (← addPads after last)
          return some (.convolution { window with padding := padding }, x :: rest)
        | some (first, last), some (before, after), [] =>
          let _ ← addPads before first
          let _ ← addPads after last
          return none
        | _, _, _ => return none
    | _ => return none
  | _, _ => return none

def fold (i : InstructionId) : Module.Edit Bool := do
  match ← folded? (← Action.get) i with
  | none => return false
  | some (op, inputs) =>
    let _ ← Module.replace i op inputs
    return true

end Pad

def padding : Pass where
  name := "eliminate_pad"
  run := do Action.anyOf Pad.fold (← Action.get).order

end TensorGraph.Pass
