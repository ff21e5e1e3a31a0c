import TensorGraph.Module.Evaluation

/-!
Patterns over instructions and what they are used by and made of. A pattern can bind the instruction
it matches to a name, which must not stand for another one when the match begins. A match that fails
leaves the bindings as they were.
-/
namespace TensorGraph

inductive Pattern where
  | any
  | name (n : String)
  | nameAny (names : List String)
  /-- The value is constant and every element equals `x`. -/
  | hasValue (x : Float)
  | isConstant
  | usedOnce
  | standardShape
  | sameShapeAsInput (i : Nat)
  | arg (i : Nat) (p : Pattern)
  /-- The inputs match one by one, and there are no others. -/
  | args (ps : List Pattern)
  /-- The first pattern that matches is taken. -/
  | anyOf (ps : List Pattern)
  | allOf (ps : List Pattern)
  | noneOf (ps : List Pattern)
  | skipBroadcasts (p : Pattern)
  | bind (p : Pattern) (name : String)
deriving Repr

namespace Pattern

def and (p q : Pattern) : Pattern :=
  .allOf [p, q]

def or (p q : Pattern) : Pattern :=
  .anyOf [p, q]

/-- Two inputs match two patterns, one way or the other. -/
def eitherArg (i j : Nat) (p q : Pattern) : Pattern :=
  ((arg i p).and (arg j q)).or ((arg i q).and (arg j p))

end Pattern

abbrev Bindings := List (String × InstructionId)

def Bindings.bind (b : Bindings) (name : String) (i : InstructionId) : Bindings :=
  (name, i) :: b.filter fun e => e.1 ≠ name

namespace Pattern

/-- Whether a pattern matched, and the bindings afterwards. -/
abbrev Tested := Except Fault (Bool × Bindings)

/-- Fails where there is no instruction, and takes the bindings back on failure. -/
def guarded (m : Module) (i : InstructionId) (before : Bindings) (test : Tested) : Tested :=
  if !m.contains i then .ok (false, before)
  else do
    match ← test with
    | (true, after) => return (true, after)
    | (false, _) => return (false, before)

/-- The instruction under broadcasting views of one input, going through at most so many. -/
def underBroadcasts (m : Module) : Nat → InstructionId → Except Fault InstructionId
  | 0, i => .ok i
  | views + 1, i => do
    let n ← m.get i
    match n.op.isBroadcast, n.inputs with
    | true, [input] => underBroadcasts m views input
    | _, _ => return i

mutual

def test (m : Module) : Pattern → InstructionId → Bindings → Tested
  | any, _, b => .ok (true, b)
  | name n, i, b => do return ((← m.get i).name == n, b)
  | nameAny names, i, b => do return (names.contains (← m.get i).name, b)
  | hasValue x, i, b => do return ((← m.eval i).any (·.allEqual x), b)
  | isConstant, i, b => do return ((← m.eval i).isSome, b)
  | usedOnce, i, b => do return ((← m.get i).users.length == 1, b)
  | standardShape, i, b => do return (← (← m.get i).shape.isStandard, b)
  | sameShapeAsInput k, i, b => do
    let n ← m.get i
    match n.inputs[k]? with
    | none => return (false, b)
    | some input => return ((← m.get input).shape == n.shape, b)
  | arg k p, i, b => do
    match (← m.get i).inputs[k]? with
    | none => return (false, b)
    | some input => guarded m input b (test m p input b)
  | args ps, i, b => do
    let inputs := (← m.get i).inputs
    if inputs.length ≠ ps.length then return (false, b) else testArgs m ps inputs b
  | anyOf ps, i, b => testAny m ps i b
  | allOf ps, i, b => do
    match ← testAll m ps i b with
    | (true, after) => return (true, after)
    | (false, _) => return (false, b)
  | noneOf ps, i, b => do
    let (found, _) ← testAny m ps i b
    return (!found, b)
  | skipBroadcasts p, i, b => do
    let j ← underBroadcasts m (m.instructions.size + 1) i
    guarded m j b (test m p j b)
  | bind p n, i, b =>
    if (b.lookup n).any (· ≠ i) then .ok (false, b)
    else do
      match ← guarded m i b (test m p i b) with
      | (true, after) => return (true, after.bind n i)
      | (false, after) => return (false, after)

def testArgs (m : Module) : List Pattern → List InstructionId → Bindings → Tested
  | p :: ps, i :: is, b => do
    match ← guarded m i b (test m p i b) with
    | (true, after) => testArgs m ps is after
    | (false, after) => return (false, after)
  | _, _, b => .ok (true, b)

def testAny (m : Module) : List Pattern → InstructionId → Bindings → Tested
  | [], _, b => .ok (false, b)
  | p :: ps, i, b => do
    match ← guarded m i b (test m p i b) with
    | (true, after) => return (true, after)
    | (false, after) => testAny m ps i after

def testAll (m : Module) : List Pattern → InstructionId → Bindings → Tested
  | [], _, b => .ok (true, b)
  | p :: ps, i, b => do
    match ← guarded m i b (test m p i b) with
    | (true, after) => testAll m ps i after
    | (false, after) => return (false, after)

end

/-- Whether an instruction matches, starting from bindings; they grow on success and stay the same
on failure. -/
def matches? (p : Pattern) (m : Module) (i : InstructionId) (b : Bindings) : Tested :=
  guarded m i b (p.test m i b)

end Pattern
end TensorGraph
