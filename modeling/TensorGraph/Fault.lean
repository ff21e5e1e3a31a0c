/-!
Faults are the ways a computation can break down without an answer: a count that no longer fits a
word, a buffer that no memory holds, a position outside its list, a handle whose value is gone. A
function that can break down returns `Except Fault`, so that its absence of faults is a statement
about its result.
-/
namespace TensorGraph

/-- A breakdown of a computation, as opposed to an error that the caller is told about. -/
inductive Fault where
  /-- A count, span or product does not fit a 64-bit word, or a difference is negative. -/
  | overflow
  | divisionByZero
  /-- A buffer would be longer than any can be. -/
  | capacity
  | outOfRange
  /-- A requirement between two arguments, such as equal lengths, does not hold. -/
  | requirement
  /-- A handle is used whose value was removed or never stored. -/
  | staleHandle (index : Nat)
  /-- A literal is built from `found` values, described by the text of its shape. -/
  | literalSize (found : Nat) (shape : String)
  | unbound (name : String)
deriving DecidableEq, Repr

/-- The text reported with a fault; faults of counts and positions have none. -/
def Fault.message? : Fault → Option String
  | .overflow | .divisionByZero | .capacity | .outOfRange | .requirement => none
  | .staleHandle index => some s!"arena: stale or foreign handle [{index}]"
  | .literalSize found shape =>
    some s!"Literal::new: invalid record: {found} values for shape \x7b{shape}\x7d"
  | .unbound name => some s!"no instruction bound to `{name}`"

def Fault.inRange {α : Type} : Option α → Except Fault α
  | some a => .ok a
  | none => .error .outOfRange

/-- The values from one position up to another, which both have to exist. -/
def Fault.slice {α : Type} (xs : List α) (start stop : Nat) : Except Fault (List α) :=
  if start ≤ stop ∧ stop ≤ xs.length then .ok ((xs.drop start).take (stop - start))
  else .error .outOfRange

/-- The list with another value at a position that has to exist. -/
def Fault.setAt {α : Type} (xs : List α) (i : Nat) (a : α) : Except Fault (List α) :=
  if i < xs.length then .ok (xs.set i a) else .error .outOfRange

end TensorGraph
