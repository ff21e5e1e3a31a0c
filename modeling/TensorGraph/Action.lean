import TensorGraph.Error
import TensorGraph.Event

/-!
Computations that change a state and report events. A computation that fails still leaves the state
it had reached, so that what a failure leaves behind can be stated; and its outcome depends only on
the state it starts from, never on what was reported before.
-/
namespace TensorGraph

/-- How a computation ended, where it left the state, and what it reported, first event first. -/
structure Outcome (ε σ α : Type) where
  result : Except ε α
  state : σ
  events : List Event := []

/-- A computation on a state, which fails with an `ε`. -/
def Action (ε σ α : Type) : Type :=
  σ → Outcome ε σ α

namespace Action

variable {ε σ τ α β : Type}

def run (x : Action ε σ α) (s : σ) : Outcome ε σ α :=
  x s

def pure (a : α) : Action ε σ α := fun s =>
  { result := .ok a, state := s }

/-- The second computation starts where the first one left the state, unless that failed. -/
def bind (x : Action ε σ α) (f : α → Action ε σ β) : Action ε σ β := fun s =>
  let first := x s
  match first.result with
  | .error e => { result := .error e, state := first.state, events := first.events }
  | .ok a =>
    let second := f a first.state
    { second with events := first.events ++ second.events }

instance : Monad (Action ε σ) where
  pure := Action.pure
  bind := Action.bind

/-- Ends with a result or a failure, without touching the state. -/
def ofExcept (r : Except ε α) : Action ε σ α := fun s =>
  { result := r, state := s }

instance : MonadLift (Except ε) (Action ε σ) := ⟨ofExcept⟩

instance : MonadLift (Except Fault) (Action Failure σ) where
  monadLift r := ofExcept (r.mapError .broken)

def refuse (error : GraphError) : Action Failure σ α :=
  ofExcept (.error (.refused error))

def get : Action ε σ σ := fun s =>
  { result := .ok s, state := s }

def set (s : σ) : Action ε σ Unit := fun _ =>
  { result := .ok (), state := s }

def modify (f : σ → σ) : Action ε σ Unit := fun s =>
  { result := .ok (), state := f s }

def report (e : Event) : Action ε σ Unit := fun s =>
  { result := .ok (), state := s, events := [e] }

/-- Takes a step for each member of a list and tells whether one of them said so. -/
def anyOf (step : β → Action ε σ Bool) : List β → Action ε σ Bool
  | [] => return false
  | b :: rest => do
    let first ← step b
    let others ← anyOf step rest
    return first || others

def mapError {δ : Type} (f : ε → δ) (x : Action ε σ α) : Action δ σ α := fun s =>
  let inner := x s
  { result := inner.result.mapError f, state := inner.state, events := inner.events }

def onPart (part : σ → Except ε τ) (put : τ → σ → σ) (x : Action ε τ α) : Action ε σ α := fun s =>
  match part s with
  | .error e => { result := .error e, state := s }
  | .ok t =>
    let inner := x t
    { result := inner.result, state := put inner.state s, events := inner.events }

end Action
end TensorGraph
