import TensorGraph.Fault

/-!
Storage under numbers that are never used twice. A value is stored under the next number, and
removing it leaves an empty place behind, so a number whose value is gone can always be told.
-/
namespace TensorGraph

structure Arena (α : Type) where
  slots : Array (Option α) := #[]
  live : Nat := 0
deriving Repr

namespace Arena

variable {α : Type}

def empty : Arena α := {}

def size (a : Arena α) : Nat :=
  a.live

def isEmpty (a : Arena α) : Bool :=
  a.live == 0

/-- The number that the next value is stored under. -/
def next (a : Arena α) : Nat :=
  a.slots.size

def append (a : Arena α) (value : α) : Arena α :=
  { slots := a.slots.push (some value), live := a.live + 1 }

def get? (a : Arena α) (i : Nat) : Option α :=
  a.slots[i]?.join

def contains (a : Arena α) (i : Nat) : Bool :=
  (a.get? i).isSome

/-- The value under a number that has to be in use. -/
def get (a : Arena α) (i : Nat) : Except Fault α :=
  match a.get? i with
  | some value => .ok value
  | none => .error (.staleHandle i)

def remove (a : Arena α) (i : Nat) : Arena α :=
  if a.contains i then { slots := a.slots.setIfInBounds i none, live := a.live - 1 } else a

def modify (a : Arena α) (i : Nat) (f : α → α) : Arena α :=
  { a with slots := a.slots.modify i (Option.map f) }

/-- Replaces the value under a number that has to be in use. -/
def set (a : Arena α) (i : Nat) (value : α) : Except Fault (Arena α) :=
  if a.contains i then .ok (a.modify i fun _ => value) else .error (.staleHandle i)

def mapIdx (a : Arena α) (f : Nat → α → α) : Arena α :=
  { a with slots := a.slots.mapIdx fun i => Option.map (f i) }

/-- The values with their numbers, in increasing order. -/
def entries (a : Arena α) : List (Nat × α) :=
  a.slots.toList.zipIdx.filterMap fun (slot, i) => slot.map fun value => (i, value)

end Arena
end TensorGraph
