/-!
Structured documents. Integers and reals are told apart, and a record keeps its fields in the order
in which they were written, with repetitions. A document that was read from a text may have defects:
places where the text has no value. They stand where they were found, so that whoever goes through
the document in order meets what comes before them first.
-/
namespace TensorGraph

inductive Defect where
  /-- What is written there is well formed and denotes nothing. It can be passed over. -/
  | unreadable
  /-- The same of the name of a field. The record can be passed over as a whole. -/
  | unnamed
  /-- The text is no document from there on. -/
  | malformed
deriving DecidableEq, Repr

inductive Json where
  | null
  | bool (b : Bool)
  | integer (i : Int)
  | real (x : Float)
  | text (s : String)
  | list (items : List Json)
  | record (fields : List (String × Json))
  | defect (d : Defect)
deriving Repr

namespace Json

instance : Inhabited Json := ⟨.null⟩

def ofNat (n : Nat) : Json := .integer n

/-- A number, or `null` for a value that is no finite number. -/
def ofFloat (x : Float) : Json :=
  if x.isFinite then .real x else .null

def ofList {α : Type} (f : α → Json) (xs : List α) : Json :=
  .list (xs.map f)

def ofOption {α : Type} (f : α → Json) : Option α → Json
  | some a => f a
  | none => .null

/-- The last field of that name. -/
def get? (name : String) : Json → Option Json
  | .record fields => (fields.reverse.find? fun f => f.1 == name).map Prod.snd
  | _ => none

mutual

/-- Every defect in the document is one of those. -/
def defectsAll (p : Defect → Bool) : Json → Bool
  | .defect d => p d
  | .list items => defectsAllItems p items
  | .record fields => defectsAllFields p fields
  | _ => true

def defectsAllItems (p : Defect → Bool) : List Json → Bool
  | [] => true
  | v :: rest => v.defectsAll p && defectsAllItems p rest

def defectsAllFields (p : Defect → Bool) : List (String × Json) → Bool
  | [] => true
  | (_, v) :: rest => v.defectsAll p && defectsAllFields p rest

end

/-- The document is well formed throughout, so that one can go on after it without reading it. -/
def isPassable (v : Json) : Bool :=
  v.defectsAll fun d => d != .malformed

def isReadable (v : Json) : Bool :=
  v.defectsAll fun _ => false

end Json
end TensorGraph
