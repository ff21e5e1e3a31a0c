import TensorGraph.Error
import TensorGraph.Json.Reader

/-!
Reading typed values out of documents. Everything is read in the order in which it is written, and
the first thing wrong decides the error, be it a defect of the text or a value that cannot be. A
field that is not known is passed over, a known one that is repeated is an error, and a record may
also be written as the list of its fields.
-/
namespace TensorGraph

inductive DecodeError where
  | malformed
  /-- It has the form, but there is no such value. -/
  | flawed (flaw : RecordFlaw)
  | broken (fault : Fault)
deriving DecidableEq, Repr

abbrev Decode (α : Type) := Except DecodeError α

inductive Reading where
  | direct
  /-- After it was set aside, because what it means became known only later. -/
  | deferred
deriving DecidableEq, Repr

namespace Decode

def malformed {α : Type} : Decode α :=
  .error .malformed

def word : Json → Decode Nat
  | .integer i => if 0 ≤ i ∧ i < Word.limit then .ok i.toNat else malformed
  | _ => malformed

def signedWord : Json → Decode Int
  | .integer i => if -(Word.signedLimit : Int) ≤ i ∧ i < Word.signedLimit then .ok i else malformed
  | _ => malformed

/-- A number; an integer is rounded to the nearest double. -/
def float : Json → Decode Float
  | .integer i => .ok (Float.ofInt i)
  | .real x => .ok x
  | _ => malformed

def text : Json → Decode String
  | .text s => .ok s
  | _ => malformed

def bool : Json → Decode Bool
  | .bool b => .ok b
  | _ => malformed

def list {α : Type} (item : Json → Decode α) : Json → Decode (List α)
  | .list items => items.mapM item
  | _ => malformed

/-- A name out of a fixed set, alone or as the only field of a record without content. -/
def name {α : Type} (r : Reading) (ofName? : String → Option α) (v : Json) : Decode α :=
  let named (s : String) : Decode α :=
    match ofName? s with
    | some a => .ok a
    | none => malformed
  match r, v with
  | _, .text s => named s
  | _, .record [(s, .null)] => named s
  | .deferred, .record [(s, .record [])] => named s
  | _, _ => malformed

/-- Passes over a field that is not known. Its name has to be readable, its value only well
formed. -/
def unknown (v : Json) : Decode Unit :=
  match v with
  | .defect .unnamed => malformed
  | v => if v.isPassable then .ok () else malformed

/-- Takes the fields of a record one after the other, or the items of a list under the names of the
fields. A list may leave out the last fields and has nothing after them. -/
def fields {δ : Type} (names : List String) (take : δ → String × Json → Decode δ) (start : δ) :
    Json → Decode δ
  | .record fields => fields.foldlM take start
  | .list items => do
    let d ← (names.zip items).foldlM take start
    if items.length ≤ names.length then .ok d else malformed
  | _ => malformed

/-- Reads a field that has not been read before. -/
def once {α : Type} (before : Option α) (item : Json → Decode α) (v : Json) : Decode (Option α) :=
  match before with
  | some _ => malformed
  | none => some <$> item v

def required {α : Type} : Option α → Decode α
  | some a => .ok a
  | none => malformed

def checked {α : Type} : Except Failure α → Decode α
  | .ok a => .ok a
  | .error (.refused (.invalidRecord flaw)) => .error (.flawed flaw)
  | .error (.refused _) => malformed
  | .error (.broken fault) => .error (.broken fault)

/-- Reads a text that holds one document. What follows the document is looked at last. -/
def document {α : Type} (decode : Json → Decode α) (text : String) : Decode α := do
  let d := Json.read text
  let a ← decode d.value
  if d.isWhole then return a else malformed

end Decode
end TensorGraph
