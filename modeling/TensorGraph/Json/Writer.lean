import TensorGraph.Decimal.Text
import TensorGraph.Json.Basic

/-!
Writing a document, either without blanks or with one entry a line and an indent of two. Fields
keep their order, and only quotes, backslashes and control characters are escaped. A defect has no
text of its own and is written as `null`.
-/
namespace TensorGraph.Json

def hexDigit (n : Nat) : Char :=
  (Nat.digitChar n)

def escape (c : Char) : String :=
  match c with
  | '"' => "\\\""
  | '\\' => "\\\\"
  | '\n' => "\\n"
  | '\r' => "\\r"
  | '\t' => "\\t"
  | '\x08' => "\\b"
  | '\x0c' => "\\f"
  | c =>
    if c.toNat < 0x20 then
      "\\u00" ++ String.ofList [hexDigit (c.toNat / 16), hexDigit (c.toNat % 16)]
    else String.ofList [c]

def quote (s : String) : String :=
  "\"" ++ String.join (s.toList.map escape) ++ "\""

def atomText : Json → String
  | .null | .defect _ => "null"
  | .bool b => if b then "true" else "false"
  | .integer i => toString i
  | .real x => Decimal.recordText x
  | .text s => quote s
  | .list _ => "[]"
  | .record _ => "\x7b\x7d"

mutual

def compact : Json → String
  | .list items => "[" ++ String.intercalate "," (compactItems items) ++ "]"
  | .record fields => "\x7b" ++ String.intercalate "," (compactFields fields) ++ "\x7d"
  | v => atomText v

def compactItems : List Json → List String
  | [] => []
  | v :: rest => compact v :: compactItems rest

def compactFields : List (String × Json) → List String
  | [] => []
  | (name, v) :: rest => (quote name ++ ":" ++ compact v) :: compactFields rest

end

def block (opening closing indent : String) (entries : List String) : String :=
  match entries with
  | [] => opening ++ closing
  | _ =>
    let inner := indent ++ "  "
    let lines := String.intercalate (",\n" ++ inner) entries
    opening ++ "\n" ++ inner ++ lines ++ "\n" ++ indent ++ closing

mutual

/-- The document with one entry a line, below an indent. -/
def prettyAt (indent : String) : Json → String
  | .list items => block "[" "]" indent (prettyItems (indent ++ "  ") items)
  | .record fields => block "\x7b" "\x7d" indent (prettyFields (indent ++ "  ") fields)
  | v => atomText v

def prettyItems (indent : String) : List Json → List String
  | [] => []
  | v :: rest => prettyAt indent v :: prettyItems indent rest

def prettyFields (indent : String) : List (String × Json) → List String
  | [] => []
  | (name, v) :: rest => (quote name ++ ": " ++ prettyAt indent v) :: prettyFields indent rest

end

def pretty (v : Json) : String :=
  prettyAt "" v

end TensorGraph.Json
