import TensorGraph.Decimal.Reading
import TensorGraph.Json.Basic

/-!
Reading a document from its text. The text is cut into tokens one character at a time, and the
tokens are assembled with a stack of the lists and records that are still open. Both passes are
folds, so reading ends on every text. A text that breaks off, or goes on in a way that no document
does, gives what was written up to there, with a defect at the end.
-/
namespace TensorGraph.Json

inductive Token where
  | openList
  | closeList
  | openRecord
  | closeRecord
  | comma
  | colon
  /-- A text, which is also how a field name is written, unless it holds half a character. -/
  | text (s : Option String)
  | atom (value : Json)
  | broken

def digits (cs : List Char) : List Nat × List Char :=
  ((cs.takeWhile Char.isDigit).map fun c => c.toNat - '0'.toNat, cs.dropWhile Char.isDigit)

def exponent? : List Char → Option (Option Int)
  | [] => some none
  | c :: cs =>
    if c = 'e' ∨ c = 'E' then
      let (negative, cs) := match cs with
        | '-' :: rest => (true, rest)
        | '+' :: rest => (false, rest)
        | rest => (false, rest)
      match digits cs with
      | ([], _) => none
      | (ds, []) =>
        let n : Nat := ds.foldl (fun acc d => acc * 10 + d) 0
        some (some (if negative then -(n : Int) else n))
      | (_, _ :: _) => none
    else none

/-- A numeral: no leading zeros, and digits on both sides of a point. -/
def numeral? (cs : List Char) : Option Decimal.Numeral := do
  let (negative, cs) := match cs with
    | '-' :: rest => (true, rest)
    | rest => (false, rest)
  let (whole, cs) := digits cs
  match whole with
  | [] => none
  | 0 :: _ :: _ => none
  | _ =>
    match cs with
    | '.' :: rest =>
      match digits rest with
      | ([], _) => none
      | (fraction, rest) => return ⟨negative, whole, some fraction, ← exponent? rest⟩
    | rest => return ⟨negative, whole, none, ← exponent? rest⟩

/-- A numeral that is an integer within a word stays one; any other is a real, unless it is too
large for one. -/
def number? (cs : List Char) : Option Json := do
  let n ← numeral? cs
  match n.toInt?, n.toFloat? with
  | some i, _ => return .integer i
  | none, some x => return .real x
  | none, none => return .defect .unreadable

def word? (cs : List Char) : Option Json :=
  match String.ofList cs with
  | "null" => some .null
  | "true" => some (.bool true)
  | "false" => some (.bool false)
  | _ => none

/-- The token being read. The characters of a text are kept last first, and there are none once it
holds half of a surrogate pair without the other; `high` is a first half that waits for the
other. -/
inductive Scan where
  | idle
  | word (seen : List Char)
  | number (seen : List Char)
  | text (seen : Option (List Char)) (high : Option Nat)
  | escape (seen : Option (List Char)) (high : Option Nat)
  | code (seen : Option (List Char)) (high : Option Nat) (digits : List Nat)
  | stuck

/-- The tokens read so far, last first, and the one being read. -/
structure Scanner where
  tokens : List Token
  scan : Scan

def punctuation? : Char → Option Token
  | '[' => some .openList
  | ']' => some .closeList
  | '{' => some .openRecord
  | '}' => some .closeRecord
  | ',' => some .comma
  | ':' => some .colon
  | _ => none

def isBlank (c : Char) : Bool :=
  c == ' ' || c == '\t' || c == '\n' || c == '\r'

def inNumeral (c : Char) : Bool :=
  c.isDigit || c == '-' || c == '+' || c == '.' || c == 'e' || c == 'E'

def breakOff (tokens : List Token) : Scanner :=
  ⟨.broken :: tokens, .stuck⟩

def beginToken (tokens : List Token) (c : Char) : Scanner :=
  if isBlank c then ⟨tokens, .idle⟩
  else if c = '"' then ⟨tokens, .text (some []) none⟩
  else if c = '-' ∨ c.isDigit then ⟨tokens, .number [c]⟩
  else if c.isLower then ⟨tokens, .word [c]⟩
  else match punctuation? c with
    | some t => ⟨t :: tokens, .idle⟩
    | none => breakOff tokens

/-- The scanner once the token being read has come to its end. -/
def Scanner.finish (s : Scanner) : Scanner :=
  let atom (value : Option Json) : Scanner :=
    match value with
    | some v => ⟨.atom v :: s.tokens, .idle⟩
    | none => breakOff s.tokens
  match s.scan with
  | .idle | .stuck => s
  | .word seen => atom (word? seen.reverse)
  | .number seen => atom (number? seen.reverse)
  | .text .. | .escape .. | .code .. => breakOff s.tokens

def escaped? : Char → Option Char
  | '"' => some '"'
  | '\\' => some '\\'
  | '/' => some '/'
  | 'b' => some '\x08'
  | 'f' => some '\x0c'
  | 'n' => some '\n'
  | 'r' => some '\r'
  | 't' => some '\t'
  | _ => none

def hex? (c : Char) : Option Nat :=
  if c.isDigit then some (c.toNat - '0'.toNat)
  else if 'a' ≤ c ∧ c ≤ 'f' then some (c.toNat - 'a'.toNat + 10)
  else if 'A' ≤ c ∧ c ≤ 'F' then some (c.toNat - 'A'.toNat + 10)
  else none

/-- The characters of a text and one more, which a first half that still waits does not allow. -/
def appendChar (seen : Option (List Char)) (high : Option Nat) (c : Char) : Option (List Char) :=
  if high.isSome then none else seen.map fun cs => c :: cs

/-- Goes on after a code of four hexadecimal digits. The halves of a pair have to meet. -/
def afterCode (seen : Option (List Char)) (high : Option Nat) (n : Nat) : Scan :=
  let isHigh := 0xD800 ≤ n ∧ n < 0xDC00
  let isLow := 0xDC00 ≤ n ∧ n < 0xE000
  match high with
  | some h =>
    if isLow then
      let c := Char.ofNat (0x10000 + (h - 0xD800) * 0x400 + (n - 0xDC00))
      .text (appendChar seen none c) none
    else .text none none
  | none =>
    if isHigh then .text seen (some n)
    else if isLow then .text none none
    else .text (appendChar seen none (Char.ofNat n)) none

def Scanner.step (s : Scanner) (c : Char) : Scanner :=
  let beginAfter (t : Scanner) : Scanner :=
    match t.scan with
    | .stuck => t
    | _ => beginToken t.tokens c
  match s.scan with
  | .stuck => s
  | .idle => beginToken s.tokens c
  | .word seen =>
    if c.isLower then ⟨s.tokens, .word (c :: seen)⟩ else beginAfter s.finish
  | .number seen =>
    if inNumeral c then ⟨s.tokens, .number (c :: seen)⟩ else beginAfter s.finish
  | .text seen high =>
    if c = '\\' then ⟨s.tokens, .escape seen high⟩
    else if c = '"' then
      let whole := if high.isSome then none else seen.map fun cs => String.ofList cs.reverse
      ⟨.text whole :: s.tokens, .idle⟩
    else if c.toNat < 0x20 then breakOff s.tokens
    else ⟨s.tokens, .text (appendChar seen high c) none⟩
  | .escape seen high =>
    if c = 'u' then ⟨s.tokens, .code seen high []⟩
    else match escaped? c with
      | some d => ⟨s.tokens, .text (appendChar seen high d) none⟩
      | none => breakOff s.tokens
  | .code seen high ds =>
    match hex? c with
    | some d =>
      let ds := ds ++ [d]
      if ds.length < 4 then ⟨s.tokens, .code seen high ds⟩
      else ⟨s.tokens, afterCode seen high (ds.foldl (fun acc d => acc * 16 + d) 0)⟩
    | none => breakOff s.tokens

def tokens (cs : List Char) : List Token :=
  (cs.foldl Scanner.step ⟨[], .idle⟩).finish.tokens.reverse

/-- A list or record that is still open, with its entries last first. The field being read has a
name, unless that is unreadable. -/
inductive Frame where
  | list (items : List Json)
  | record (fields : List (String × Json)) (name : Option String)

inductive Expected where
  | value
  | valueOrClose
  | name
  | nameOrClose
  | colon
  | commaOrClose

/-- What a text holds: the value that it starts with, and whether only blanks follow. -/
structure Document where
  value : Json
  isWhole : Bool

inductive Assembly where
  | running (frames : List Frame) (expected : Expected)
  | done (document : Document)

/-- Lists and records that are nested deeper than this are unreadable. -/
def maxDepth : Nat := 127

/-- The field of a record. One whose name is unreadable does not keep its value. -/
def fieldOf (name : Option String) (value : Json) : String × Json :=
  match name with
  | some s => (s, value)
  | none => ("", .defect (if value.isPassable then .unnamed else .malformed))

/-- Hands a complete value to the innermost open list or record. -/
def supply (value : Json) : List Frame → Assembly
  | [] => .done ⟨value, true⟩
  | .list items :: rest => .running (.list (value :: items) :: rest) .commaOrClose
  | .record fields name :: rest =>
    .running (.record (fieldOf name value :: fields) (some "") :: rest) .commaOrClose

/-- A list or record that stands in the given open ones. -/
def nested (outer : List Frame) (value : Json) : Json :=
  if outer.length < maxDepth then value else .defect .unreadable

/-- The value of a text that breaks off with the given lists and records open. -/
def abandon (value : Json) : List Frame → Json
  | [] => value
  | frame :: outer =>
    let whole := match frame with
      | .list items => .list (value :: items).reverse
      | .record fields name => .record (fieldOf name value :: fields).reverse
    abandon (if outer.length < maxDepth then whole else .defect .malformed) outer

/-- What is left when a token comes that does not belong there. -/
def stop (frames : List Frame) : Assembly :=
  .done ⟨abandon (.defect .malformed) frames, false⟩

def closeList : List Frame → Assembly
  | .list items :: outer => supply (nested outer (.list items.reverse)) outer
  | frames => stop frames

def closeRecord : List Frame → Assembly
  | .record fields _ :: outer => supply (nested outer (.record fields.reverse)) outer
  | frames => stop frames

def takeName (name : Option String) : List Frame → Assembly
  | .record fields _ :: outer => .running (.record fields name :: outer) .colon
  | frames => stop frames

def takeValue (frames : List Frame) : Token → Assembly
  | .openList => .running (.list [] :: frames) .valueOrClose
  | .openRecord => .running (.record [] (some "") :: frames) .nameOrClose
  | .text (some s) => supply (.text s) frames
  | .text none => supply (.defect .unreadable) frames
  | .atom v => supply v frames
  | _ => stop frames

def Assembly.step : Assembly → Token → Assembly
  | .done d, _ => .done { d with isWhole := false }
  | .running frames .value, t => takeValue frames t
  | .running frames .valueOrClose, .closeList => closeList frames
  | .running frames .valueOrClose, t => takeValue frames t
  | .running frames .name, .text s => takeName s frames
  | .running frames .nameOrClose, .text s => takeName s frames
  | .running frames .nameOrClose, .closeRecord => closeRecord frames
  | .running frames .colon, .colon => .running frames .value
  | .running frames .commaOrClose, .closeList => closeList frames
  | .running frames .commaOrClose, .closeRecord => closeRecord frames
  | .running frames .commaOrClose, .comma =>
    match frames with
    | .list _ :: _ => .running frames .value
    | .record .. :: _ => .running frames .name
    | [] => stop frames
  | .running frames _, _ => stop frames

def Assembly.finish : Assembly → Document
  | .done d => d
  | .running frames _ => ⟨abandon (.defect .malformed) frames, false⟩

def read (s : String) : Document :=
  ((tokens s.toList).foldl Assembly.step (.running [] .value)).finish

/-- The document that a text writes, if it writes one and nothing else. -/
def parse? (s : String) : Option Json :=
  let d := read s
  if d.isWhole && d.value.isReadable then some d.value else none

end TensorGraph.Json
