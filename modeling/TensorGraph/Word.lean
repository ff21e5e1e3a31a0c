import TensorGraph.Fault

/-!
Lengths, strides and element counts are natural numbers below `Word.limit`. Operations come in
three kinds: the ones ending in `?` report a result that does not fit, the saturating one stops at
the largest word, and the plain ones fault.
-/
namespace TensorGraph.Word

def limit : Nat := Nat.pow 2 64

def signedLimit : Nat := Nat.pow 2 63

/-- How many values of eight bytes a buffer holds at most: its bytes are counted by a signed word. -/
def capacity : Nat := (signedLimit - 1) / 8

/-- Room for so many values of eight bytes, before the first of them is computed. -/
def reserve (count : Nat) : Except Fault Unit :=
  if count ≤ capacity then .ok () else .error .capacity

def add? (a b : Nat) : Option Nat :=
  if a + b < limit then some (a + b) else none

def mul? (a b : Nat) : Option Nat :=
  if a * b < limit then some (a * b) else none

/-- The product, or the largest word when the product does not fit. -/
def saturatingMul (a b : Nat) : Nat :=
  min (a * b) (limit - 1)

def add (a b : Nat) : Except Fault Nat :=
  if a + b < limit then .ok (a + b) else .error .overflow

def mul (a b : Nat) : Except Fault Nat :=
  if a * b < limit then .ok (a * b) else .error .overflow

/-- The difference, where the second number must not be larger. -/
def sub (a b : Nat) : Except Fault Nat :=
  if b ≤ a then .ok (a - b) else .error .overflow

def div (a b : Nat) : Except Fault Nat :=
  if b = 0 then .error .divisionByZero else .ok (a / b)

def rem (a b : Nat) : Except Fault Nat :=
  if b = 0 then .error .divisionByZero else .ok (a % b)

/-- The product from left to right, where every partial product has to fit. -/
def product (ns : List Nat) : Except Fault Nat :=
  ns.foldlM mul 1

/-- The sum from left to right, where every partial sum has to fit. -/
def sum (ns : List Nat) : Except Fault Nat :=
  ns.foldlM add 0

/-- The sum of the products of paired entries; the longer list is cut. -/
def dot (as bs : List Nat) : Except Fault Nat := do
  sum (← (as.zip bs).mapM fun (a, b) => mul a b)

/-- The signed reading of a word in two's complement. -/
def toSigned (n : Nat) : Int :=
  Int.bmod n limit

/-- The word with the same bits as a signed number. -/
def ofSigned (i : Int) : Nat :=
  (i % limit).toNat

/-- A result that has to be a signed word. -/
def signed (i : Int) : Except Fault Int :=
  if -(signedLimit : Int) ≤ i ∧ i < signedLimit then .ok i else .error .overflow

end TensorGraph.Word
