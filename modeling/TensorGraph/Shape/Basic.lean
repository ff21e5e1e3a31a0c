import TensorGraph.ElementType
import TensorGraph.Word

/-!
Shapes of tensor values. A static shape has lengths and strides, counted in elements; a dynamic one
has a range for each axis instead; a tuple has sub-shapes and no axes. Counts are words, so the
functions that multiply lengths or strides can fault, and `addressable` says when they cannot.
-/
namespace TensorGraph

/-- An axis whose length is known to lie in a range, with lengths to tune for. -/
structure DynamicDimension where
  min : Nat
  max : Nat
  optimals : List Nat := []
deriving DecidableEq, Repr

namespace DynamicDimension

def fixed (len : Nat) : DynamicDimension :=
  { min := len, max := len }

def isFixed (d : DynamicDimension) : Bool :=
  d.min == d.max

end DynamicDimension

structure Shape where
  elementType : ElementType
  lens : List Nat := []
  strides : List Nat := []
  dynamicDims : List DynamicDimension := []
  subShapes : List Shape := []
deriving Repr

namespace Shape

mutual

def decideEq : (a b : Shape) → Decidable (a = b)
  | ⟨t, l, s, d, u⟩, ⟨t', l', s', d', u'⟩ =>
    if h : t = t' ∧ l = l' ∧ s = s' ∧ d = d' then
      match decideEqList u u' with
      | isTrue hu => isTrue (by obtain ⟨rfl, rfl, rfl, rfl⟩ := h; rw [hu])
      | isFalse hu => isFalse (by intro e; injection e; contradiction)
    else isFalse (by intro e; injection e; exact h ⟨‹_›, ‹_›, ‹_›, ‹_›⟩)

def decideEqList : (as bs : List Shape) → Decidable (as = bs)
  | [], [] => isTrue rfl
  | [], _ :: _ => isFalse (by simp)
  | _ :: _, [] => isFalse (by simp)
  | a :: as, b :: bs =>
    match decideEq a b, decideEqList as bs with
    | isTrue h, isTrue hs => isTrue (by rw [h, hs])
    | isFalse h, _ => isFalse (by intro e; injection e; contradiction)
    | _, isFalse hs => isFalse (by intro e; injection e; contradiction)

end

instance : DecidableEq Shape := decideEq

/-- Row-major strides. An empty axis counts as one, and products stop at the largest word. -/
def standardStrides : List Nat → List Nat
  | [] => []
  | [_] => [1]
  | _ :: len :: rest =>
    match standardStrides (len :: rest) with
    | [] => []
    | stride :: strides => Word.saturatingMul stride (max len 1) :: stride :: strides

def packedOf (t : ElementType) (lens : List Nat) : Shape :=
  { elementType := t, lens := lens, strides := standardStrides lens }

/-- A shape with strides of its own, one for each length. -/
def strided (t : ElementType) (lens strides : List Nat) : Except Fault Shape :=
  if lens.length = strides.length then .ok { elementType := t, lens := lens, strides := strides }
  else .error .requirement

def scalar (t : ElementType) : Shape :=
  packedOf t [1]

def dynamic (t : ElementType) (dims : List DynamicDimension) : Shape :=
  { elementType := t, dynamicDims := dims }

def tuple (subs : List Shape) : Shape :=
  { elementType := .tuple, subShapes := subs }

def isTuple (s : Shape) : Bool :=
  s.elementType == .tuple

def isDynamic (s : Shape) : Bool :=
  !s.dynamicDims.isEmpty

def rank (s : Shape) : Nat :=
  if s.isDynamic then s.dynamicDims.length else s.lens.length

/-- The number of elements. Tuples, dynamic shapes and shapes without axes count none. -/
def elements (s : Shape) : Except Fault Nat :=
  if s.isTuple || s.isDynamic || s.lens.isEmpty then .ok 0 else Word.product s.lens

/-- The number of elements of memory between the first and the last one used. -/
def elementSpace (s : Shape) : Except Fault Nat := do
  if (← s.elements) = 0 then return 0
  Word.add (← Word.dot (← s.lens.mapM (Word.sub · 1)) s.strides) 1

mutual

def bytes : Shape → Except Fault Nat
  | ⟨t, lens, strides, dims, subs⟩ =>
    if t = .tuple then bytesSum 0 subs
    else do Word.mul (← elementSpace ⟨t, lens, strides, dims, subs⟩) t.size

def bytesSum (total : Nat) : List Shape → Except Fault Nat
  | [] => .ok total
  | s :: rest => do bytesSum (← Word.add total (← s.bytes)) rest

end

mutual

/-- Whether the element count, the memory span and its size in bytes fit a word, where an empty axis
counts as one. -/
def addressable : Shape → Bool
  | ⟨t, lens, strides, _, subs⟩ =>
    if t = .tuple then addressableAll subs
    else
      let count := lens.foldlM (fun n len => Word.mul? n (max len 1)) 1
      let span := (lens.zip strides).foldlM
        (fun n (len, stride) => (Word.mul? (len - 1) stride).bind (Word.add? · n)) 1
      count.isSome && (span.bind (Word.mul? · t.size)).isSome

def addressableAll : List Shape → Bool
  | [] => true
  | s :: rest => s.addressable && addressableAll rest

end

def isBroadcasted (s : Shape) : Bool :=
  !s.isDynamic && s.strides.contains 0

/-- Some later stride is larger than the one before, leaving out unit axes and strides of zero. -/
def isTransposed (s : Shape) : Bool :=
  let strides := ((s.lens.zip s.strides).filter fun (len, stride) => len != 1 && stride != 0).map
    Prod.snd
  (strides.zip strides.tail).any fun (a, b) => a < b

/-- The elements fill their memory span. -/
def isPacked (s : Shape) : Except Fault Bool := do
  if s.isDynamic || s.isTuple || s.isBroadcasted then return false
  return (← s.elements) == (← s.elementSpace)

def isStandard (s : Shape) : Except Fault Bool := do
  return (← s.isPacked) && !s.isTransposed

def withLens (s : Shape) (lens : List Nat) : Shape :=
  packedOf s.elementType lens

def withType (s : Shape) (t : ElementType) : Shape :=
  { s with elementType := t }

/-- The row-major shape with the same lengths; tuples and dynamic shapes have no other layout. -/
def asStandard (s : Shape) : Shape :=
  if s.isDynamic || s.isTuple then s else packedOf s.elementType s.lens

def toDynamic (s : Shape) : Shape :=
  if s.isDynamic || s.isTuple then s else dynamic s.elementType (s.lens.map .fixed)

/-- The lengths, or the upper ends of the ranges. -/
def maxLens (s : Shape) : List Nat :=
  if s.isDynamic then s.dynamicDims.map (·.max) else s.lens

/-- The row-major index of the `i`-th element over axes of the given lengths, and what is left of
`i` beyond the first axis. -/
def unravel (lens : List Nat) (i : Nat) : List Nat × Nat :=
  lens.foldr (fun len (idx, i) => (i % max len 1 :: idx, i / max len 1)) ([], i)

def multiIndex (s : Shape) (i : Nat) : List Nat :=
  (unravel s.lens i).1

/-- The place in memory of an index. -/
def offset (s : Shape) (idx : List Nat) : Except Fault Nat :=
  Word.dot idx s.strides

end Shape
end TensorGraph
