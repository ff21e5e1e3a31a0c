import TensorGraph.Operator.Basic

/-!
Shape inference: the output shape of an operator, from the shapes of its inputs and, for control
flow, from the output shapes of the sub-modules. A result whose size does not fit a word is refused,
so an inferred shape is addressable.
-/
namespace TensorGraph.Operator
namespace Inference

abbrev Infer (α : Type) := Except Failure α

abbrev Check := String → List Shape → Infer Unit

def fail {α : Type} (op : String) (cause : InferenceError) : Infer α :=
  refuse (.shape op cause)

def has (n : Nat) : Check := fun op inputs =>
  if inputs.length = n then .ok () else fail op (.inputCount n inputs.length)

def hasBetween (low high : Nat) : Check := fun op inputs =>
  if low ≤ inputs.length ∧ inputs.length ≤ high then .ok ()
  else fail op (.inputCountBetween low high inputs.length)

def hasAtLeast (low : Nat) : Check := fun op inputs =>
  if low ≤ inputs.length then .ok () else fail op (.inputCountAtLeast low inputs.length)

/-- No input satisfies `bad`; the first that does is reported. -/
def without (bad : Shape → Bool) (cause : Shape → InferenceError) : Check := fun op inputs =>
  match inputs.find? bad with
  | some s => fail op (cause s)
  | none => .ok ()

def notTuple : Check :=
  without Shape.isTuple .tupleInput

def onlyStatic : Check := fun op inputs => do
  notTuple op inputs
  without Shape.isDynamic .dynamicInput op inputs

def minRank (n : Nat) : Check :=
  without (fun s => s.rank < n) (.rankTooLow n)

/-- All inputs agree with the first on a property; the first that does not is reported. -/
def agree {α : Type} [DecidableEq α] (property : Shape → α)
    (cause : Shape → Shape → InferenceError) : Check := fun op inputs =>
  match inputs with
  | [] => .ok ()
  | first :: _ => without (fun s => property s ≠ property first) (cause first) op inputs

def sameType : Check :=
  agree Shape.elementType fun a b => .typeMismatch a.elementType b.elementType

def sameRank : Check :=
  agree Shape.rank .rankMismatch

def sameLens : Check :=
  agree Shape.lens .lengthMismatch

def sameDims : Check := fun op inputs => do
  notTuple op inputs
  agree (fun s => s.toDynamic.dynamicDims) .dimensionMismatch op inputs

/-- The layout that all inputs share if they are packed, and row-major otherwise. -/
def pointwiseShape (inputs : List Shape) : Infer Shape := do
  let first ← Fault.inRange inputs.head?
  if first.isDynamic then return first
  if ← inputs.allM fun s => do return (← s.isPacked) && s.strides == first.strides then return first
  return first.asStandard

def permute {α : Type} (permutation : List Nat) (xs : List α) : Infer (List α) :=
  permutation.mapM fun p => Fault.inRange xs[p]?

def isPermutation (permutation : List Nat) (rank : Nat) : Bool :=
  permutation.length == rank && permutation.all (· < rank) && decide permutation.Nodup

def transposeShape (op : String) (input : Shape) (permutation : List Nat) : Infer Shape := do
  if !isPermutation permutation input.rank then fail op (.notPermutation permutation input.rank)
  else if input.isDynamic then
    return Shape.dynamic input.elementType (← permute permutation input.dynamicDims)
  else
    Shape.strided input.elementType (← permute permutation input.lens)
      (← permute permutation input.strides)

/-- The length that an entry of a reshape asks for; an inferred one counts as one for now. -/
def requestedLen (op : String) (input : Shape) (axis : Nat) (d : Int) : Infer Nat :=
  if d = 0 then
    match input.lens[axis]? with
    | some len => .ok len
    | none => fail op (.missingAxis axis)
  else if d = -1 then .ok 1
  else if 0 < d then .ok d.toNat
  else fail op (.invalidDimension d)

/-- What known lengths leave of the elements, where there is no remainder. -/
def inferredLen (op : String) (elements known : Nat) (dims : List Int) : Infer Nat := do
  if known = 0 then fail op (.cannotInfer elements dims)
  else if (← Word.rem elements known) ≠ 0 then fail op (.cannotInfer elements dims)
  else Word.div elements known

def completedLens (op : String) (dims : List Int) (lens : List Nat) (elements known : Nat) :
    Infer (List Nat) :=
  match dims.idxOf? (-1) with
  | some axis => do Fault.setAt lens axis (← inferredLen op elements known dims)
  | none => .ok lens

def reshapeShape (op : String) (input : Shape) (dims : List Int) : Infer Shape := do
  if 1 < dims.count (-1) then fail op .severalInferred
  else
    let lens ← dims.zipIdx.mapM fun (d, axis) => requestedLen op input axis d
    match lens.foldlM Word.mul? 1 with
    | none => fail op (.dimensionsOverflow dims)
    | some known =>
      let elements ← input.elements
      let lens ← completedLens op dims lens elements known
      let out := input.withLens lens
      if (← out.elements) = elements then return out
      else fail op (.cannotReshape elements lens)

def standAt (lens : List Nat) (axis rank : Nat) (outLens : List Nat) : Except Fault Bool :=
  match Word.add? axis rank with
  | some stop =>
    if stop ≤ outLens.length then do return lens == (← Fault.slice outLens axis stop)
    else .ok false
  | none => .ok false

def broadcastShape (op : String) (input : Shape) (axis : Nat) (outLens : List Nat) :
    Infer Shape := do
  let rank := input.rank
  if ← standAt input.lens axis rank outLens then
    let after := outLens.length - (axis + rank)
    Shape.strided input.elementType outLens
      (List.replicate axis 0 ++ input.strides ++ List.replicate after 0)
  else fail op (.doesNotFit input.lens outLens axis)

/-- The stride of an axis that is kept or repeated, behind so many new axes. -/
def repeatedStride (op : String) (input : Shape) (outLens : List Nat) (added axis : Nat) :
    Infer Nat := do
  let len ← Fault.inRange input.lens[axis]?
  let outLen ← Fault.inRange outLens[added + axis]?
  if len = outLen then Fault.inRange input.strides[axis]?
  else if len = 1 then return 0
  else fail op (.notBroadcastable input.lens outLens)

def multibroadcastShape (op : String) (input : Shape) (outLens : List Nat) : Infer Shape := do
  let rank := input.rank
  if outLens.length < rank then fail op (.rankTooHigh rank outLens.length)
  else
    let added ← Word.sub outLens.length rank
    let strides ← (List.range rank).mapM (repeatedStride op input outLens added)
    Shape.strided input.elementType outLens (List.replicate added 0 ++ strides)

def paddedLen (op : String) (input : Shape) (pads : List Nat) (axis : Nat) : Infer Nat := do
  let len ← Fault.inRange input.lens[axis]?
  let first ← Fault.inRange pads[axis]?
  let last ← Fault.inRange pads[axis + input.rank]?
  match (Word.add? len first).bind (Word.add? · last) with
  | some padded => return padded
  | none => fail op (.padOverflow pads)

def padShape (op : String) (input : Shape) (pads : List Nat) : Infer Shape := do
  let rank := input.rank
  if pads.length ≠ 2 * rank then fail op (.padCount rank pads.length)
  else return input.withLens (← (List.range rank).mapM (paddedLen op input pads))

/-- The number of places at which the window fits along one of so many spatial axes. -/
def windowLen (op : String) (x w : List Nat) (window : Window) (axes axis : Nat) : Infer Nat := do
  let len ← Fault.inRange x[axis + 2]?
  let kernel ← Fault.inRange w[axis + 2]?
  let first ← Fault.inRange window.padding[axis]?
  let last ← if window.padding.length = axes then pure first
    else Fault.inRange window.padding[axis + axes]?
  let dilation ← Fault.inRange window.dilation[axis]?
  let stride ← Fault.inRange window.stride[axis]?
  let padded := (Word.add? len first).bind (Word.add? · last)
  let span := (Word.mul? dilation (kernel - 1)).bind (Word.add? · 1)
  match padded, span with
  | some padded, some span =>
    if stride = 0 ∨ padded < span then
      fail op (.kernelTooLarge (← Fault.slice w 2 w.length) (← Fault.slice x 2 x.length))
    else Word.add (← Word.div (← Word.sub padded span) stride) 1
  | _, _ => fail op .windowOverflow

def convolutionShape (op : String) (input weights : Shape) (window : Window) :
    Infer Shape := do
  let x := input.lens
  let w := weights.lens
  let axes ← Word.sub x.length 2
  if window.padding.length ≠ 2 * axes ∧ window.padding.length ≠ axes then
    fail op (.paddingCount axes window.padding.length)
  else if window.stride.length ≠ axes ∨ window.dilation.length ≠ axes then
    fail op (.windowCount axes)
  else
    let batch ← Fault.inRange x[0]?
    let channels ← Fault.inRange x[1]?
    let features ← Fault.inRange w[0]?
    let weightChannels ← Fault.inRange w[1]?
    if window.group = 0 ∨ Word.mul? weightChannels window.group ≠ some channels then
      fail op (.channelMismatch channels weightChannels window.group)
    else
      let lens ← (List.range axes).mapM (windowLen op x w window axes)
      return input.withLens (batch :: features :: lens)

def dotShape (op : String) (left right : Shape) : Infer Shape := do
  let a := left.lens
  let b := right.lens
  let batch ← Word.sub a.length 2
  if (← Fault.slice a 0 batch) ≠ (← Fault.slice b 0 batch) then
    fail op (.batchMismatch [left, right])
  else
    let inner ← Fault.inRange a[batch + 1]?
    let inner' ← Fault.inRange b[batch]?
    let columns ← Fault.inRange b[batch + 1]?
    if inner ≠ inner' then fail op (.innerMismatch inner inner')
    else return left.withLens (← Fault.setAt a (batch + 1) columns)

def reduceAxis (op : String) (lens : List Nat) (axis : Nat) : Infer (List Nat) :=
  if lens.length ≤ axis then fail op (.axisOutOfRange axis lens.length)
  else Fault.setAt lens axis 1

def reduceShape (op : String) (input : Shape) (axes : List Nat) : Infer Shape := do
  return input.withLens (← axes.foldlM (reduceAxis op) input.lens)

def quantizeShape (op : String) (input scale : Shape) (zeroPoint : Option Shape) :
    Infer Shape :=
  if input.elementType ≠ scale.elementType ∧ input.elementType ≠ .int32 then
    fail op (.scaleType scale.elementType input.elementType)
  else
    let target := (zeroPoint.map Shape.elementType).getD .uint8
    .ok (Shape.packedOf target input.lens)

def dequantizeShape (op : String) (input scale : Shape) (zeroPoint : Option Shape) :
    Infer Shape :=
  let result : Infer Shape := .ok (Shape.packedOf scale.elementType input.lens)
  match zeroPoint with
  | some z =>
    if z.elementType ≠ input.elementType then
      fail op (.zeroPointType z.elementType input.elementType)
    else result
  | none => result

def branchShape (op : String) (condition : Shape) (modules : List (List Shape)) :
    Infer Shape := do
  let isCondition ←
    if condition.elementType = .bool then pure ((← condition.elements) == 1) else pure false
  if !isCondition then fail op (.conditionShape condition)
  else match modules with
    | [yes, no] => if yes = no then return Shape.tuple yes else fail op .branchMismatch
    | _ => fail op (.branchCount modules.length)

/-- The carried values, and each further output of the body once for every iteration. -/
def loopShape (op : String) (carried : List Shape) (modules : List (List Shape))
    (maxIterations : Nat) : Infer Shape := do
  match modules with
  | [body] =>
    let needed := 1 + carried.length
    if body.length < needed then fail op (.bodyTooShort body.length needed)
    else if (← Fault.slice body 1 needed) ≠ carried then fail op .carriedMismatch
    else
      let scans ← Fault.slice body needed body.length
      return Shape.tuple (carried ++ scans.map fun s => s.withLens (maxIterations :: s.lens))
  | _ => fail op (.bodyCount modules.length)

end Inference

open Inference

/-- The output shape before its size is checked. -/
def rawShape (op : Operator) (inputs : List Shape) (modules : List (List Shape)) :
    Except Failure Shape := do
  let name := op.name
  let input (i : Nat) : Infer Shape := Fault.inRange inputs[i]?
  match op with
  | literal value => has 0 name inputs; return value.shape
  | parameter _ shape => has 0 name inputs; return shape
  | allocate shape => has 0 name inputs; return shape
  | output =>
    match inputs with
    | [single] => return single
    | _ => return Shape.tuple inputs
  | undefined => has 0 name inputs; return Shape.packedOf .float []
  | identity => has 1 name inputs; input 0
  | contiguous => has 1 name inputs; notTuple name inputs; return (← input 0).asStandard
  | convert target =>
    has 1 name inputs; notTuple name inputs
    return (← pointwiseShape (← Fault.slice inputs 0 1)).withType target
  | unary _ => has 1 name inputs; notTuple name inputs; pointwiseShape inputs
  | binary _ =>
    has 2 name inputs; sameType name inputs; sameDims name inputs
    pointwiseShape inputs
  | clip =>
    has 3 name inputs; sameType name inputs; sameDims name inputs
    pointwiseShape inputs
  | transpose permutation =>
    has 1 name inputs; notTuple name inputs
    transposeShape name (← input 0) permutation
  | reshape dims =>
    has 1 name inputs; onlyStatic name inputs
    reshapeShape name (← input 0) dims
  | broadcast axis outLens =>
    has 1 name inputs; onlyStatic name inputs
    broadcastShape name (← input 0) axis outLens
  | multibroadcast outLens =>
    has 1 name inputs; onlyStatic name inputs
    multibroadcastShape name (← input 0) outLens
  | pad pads _ _ =>
    has 1 name inputs; onlyStatic name inputs
    padShape name (← input 0) pads
  | convolution window =>
    has 2 name inputs; onlyStatic name inputs; sameType name inputs; sameRank name inputs
    minRank 3 name inputs
    convolutionShape name (← input 0) (← input 1) window
  | dot =>
    has 2 name inputs; onlyStatic name inputs; sameType name inputs; sameRank name inputs
    minRank 2 name inputs
    dotShape name (← input 0) (← input 1)
  | reduceMean axes =>
    has 1 name inputs; onlyStatic name inputs
    reduceShape name (← input 0) axes
  | layernorm _ =>
    has 1 name inputs; notTuple name inputs; minRank 1 name inputs
    return (← input 0).asStandard
  | quantizeLinear =>
    hasBetween 2 3 name inputs; onlyStatic name inputs; sameLens name inputs
    quantizeShape name (← input 0) (← input 1) inputs[2]?
  | dequantizeLinear =>
    hasBetween 2 3 name inputs; onlyStatic name inputs; sameLens name inputs
    dequantizeShape name (← input 0) (← input 1) inputs[2]?
  | branch => has 1 name inputs; branchShape name (← input 0) modules
  | loop maxIterations =>
    hasAtLeast 2 name inputs
    loopShape name (← Fault.slice inputs 2 inputs.length) modules maxIterations
  | getTupleElem index =>
    has 1 name inputs
    let subs := (← input 0).subShapes
    match subs[index]? with
    | some s => return s
    | none => fail name (.tupleIndex index subs.length)

def inferShape (op : Operator) (inputs : List Shape) (modules : List (List Shape)) :
    Except Failure Shape := do
  let shape ← op.rawShape inputs modules
  if shape.addressable then return shape else fail op.name (.tooLarge shape)

end TensorGraph.Operator
