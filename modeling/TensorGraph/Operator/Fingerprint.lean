import TensorGraph.Operator.Basic

/-!
What an operator contributes to a hash. The contribution depends on the operator only up to `==`:
both zeros contribute the same bits.
-/
namespace TensorGraph

inductive Feed where
  | text (s : String)
  | word (n : Nat)
deriving DecidableEq, Repr

namespace Feed

def nats (ns : List Nat) : List Feed :=
  .word ns.length :: ns.map .word

def float (x : Float) : Feed :=
  .word (if x == 0 then 0 else x.toBits.toNat)

end Feed

def DynamicDimension.feed (d : DynamicDimension) : List Feed :=
  .word d.min :: .word d.max :: Feed.nats d.optimals

mutual

def Shape.feed : Shape → List Feed
  | ⟨t, lens, strides, dims, subs⟩ =>
    .word t.number :: (Feed.nats lens ++ Feed.nats strides ++
      .word dims.length :: dims.flatMap DynamicDimension.feed ++
      .word subs.length :: Shape.feedAll subs)

def Shape.feedAll : List Shape → List Feed
  | [] => []
  | s :: rest => s.feed ++ Shape.feedAll rest

end

namespace Operator

def attributeFeed : Operator → List Feed
  | literal value => value.shape.feed ++ value.data.toList.map Feed.float
  | parameter name shape => .text name :: shape.feed
  | allocate shape => shape.feed
  | convert target => [.word target.number]
  | transpose permutation => Feed.nats permutation
  | reshape dims => .word dims.length :: dims.map fun d => .word (Word.ofSigned d)
  | broadcast axis outLens => .word axis :: Feed.nats outLens
  | multibroadcast outLens => Feed.nats outLens
  | pad pads mode value => Feed.nats pads ++ [.word mode.ctorIdx, Feed.float value]
  | convolution w =>
    Feed.nats w.padding ++ Feed.nats w.stride ++ Feed.nats w.dilation ++ [.word w.group]
  | reduceMean axes => Feed.nats axes
  | layernorm epsilon => [Feed.float epsilon]
  | loop maxIterations => [.word maxIterations]
  | getTupleElem index => [.word index]
  | _ => []

/-- Everything that an operator gives to a hash. -/
def feed (op : Operator) : List Feed :=
  .text op.name :: op.attributeFeed

end Operator
end TensorGraph
