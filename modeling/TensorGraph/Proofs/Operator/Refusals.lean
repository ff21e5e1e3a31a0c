import TensorGraph.Operator.Inference
import TensorGraph.Proofs.Except

/-! Inference refuses in one way only: it says what is wrong with the shapes, in the name of the
operator. -/
namespace TensorGraph.Operator
namespace Inference
variable {α β : Type} {name : String} {s : Shape}

/-- A refusal says what is wrong with the shapes, and names the operator. -/
def Blames (name : String) (x : Infer α) : Prop :=
  ∀ error, x = .error (.refused error) → ∃ cause, error = .shape name cause

@[simp] theorem blames_ok (a : α) : Blames name (.ok a) := by
  intro error h
  cases h

@[simp] theorem blames_pure (a : α) : Blames name (pure a) :=
  blames_ok a

@[simp] theorem blames_fail (cause : InferenceError) : Blames (α := α) name (fail name cause) := by
  intro error h
  cases h
  exact ⟨cause, rfl⟩

@[simp] theorem blames_lift (x : Except Fault α) : Blames name (liftM x) := by
  intro error h
  exact absurd h Except.lift_ne_refused

@[simp] theorem blames_bind (x : Infer α) (f : α → Infer β) :
    Blames name (x >>= f) ↔ Blames name x ∧ ∀ a, x = .ok a → Blames name (f a) := by
  constructor
  · intro h
    exact ⟨fun error hx => h error (Except.bind_eq_error.2 (.inl hx)),
      fun a ha error hf => h error (Except.bind_eq_error.2 (.inr ⟨a, ha, hf⟩))⟩
  · rintro ⟨hx, hf⟩ error h
    rcases Except.bind_eq_error.1 h with h | ⟨a, ha, h⟩
    · exact hx error h
    · exact hf a ha error h

@[simp] theorem blames_map (f : α → β) (x : Infer α) : Blames name (f <$> x) ↔ Blames name x := by
  rw [← bind_pure_comp, blames_bind]
  simp

@[simp] theorem blames_if {c : Prop} [Decidable c] (x y : Infer α) :
    Blames name (if c then x else y) ↔ (c → Blames name x) ∧ (¬ c → Blames name y) := by
  split <;> simp [*]

private theorem blames_mapM {f : α → Infer β} (hf : ∀ a, Blames name (f a)) (l : List α) :
    Blames name (l.mapM f) := by
  induction l with
  | nil => exact blames_pure []
  | cons a l ih => simp [List.mapM_cons, hf, ih]

private theorem blames_foldlM {f : β → α → Infer β} (hf : ∀ b a, Blames name (f b a)) (l : List α)
    (b : β) : Blames name (l.foldlM f b) := by
  induction l generalizing b with
  | nil => exact blames_pure b
  | cons a l ih => simp [List.foldlM_cons, hf, ih]

private theorem blames_allM {f : α → Infer Bool} (hf : ∀ a, Blames name (f a)) (l : List α) :
    Blames name (l.allM f) := by
  induction l with
  | nil => exact blames_pure true
  | cons a l ih =>
    rw [List.allM, blames_bind]
    refine ⟨hf a, fun b _ => ?_⟩
    cases b with
    | true => exact ih
    | false => exact blames_pure false

@[simp] theorem blames_has (n : Nat) (ins : List Shape) : Blames name (has n name ins) := by
  simp [has]

@[simp] theorem blames_hasBetween (low high : Nat) (ins : List Shape) :
    Blames name (hasBetween low high name ins) := by
  simp [hasBetween]

@[simp] theorem blames_hasAtLeast (low : Nat) (ins : List Shape) :
    Blames name (hasAtLeast low name ins) := by
  simp [hasAtLeast]

@[simp] theorem blames_without (bad : Shape → Bool) (cause : Shape → InferenceError)
    (ins : List Shape) : Blames name (without bad cause name ins) := by
  rw [without]
  split <;> simp

@[simp] theorem blames_agree [DecidableEq α] (property : Shape → α)
    (cause : Shape → Shape → InferenceError) (ins : List Shape) :
    Blames name (agree property cause name ins) := by
  cases ins <;> simp [agree]

@[simp] theorem blames_onlyStatic (ins : List Shape) : Blames name (onlyStatic name ins) := by
  simp [onlyStatic, notTuple]

@[simp] theorem blames_sameDims (ins : List Shape) : Blames name (sameDims name ins) := by
  simp [sameDims, notTuple]

@[simp] theorem blames_pointwiseShape (ins : List Shape) : Blames name (pointwiseShape ins) := by
  simp [pointwiseShape, blames_allM]

@[simp] theorem blames_transposeShape (permutation : List Nat) :
    Blames name (transposeShape name s permutation) := by
  simp [transposeShape, permute, blames_mapM]

private theorem blames_requestedLen (axis : Nat) (d : Int) :
    Blames name (requestedLen name s axis d) := by
  rw [requestedLen]
  split
  · split <;> simp
  · simp

@[simp] theorem blames_completedLens (dims : List Int) (lens : List Nat) (elements known : Nat) :
    Blames name (completedLens name dims lens elements known) := by
  rw [completedLens]
  split <;> simp [inferredLen]

@[simp] theorem blames_reshapeShape (dims : List Int) : Blames name (reshapeShape name s dims) := by
  rw [reshapeShape]
  simp only [blames_if, blames_fail, blames_bind, implies_true, true_and]
  refine fun _ => ⟨blames_mapM (fun _ => blames_requestedLen _ _) _, fun lens _ => ?_⟩
  split <;> simp

@[simp] theorem blames_broadcastShape (axis : Nat) (outLens : List Nat) :
    Blames name (broadcastShape name s axis outLens) := by
  simp [broadcastShape]

private theorem blames_repeatedStride (outLens : List Nat) (added axis : Nat) :
    Blames name (repeatedStride name s outLens added axis) := by
  simp [repeatedStride]

@[simp] theorem blames_multibroadcastShape (outLens : List Nat) :
    Blames name (multibroadcastShape name s outLens) := by
  simp [multibroadcastShape, blames_mapM, blames_repeatedStride]

private theorem blames_paddedLen (pads : List Nat) (axis : Nat) :
    Blames name (paddedLen name s pads axis) := by
  simp only [paddedLen, blames_bind, blames_lift, true_and]
  intro len _ first _ last _
  split <;> simp

@[simp] theorem blames_padShape (pads : List Nat) : Blames name (padShape name s pads) := by
  simp [padShape, blames_mapM, blames_paddedLen]

private theorem blames_windowLen (x w : List Nat) (window : Window) (axes axis : Nat) :
    Blames name (windowLen name x w window axes axis) := by
  simp only [windowLen, blames_bind, blames_if, blames_lift, blames_pure, true_and]
  intro len _ kernel _ first _
  refine ⟨fun _ last _ dilation _ stride _ => ?_, fun _ last _ dilation _ stride _ => ?_⟩ <;>
    split <;> simp

@[simp] theorem blames_convolutionShape (weights : Shape) (window : Window) :
    Blames name (convolutionShape name s weights window) := by
  simp [convolutionShape, blames_mapM, blames_windowLen]

@[simp] theorem blames_dotShape (right : Shape) : Blames name (dotShape name s right) := by
  simp [dotShape]

private theorem blames_reduceAxis (lens : List Nat) (axis : Nat) :
    Blames name (reduceAxis name lens axis) := by
  simp [reduceAxis]

@[simp] theorem blames_reduceShape (axes : List Nat) : Blames name (reduceShape name s axes) := by
  simp [reduceShape, blames_foldlM, blames_reduceAxis]

@[simp] theorem blames_quantizeShape (scale : Shape) (zeroPoint : Option Shape) :
    Blames name (quantizeShape name s scale zeroPoint) := by
  simp [quantizeShape]

@[simp] theorem blames_dequantizeShape (scale : Shape) (zeroPoint : Option Shape) :
    Blames name (dequantizeShape name s scale zeroPoint) := by
  cases zeroPoint <;> simp [dequantizeShape]

@[simp] theorem blames_branchShape (mods : List (List Shape)) :
    Blames name (branchShape name s mods) := by
  simp only [branchShape, blames_bind, blames_if, blames_lift, blames_pure, blames_fail,
    implies_true, true_and]
  refine ⟨fun _ count _ isCondition _ _ => ?_, fun _ isCondition _ _ => ?_⟩ <;> split <;> simp

@[simp] theorem blames_loopShape (carried : List Shape) (mods : List (List Shape))
    (maxIterations : Nat) : Blames name (loopShape name carried mods maxIterations) := by
  unfold loopShape
  split <;> simp

end Inference

open Inference

private theorem blames_rawShape (op : Operator) (ins : List Shape) (mods : List (List Shape)) :
    Blames op.name (op.rawShape ins mods) := by
  cases op with
  | output => rcases ins with _ | ⟨a, _ | ⟨b, rest⟩⟩ <;> exact blames_pure _
  | getTupleElem index =>
    simp only [rawShape, blames_bind, blames_has, blames_lift, true_and]
    intro _ _ s _
    split <;> simp
  | _ => simp [rawShape, notTuple, sameType, sameRank, sameLens, minRank]

/-- Every refusal of inference says what is wrong with the shapes, and names the operator. -/
theorem inferShape_refused {op : Operator} {ins : List Shape} {mods : List (List Shape)}
    {error : GraphError} (h : op.inferShape ins mods = .error (.refused error)) :
    ∃ cause, error = .shape op.name cause := by
  have hblames : Blames op.name (op.inferShape ins mods) := by
    simp [inferShape, blames_rawShape]
  exact hblames error h

end TensorGraph.Operator
