import Mathlib
import TensorGraph.Operator.Fingerprint
import TensorGraph.Operator.Inference

/-! Equality of operators as `==` decides it. It tells operators apart by their name and attributes,
down to doubles that compare equal: so it is symmetric, equal operators have one fingerprint, and
what is inferred for one of them is inferred for the other. -/
namespace TensorGraph

namespace Scalar
variable {x y : Float} {xs ys : List Float}

/-- Values that compare equal are the same, or both are zero. -/
theorem eq_or_zero_of_beq (h : (x == y) = true) : x = y ∨ (x == 0) = true ∧ (y == 0) = true := by
  have hpositive : ((0 : Float) == 0) = true := by decide
  have hnegative : ((-0 : Float) == 0) = true := by decide
  obtain ⟨-, -, rfl | ⟨rfl, rfl⟩ | ⟨rfl, rfl⟩⟩ := Float.beq_iff_ne_nan_and_eq.1 h
  · exact .inl rfl
  · exact .inr ⟨hpositive, hnegative⟩
  · exact .inr ⟨hnegative, hpositive⟩

private theorem feed_eq_of_beq (h : (x == y) = true) : Feed.float x = Feed.float y := by
  rcases eq_or_zero_of_beq h with rfl | ⟨hx, hy⟩
  · rfl
  · rw [Feed.float, Feed.float, if_pos hx, if_pos hy]

private theorem beq_list_symm (h : (xs == ys) = true) : (ys == xs) = true := by
  induction xs generalizing ys with
  | nil => cases ys <;> simp_all
  | cons x xs ih =>
    cases ys with
    | nil => simp at h
    | cons y ys =>
      simp only [List.cons_beq_cons, Bool.and_eq_true] at h ⊢
      exact ⟨BEq.symm h.1, ih h.2⟩

private theorem map_feed_eq_of_beq (h : (xs == ys) = true) :
    xs.map Feed.float = ys.map Feed.float := by
  induction xs generalizing ys with
  | nil => cases ys <;> simp_all
  | cons x xs ih =>
    cases ys with
    | nil => simp at h
    | cons y ys =>
      simp only [List.cons_beq_cons, Bool.and_eq_true] at h
      rw [List.map_cons, List.map_cons, feed_eq_of_beq h.1, ih h.2]

end Scalar

theorem Literal.beq_iff {v w : Literal} :
    (v == w) = true ↔ v.shape = w.shape ∧ (v.data.toList == w.data.toList) = true := by
  obtain ⟨s, d⟩ := v
  obtain ⟨t, e⟩ := w
  change (s == t && d == e) = true ↔ _
  rw [Bool.and_eq_true, beq_iff_eq, Array.beq_toList]

namespace Operator
variable {a b : Operator}

/-- Operators that differ in nothing but doubles that compare equal. -/
inductive Alike : Operator → Operator → Prop
  | same (op : Operator) : Alike op op
  | literal {v w : Literal} (h : (v == w) = true) : Alike (.literal v) (.literal w)
  | pad (pads : List Nat) (mode : PadMode) {x y : Float} (h : (x == y) = true) :
      Alike (.pad pads mode x) (.pad pads mode y)
  | layernorm {x y : Float} (h : (x == y) = true) : Alike (.layernorm x) (.layernorm y)

theorem alike_of_beq (h : (a == b) = true) : Alike a b := by
  change instBEqOperator.beq a b = true at h
  revert h
  fun_cases instBEqOperator.beq a b with
  | case1 => exact .literal
  | case16 pads mode x pads' mode' y =>
    intro h
    simp only [Bool.and_eq_true, beq_iff_eq] at h
    obtain ⟨rfl, rfl, h⟩ := h
    exact .pad pads mode h
  | case20 => exact .layernorm
  | case26 => intro h; cases h
  | _ =>
    intro h
    simp_all [Alike.same]

theorem Alike.feed_eq (h : Alike a b) : a.feed = b.feed := by
  cases h with
  | same => rfl
  | literal h =>
    obtain ⟨hs, hd⟩ := Literal.beq_iff.1 h
    simp only [feed, attributeFeed, name, hs, Scalar.map_feed_eq_of_beq hd]
  | pad pads mode h => simp only [feed, attributeFeed, name, Scalar.feed_eq_of_beq h]
  | layernorm h => simp only [feed, attributeFeed, name, Scalar.feed_eq_of_beq h]

theorem beq_symm (h : (a == b) = true) : (b == a) = true := by
  cases alike_of_beq h with
  | same => exact h
  | literal hv =>
    obtain ⟨hs, hd⟩ := Literal.beq_iff.1 hv
    exact Literal.beq_iff.2 ⟨hs.symm, Scalar.beq_list_symm hd⟩
  | @pad pads mode x y hv =>
    have hw : (y == x) = true := BEq.symm hv
    change (pads == pads && (mode == mode && y == x)) = true
    simp [hw]
  | @layernorm x y hv =>
    have hw : (y == x) = true := BEq.symm hv
    exact hw

theorem Alike.isBuiltin_eq (h : Alike a b) : a.isBuiltin = b.isBuiltin := by
  cases h <;> rfl

/-- Constants and parameters that are alike have the same shape of their own. -/
theorem Alike.of_builtin (h : Alike a b) (hb : b.isBuiltin = true) (ho : b.isOutput = false) :
    (∃ v w : Literal, a = .literal v ∧ b = .literal w ∧ v.shape = w.shape) ∨
      ∃ name shape, a = .parameter name shape ∧ b = .parameter name shape := by
  cases h with
  | same =>
    cases a with
    | literal v => exact .inl ⟨v, v, rfl, rfl, rfl⟩
    | parameter name shape => exact .inr ⟨name, shape, rfl, rfl⟩
    | output => cases ho
    | _ => cases hb
  | literal h => exact .inl ⟨_, _, rfl, rfl, (Literal.beq_iff.1 h).1⟩
  | pad | layernorm => cases hb

/-- Attributes that compare equal take no part in shapes. -/
theorem Alike.inferShape_eq (h : Alike a b) (ins : List Shape) (outs : List (List Shape)) :
    a.inferShape ins outs = b.inferShape ins outs := by
  cases h with
  | same => rfl
  | literal h =>
    obtain ⟨hs, -⟩ := Literal.beq_iff.1 h
    simp only [inferShape, rawShape, name, hs]
  | pad | layernorm => rfl

end Operator
end TensorGraph
