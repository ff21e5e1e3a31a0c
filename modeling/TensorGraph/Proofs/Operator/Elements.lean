import TensorGraph.Proofs.Arithmetic
import TensorGraph.Proofs.Operator.Elementwise
import TensorGraph.Proofs.Operator.Evaluation

/-! What the elements of a value are computed from. A broadcast has no elements but those of its input.
On integers, a neutral element leaves the other operand as it is, except that the sign of a zero can
be lost, and two negations cancel if the first one stays in the range of the type. -/
namespace TensorGraph

/-- No sign of a zero is lost: zeros of different signs are not added, nor is the negative zero
subtracted from itself. -/
def Binary.Exact : Binary → Float → Float → Prop
  | .add, x, y => ¬ (x = -0 ∧ y = 0) ∧ ¬ (x = 0 ∧ y = -0)
  | .sub, x, y => ¬ (x = -0 ∧ y = -0)
  | _, _, _ => True

instance : (f : Binary) → (x y : Float) → Decidable (f.Exact x y)
  | .add, _, _ => inferInstanceAs (Decidable (_ ∧ _))
  | .sub, _, _ => inferInstanceAs (Decidable (¬ _))
  | .mul, _, _ | .div, _, _ | .pow, _, _ | .max, _, _ | .min, _, _ => .isTrue trivial

/-- An integer that counts as `value` leaves the other operand as it is. -/
structure Binary.Neutral (f : Binary) (value : Float) (commutative : Bool) : Prop where
  right : ∀ x e, Scalar.IsInteger e → Scalar.approxEqual e value = true → f.Exact x e → f.apply x e = x
  left : commutative = true → ∀ x e, Scalar.IsInteger e → Scalar.approxEqual e value = true →
    f.Exact e x → f.apply e x = x

namespace Binary
open TensorGraph.Scalar

theorem neutral_add : Neutral .add 0 true where
  right x e he h hx := by
    have hzero := eq_zero_of_approxEqual he h
    by_cases hneg : x = -0
    · obtain rfl := hzero.resolve_left fun h0 => hx.1 ⟨hneg, h0⟩
      rw [hneg]
      decide +kernel
    · exact (Scalar.add_zero hneg hzero).1
  left _ x e he h hx := by
    have hzero := eq_zero_of_approxEqual he h
    by_cases hneg : x = -0
    · obtain rfl := hzero.resolve_left fun h0 => hx.2 ⟨h0, hneg⟩
      rw [hneg]
      decide +kernel
    · exact (Scalar.add_zero hneg hzero).2.1

theorem neutral_sub : Neutral .sub 0 false where
  right x e he h hx := by
    have hzero := eq_zero_of_approxEqual he h
    by_cases hneg : x = -0
    · obtain rfl := hzero.resolve_right fun h0 => hx ⟨hneg, h0⟩
      rw [hneg]
      decide +kernel
    · exact (Scalar.add_zero hneg hzero).2.2
  left h := by cases h

theorem neutral_mul : Neutral .mul 1 true where
  right x e he h _ := by
    rw [eq_one_of_approxEqual he h]
    exact Scalar.mul_one x
  left _ x e he h _ := by
    rw [eq_one_of_approxEqual he h]
    exact Scalar.one_mul x

theorem neutral_div : Neutral .div 1 false where
  right x e he h _ := by
    rw [eq_one_of_approxEqual he h]
    exact Scalar.div_one x
  left h := by cases h

end Binary

private theorem ElementType.cast_neg_cast_neg {t : ElementType} {x : Float} (hx : t.cast x = x)
    (h : t = .bool ∨ t.cast (-x) = -x) : t.cast (-(t.cast (-x))) = x := by
  rcases h with rfl | h
  · have hbit : x = 0 ∨ x = 1 := by
      rw [← hx, cast]
      split
      · exact .inl rfl
      · exact .inr rfl
    rcases hbit with rfl | rfl <;> decide +kernel
  · rw [h, Scalar.neg_neg, hx]

namespace Literal
variable {s : Shape} {data : Array Float} {l x : Literal}

/-- The values that a literal is made with are converted, and one can fill all the elements. -/
theorem mem_of_ofComputed (h : ofComputed s data = .ok l) {e : Float} (he : e ∈ l.data) :
    ∃ d ∈ data, e = s.elementType.cast d := by
  rw [ofComputed] at h
  split at h
  · rename_i l' hdata
    cases h
    exact exists_of_ofData hdata he
  · cases h
  · cases h

end Literal

namespace Operator
open TensorGraph.Operator.Evaluation TensorGraph.Operator.Inference TensorGraph.Literal
variable {op : Operator} {s : Shape} {a b x y v : Literal}

/-- No negation leaves the range of its type, except that of truth values, and no sign of a zero is
lost. -/
def Exact : Operator → List Literal → Prop
  | .unary .neg, [x] =>
    x.shape.elementType = .bool ∨ ∀ e ∈ x.data, x.shape.elementType.cast (-e) = -e
  | .binary f, [a, b] => ∀ p ∈ a.data.zip b.data, f.Exact p.1 p.2
  | _, _ => True

instance : (op : Operator) → (args : List Literal) → Decidable (op.Exact args) := fun op args => by
  unfold Exact
  split <;> infer_instance

private theorem of_filled {data : Array Float}
    (h : some <$> ofComputed s.asStandard data = .ok (some v)) :
    ofComputed s.asStandard data = .ok v := by
  cases hl : ofComputed s.asStandard data with
  | error f =>
    rw [hl] at h
    cases h
  | ok l =>
    rw [hl] at h
    cases h
    rfl

/-- Results that are converted to the elements of a literal of the shape make that literal. -/
theorem eq_of_filled {data : Array Float} (hx : x.Made) (hs : x.shape = s.asStandard)
    (hdata : data.map x.shape.elementType.cast = x.data)
    (h : some <$> ofComputed s.asStandard data = .ok (some v)) : v = x := by
  have hsize : s.asStandard.elements = .ok data.size := by
    rw [← hs, hx.elements, ← hdata, Array.size_map]
  have hroom : data.size ≤ Word.capacity := by
    rw [← Array.size_map, hdata]
    exact x.size_le
  obtain ⟨l, hl, hshape, hvalues⟩ := ofComputed_eq_ok hsize hroom
  have hv : l = v := Except.ok.inj (hl.symm.trans (of_filled h))
  rw [← hv]
  refine Literal.ext ?_ ?_
  · rw [hshape, ← hs, hx.asStandard]
  · rw [hvalues, ← hs, hdata]

private theorem zipWith_eq_left {f : Float → Float → Float} {xs ys : Array Float}
    (hsize : xs.size = ys.size) (h : ∀ p ∈ xs.zip ys, f p.1 p.2 = p.1) : xs.zipWith f ys = xs := by
  rw [← Array.map_uncurry_zip_eq_zipWith]
  refine (Array.map_congr_left h).trans ?_
  exact Array.map_fst_zip (Nat.le_of_eq hsize)

private theorem zipWith_eq_right {f : Float → Float → Float} {xs ys : Array Float}
    (hsize : xs.size = ys.size) (h : ∀ p ∈ xs.zip ys, f p.1 p.2 = p.2) : xs.zipWith f ys = ys := by
  rw [← Array.map_uncurry_zip_eq_zipWith]
  refine (Array.map_congr_left h).trans ?_
  exact Array.map_snd_zip (Nat.le_of_eq hsize.symm)

theorem Inference.Pointwise.elementType_eq {t : Shape} {rest : List Shape} (h : Pointwise t rest s) :
    s.elementType = t.elementType := by
  cases h with
  | dynamic | shared => rfl
  | standard => exact Shape.elementType_asStandard

/-- A binary operator with a value has been given as many elements on both sides. -/
theorem size_eq_of_binary {f : Binary} {t r : Shape} (hp : Pointwise t [r] s) (ht : t.isTuple = false)
    (hr : r.isTuple = false) (hdims : r.toDynamic.dynamicDims = t.toDynamic.dynamicDims)
    (hd : s.isDynamic = false) (ha : t.elements = .ok a.data.size) (hb : r.elements = .ok b.data.size)
    (h : (binary f).evaluate s [a, b] = .ok (some v)) : a.data.size = b.data.size := by
  rcases Shape.elements_eq_or_zero ht hr (hp.of_static hd).1 hdims with heq | hzero
  · exact Except.ok.inj (ha.symm.trans (heq.symm.trans hb))
  have hempty : b.data.size = 0 := Except.ok.inj (hb.symm.trans hzero)
  by_contra hne
  have hcount : s.asStandard.elements = .ok a.data.size := by
    rw [Shape.elements_asStandard, hp.elements_eq hd, ha]
  have hzip : (a.data.zipWith f.apply b.data).size = 0 := by simp [hempty]
  obtain ⟨e, he⟩ := ofComputed_of_isEmpty hcount (fun h0 => hne (h0.trans hempty.symm)) hzip
  cases he.symm.trans (of_filled h)

section Neutral
variable {f : Binary} {value : Float} {commutative : Bool} (hf : f.Neutral value commutative)
  (hsize : a.data.size = b.data.size) (hexact : (binary f).Exact [a, b])
  (h : (binary f).evaluate s [a, b] = .ok (some v))
include hf hsize hexact h

/-- The first operand is the result if the second one is neutral. -/
theorem eq_of_neutral_right (ha : a.Made) (hs : a.shape = s.asStandard)
    (hb : ∀ e ∈ b.data, Scalar.IsInteger e ∧ Scalar.approxEqual e value = true) : v = a := by
  refine eq_of_filled ha hs ?_ h
  rw [zipWith_eq_left hsize fun p hp => ?_, ha.map_cast]
  obtain ⟨hint, happrox⟩ := hb p.2 (Array.of_mem_zip hp).2
  exact hf.right p.1 p.2 hint happrox (hexact p hp)

theorem eq_of_neutral_left (hcomm : commutative = true) (hb : b.Made) (hs : b.shape = s.asStandard)
    (ha : ∀ e ∈ a.data, Scalar.IsInteger e ∧ Scalar.approxEqual e value = true) : v = b := by
  refine eq_of_filled hb hs ?_ h
  rw [zipWith_eq_right hsize fun p hp => ?_, hb.map_cast]
  obtain ⟨hint, happrox⟩ := ha p.1 (Array.of_mem_zip hp).1
  exact hf.left hcomm p.2 p.1 hint happrox (hexact p hp)

end Neutral

/-- Two negations give the operand back if the first one is exact. -/
theorem eq_of_negations {t : Shape} (hx : x.Made) (hexact : (unary .neg).Exact [x])
    (ht : t.elementType = x.shape.elementType) (hcount : t.elements = .ok x.data.size)
    (hs : x.shape = s.asStandard) (hy : (unary .neg).evaluate t [x] = .ok (some y))
    (hv : (unary .neg).evaluate s [y] = .ok (some v)) : v = x := by
  have hsize : (x.data.map Unary.neg.apply).size = x.data.size := Array.size_map
  have hnegated := @ofComputed_eq_ok t.asStandard (x.data.map Unary.neg.apply)
    (by rw [Shape.elements_asStandard, hcount, hsize]) (hsize.trans_le x.size_le)
  obtain ⟨l, hl, hshape, hdata⟩ := hnegated
  obtain rfl : l = y := Except.ok.inj (hl.symm.trans (of_filled hy))
  refine eq_of_filled hx hs ?_ hv
  simp only [hdata, Array.map_map, Shape.elementType_asStandard, ht]
  refine (Array.map_congr_left fun e he => ?_).trans (Array.map_id _)
  exact ElementType.cast_neg_cast_neg (hx.cast_eq he) (hexact.imp_right fun h => h e he)

private theorem mem_of_gather {out : Shape} {data values : Array Float}
    {place : List Nat → Except Fault Nat} (h : gather out data place = .ok values) {e : Float}
    (he : e ∈ values) : e ∈ data := by
  obtain ⟨i, hi⟩ := Array.mem_iff_getElem?.1 he
  obtain ⟨p, -, hp⟩ := of_gather_eq_ok h hi
  exact Array.mem_of_getElem? hp

theorem elementType_of_isBroadcast {ins : List Shape} {mods : List (List Shape)}
    (hop : op.isBroadcast = true) (h : op.inferShape ins mods = .ok s) :
    ∃ t, ins = [t] ∧ s.elementType = t.elementType := by
  have hraw := (inferShape_eq_ok.1 h).1
  cases op with
  | broadcast axis outLens =>
    obtain ⟨t, rfl, -, hd, ht⟩ := static_eq_ok.1 hraw
    obtain ⟨-, -, rfl⟩ := of_broadcastShape_eq_ok hd ht
    exact ⟨t, rfl, rfl⟩
  | multibroadcast outLens =>
    obtain ⟨t, rfl, -, hd, ht⟩ := static_eq_ok.1 hraw
    obtain ⟨-, _, -, -, rfl⟩ := of_multibroadcastShape_eq_ok hd ht
    exact ⟨t, rfl, rfl⟩
  | _ => cases hop

/-- A broadcast has the elements of its input. -/
theorem mem_of_isBroadcast (hop : op.isBroadcast = true) (hx : x.Made)
    (ht : s.elementType = x.shape.elementType) (h : op.evaluate s [x] = .ok (some v)) {e : Float}
    (he : e ∈ v.data) : e ∈ x.data := by
  have hfilled : ∀ place, (gather s.asStandard x.data place >>= fun data =>
      some <$> ofComputed s.asStandard data) = .ok (some v) → e ∈ x.data := by
    intro place h
    obtain ⟨values, hvalues, h⟩ := Except.bind_eq_ok.1 h
    obtain ⟨d, hd, rfl⟩ := mem_of_ofComputed (of_filled h) he
    have hmem := mem_of_gather hvalues hd
    rw [Shape.elementType_asStandard, ht, hx.cast_eq hmem]
    exact hmem
  cases op with
  | broadcast axis outLens => exact hfilled _ h
  | multibroadcast outLens =>
    obtain ⟨_, hinput, h⟩ := Except.bind_eq_ok.1 h
    cases hinput
    obtain ⟨added, -, h⟩ := Except.bind_eq_ok.1 h
    exact hfilled _ h
  | _ => cases hop

end Operator
end TensorGraph
