import TensorGraph.Proofs.Operator.Inference

/-! Layouts under elementwise operators. Operands of one type and with the same lengths give a result
of that type and with these lengths, which is row-major unless the operands share a packed layout. A
single element that is repeated shares no layout but the row-major one. -/
namespace TensorGraph
namespace Shape
variable {s : Shape} {t u : ElementType} {lens : List Nat}

/-- A static shape of this type and with these lengths, whatever its strides. -/
structure Over (t : ElementType) (lens : List Nat) (s : Shape) : Prop where
  type_eq : s.elementType = t
  lens_eq : s.lens = lens
  dims_eq : s.dynamicDims = []
  subs_eq : s.subShapes = []
  addressable : s.addressable = true

private theorem over_packedOf (h : (packedOf t lens).addressable = true) :
    Over t lens (packedOf t lens) :=
  ⟨rfl, rfl, rfl, rfl, h⟩

section Over
variable (h : Over t lens s)
include h

theorem Over.static : s.isDynamic = false := by
  rw [isDynamic, h.dims_eq]
  rfl

theorem Over.wellFormed : s.WellFormed :=
  wellFormed_of_static h.dims_eq h.subs_eq

theorem Over.isTuple_eq (ht : t ≠ .tuple) : s.isTuple = false := by
  rw [isTuple, h.type_eq]
  simpa using ht

theorem Over.eq_packedOf (hs : s.strides = standardStrides lens) : s = packedOf t lens := by
  obtain ⟨type, lens', strides, dims, subs⟩ := s
  obtain ⟨rfl, rfl, rfl, rfl, -⟩ := h
  rw [show strides = _ from hs]
  rfl

private theorem Over.asStandard_eq (ht : t ≠ .tuple) : s.asStandard = packedOf t lens := by
  rw [asStandard_of_static h.static (h.isTuple_eq ht), h.type_eq, h.lens_eq]

private theorem Over.toDynamic_eq (ht : t ≠ .tuple) : s.toDynamic.dynamicDims = lens.map .fixed := by
  rw [dims_of_static h.static (h.isTuple_eq ht), h.lens_eq]

theorem Over.withType (ha : (s.withType u).addressable = true) : Over u lens (s.withType u) :=
  ⟨rfl, h.lens_eq, h.dims_eq, h.subs_eq, ha⟩

end Over

/-- Shapes of the same type, with the same axes. -/
structure SameAxes (s s' : Shape) : Prop where
  type_eq : s.elementType = s'.elementType
  dims_eq : s.toDynamic.dynamicDims = s'.toDynamic.dynamicDims

theorem SameAxes.trans {s' s'' : Shape} (h : SameAxes s s') (h' : SameAxes s' s'') : SameAxes s s'' :=
  ⟨h.type_eq.trans h'.type_eq, h.dims_eq.trans h'.dims_eq⟩

private theorem sameAxes_asStandard (s : Shape) : SameAxes s.asStandard s := by
  cases hs : s.isDynamic || s.isTuple with
  | true => simp [asStandard, hs, SameAxes.mk]
  | false =>
    obtain ⟨hd, ht⟩ := Bool.or_eq_false_iff.1 hs
    rw [asStandard_of_static hd ht]
    have hpacked := dims_of_static (s := packedOf s.elementType s.lens) rfl ht
    exact ⟨rfl, hpacked.trans (dims_of_static hd ht).symm⟩

/-- The shapes are packed and have the same strides. -/
def Shared (strides : List Nat) (ss : List Shape) : Prop :=
  ∀ s ∈ ss, s.isPacked = .ok true ∧ s.strides = strides

instance (strides : List Nat) (ss : List Shape) : Decidable (Shared strides ss) :=
  inferInstanceAs (Decidable (∀ s ∈ ss, _))

/-- A result that may take over a shared layout is row-major, if one of the shapes that share it is
packed in no other way. -/
theorem Over.eq_packedOf_of_shared {r a : Shape} {ss : List Shape} (h : Over t lens r)
    (hr : r = packedOf t lens ∨ r = s ∧ Shared s.strides ss) (ha : a ∈ ss)
    (hrow : a.isPacked = .ok true → a.strides = standardStrides lens) : r = packedOf t lens := by
  rcases hr with hr | ⟨rfl, hshared⟩
  · exact hr
  · obtain ⟨hp, hstrides⟩ := hshared a ha
    exact h.eq_packedOf (hstrides.symm.trans (hrow hp))

end Shape

namespace Operator
open Inference Shape
variable {s r : Shape} {rest : List Shape} {t u : ElementType} {lens : List Nat} {op : Operator}

private theorem exists_pointwiseShape (h : ∀ a ∈ s :: rest, a.addressable = true) :
    ∃ r, pointwiseShape (s :: rest) = .ok r := by
  have hall : ∃ b, ((s :: rest).allM fun a => do
      return (← (liftM a.isPacked : Infer Bool)) && a.strides == s.strides) = .ok b := by
    refine Except.exists_allM fun a ha => ?_
    obtain ⟨b, hb⟩ := isPacked_eq_ok (h a ha)
    exact ⟨b && a.strides == s.strides, by rw [hb]; rfl⟩
  obtain ⟨b, hb⟩ := hall
  change ∃ r, (if s.isDynamic then pure s else (s :: rest).allM _ >>= _) = Except.ok r
  split
  · exact ⟨s, rfl⟩
  · rw [hb]
    cases b with
    | true => exact ⟨s, rfl⟩
    | false => exact ⟨_, rfl⟩

/-- What pointwise operands of one type and with the same lengths give. -/
theorem pointwiseShape_over (ht : t ≠ .tuple) (hs : ∀ a ∈ s :: rest, Over t lens a)
    (ha : (packedOf t lens).addressable = true) :
    ∃ r, pointwiseShape (s :: rest) = .ok r ∧ Over t lens r ∧
      (r = packedOf t lens ∨ r = s ∧ Shared s.strides (s :: rest)) := by
  have hfirst := hs s (by simp)
  obtain ⟨r, hr⟩ := exists_pointwiseShape fun a h => (hs a h).addressable
  refine ⟨r, hr, ?_⟩
  cases pointwise_of_eq_ok hr with
  | dynamic hd => exact (nomatch hfirst.static.symm.trans hd)
  | shared _ h => exact ⟨hfirst, .inr ⟨rfl, h⟩⟩
  | standard _ _ =>
    rw [hfirst.asStandard_eq ht]
    exact ⟨over_packedOf ha, .inl rfl⟩

/-- The operator works element by element on so many operands of one type. -/
inductive Elementwise : Operator → Nat → Prop
  | unary (f : Unary) : Elementwise (.unary f) 1
  | binary (f : Binary) : Elementwise (.binary f) 2
  | clip : Elementwise .clip 3

theorem Elementwise.not_builtin {k : Nat} (hop : Elementwise op k) : op.isBuiltin = false := by
  cases hop <;> rfl

theorem Elementwise.inferShape_over (hop : Elementwise op (s :: rest).length) (ht : t ≠ .tuple)
    (hs : ∀ a ∈ s :: rest, Over t lens a) (ha : (packedOf t lens).addressable = true) :
    ∃ r, op.inferShape (s :: rest) [] = .ok r ∧ Over t lens r ∧
      (r = packedOf t lens ∨ r = s ∧ Shared s.strides (s :: rest)) := by
  obtain ⟨r, hr, hover, hcases⟩ := pointwiseShape_over ht hs ha
  refine ⟨r, inferShape_eq_ok.2 ⟨?_, hover.addressable⟩, hover, hcases⟩
  have htuple : ∀ a ∈ s :: rest, a.isTuple = false := fun a h => (hs a h).isTuple_eq ht
  have htype : sameType op.name (s :: rest) = .ok () := by
    refine agree_eq_ok.2 fun a h => ?_
    rw [(hs a (by simp [h])).type_eq, (hs s (by simp)).type_eq]
  have hdims : sameDims op.name (s :: rest) = .ok () := by
    refine sameDims_eq_ok.2 ⟨htuple, fun a h => ?_⟩
    rw [(hs a (by simp [h])).toDynamic_eq ht, (hs s (by simp)).toDynamic_eq ht]
  generalize hlen : (s :: rest).length = k at hop
  cases hop with
  | unary f => exact single_eq_ok.2 ⟨⟨s, by simpa using hlen, htuple s (by simp)⟩, hr⟩
  | binary f => exact alike_eq_ok.2 ⟨hlen, htype, hdims, hr⟩
  | clip => exact alike_eq_ok.2 ⟨hlen, htype, hdims, hr⟩

theorem Elementwise.length_eq {k : Nat} {ins : List Shape} {mods : List (List Shape)}
    (hop : Elementwise op k) (h : op.inferShape ins mods = .ok r) : ins.length = k := by
  have hraw := (inferShape_eq_ok.1 h).1
  cases hop with
  | unary f =>
    obtain ⟨⟨a, rfl, -⟩, -⟩ := single_eq_ok.1 hraw
    rfl
  | binary f => exact (alike_eq_ok.1 hraw).1
  | clip => exact (alike_eq_ok.1 hraw).1

/-- The result of an elementwise operator is of the type of its operands and has their axes. It is
static if they are. -/
theorem Elementwise.sameAxes {k : Nat} {ins : List Shape} {mods : List (List Shape)}
    (hop : Elementwise op k) (h : op.inferShape ins mods = .ok r) :
    (∀ a ∈ ins, a.isTuple = false ∧ SameAxes r a) ∧
      ((∀ a ∈ ins, a.isDynamic = false) → r.isDynamic = false) := by
  have hraw := (inferShape_eq_ok.1 h).1
  obtain ⟨a, rest, rfl, hall, hp⟩ : ∃ a rest, ins = a :: rest ∧
      (∀ b ∈ ins, b.isTuple = false ∧ SameAxes a b) ∧ Pointwise a rest r := by
    have hsame : ∀ {a rest}, sameType op.name (a :: rest) = .ok () →
        sameDims op.name (a :: rest) = .ok () → ∀ b ∈ a :: rest, b.isTuple = false ∧ SameAxes a b := by
      intro a rest htype hdims b hb
      obtain ⟨htuple, hdims⟩ := sameDims_eq_ok.1 hdims
      refine ⟨htuple b hb, ?_⟩
      rcases List.mem_cons.1 hb with rfl | hb
      · exact ⟨rfl, rfl⟩
      · exact ⟨(agree_eq_ok.1 htype b hb).symm, (hdims b hb).symm⟩
    cases hop with
    | unary f =>
      obtain ⟨⟨a, rfl, ht⟩, hp⟩ := single_eq_ok.1 hraw
      exact ⟨a, [], rfl, by simpa using ⟨ht, rfl, rfl⟩, pointwise_of_eq_ok hp⟩
    | binary f =>
      obtain ⟨hlen, htype, hdims, hp⟩ := alike_eq_ok.1 hraw
      obtain ⟨a, rest, rfl⟩ := List.exists_cons_of_length_eq_add_one hlen
      exact ⟨a, rest, rfl, hsame htype hdims, pointwise_of_eq_ok hp⟩
    | clip =>
      obtain ⟨hlen, htype, hdims, hp⟩ := alike_eq_ok.1 hraw
      obtain ⟨a, rest, rfl⟩ := List.exists_cons_of_length_eq_add_one hlen
      exact ⟨a, rest, rfl, hsame htype hdims, pointwise_of_eq_ok hp⟩
  have hfirst : SameAxes r a ∧ (a.isDynamic = false → r.isDynamic = false) := by
    cases hp with
    | dynamic _ => exact ⟨⟨rfl, rfl⟩, id⟩
    | shared _ _ => exact ⟨⟨rfl, rfl⟩, id⟩
    | standard hd _ =>
      refine ⟨sameAxes_asStandard a, fun _ => ?_⟩
      rw [asStandard_of_static hd (hall a (by simp)).1]
      rfl
  exact ⟨fun b hb => ⟨(hall b hb).1, hfirst.1.trans (hall b hb).2⟩, fun hd => hfirst.2 (hd a (by simp))⟩

/-- A conversion keeps a packed layout and makes any other row-major. -/
theorem inferShape_convert_over (hu : u ≠ .tuple) (hs : Over u lens s)
    (ha : (packedOf t lens).addressable = true)
    (hc : s.isPacked = .ok true → (s.withType t).addressable = true) :
    ∃ r, (convert t).inferShape [s] [] = .ok r ∧ Over t lens r ∧
      (r = packedOf t lens ∨ s.isPacked = .ok true ∧ r.strides = s.strides) := by
  obtain ⟨p, hp⟩ : ∃ p, pointwiseShape [s] = .ok p :=
    exists_pointwiseShape (by simpa using hs.addressable)
  have hraw : (convert t).rawShape [s] [] = .ok (p.withType t) :=
    rawShape_convert.2 ⟨s, p, rfl, hs.isTuple_eq hu, hp, rfl⟩
  cases pointwise_of_eq_ok hp with
  | dynamic hd => exact (nomatch hs.static.symm.trans hd)
  | shared _ h =>
    have hpacked := (h s (by simp)).1
    exact ⟨_, inferShape_eq_ok.2 ⟨hraw, hc hpacked⟩, hs.withType (hc hpacked), .inr ⟨hpacked, rfl⟩⟩
  | standard _ _ =>
    rw [hs.asStandard_eq hu] at hraw
    exact ⟨_, inferShape_eq_ok.2 ⟨hraw, ha⟩, over_packedOf ha, .inl rfl⟩

private theorem foldlM_span_eq_one (axes : List (Nat × Nat)) (h : ∀ p ∈ axes, (p.1 - 1) * p.2 = 0) :
    axes.foldlM (fun n p => (Word.mul? (p.1 - 1) p.2).bind (Word.add? · n)) 1 = some 1 := by
  induction axes with
  | nil => rfl
  | cons p axes ih =>
    obtain ⟨hp, haxes⟩ := List.forall_mem_cons.1 h
    rw [List.foldlM_cons, Word.mul?_eq_some.2 ⟨by rw [hp]; decide, hp.symm⟩]
    exact ih haxes

/-- The shape of a single element that is repeated along all axes. -/
def splatShape (t : ElementType) (front : List Nat) (last : Nat) : Shape :=
  ⟨t, front ++ [last], List.replicate front.length 0 ++ [if last = 1 then 1 else 0], [], []⟩

private theorem multibroadcastShape_scalar (op : String) (t : ElementType) (front : List Nat)
    (last : Nat) :
    multibroadcastShape op (Shape.scalar t) (front ++ [last]) = .ok (splatShape t front last) := by
  have hstride : repeatedStride op (Shape.scalar t) (front ++ [last]) front.length 0 =
      .ok (if last = 1 then 1 else 0) := by
    rw [repeatedStride]
    simp only [Shape.scalar, packedOf, List.getElem?_cons_zero, Fault.inRange, Nat.add_zero,
      List.getElem?_concat_length]
    change (if 1 = last then _ else _) = _
    by_cases hone : last = 1
    · rw [if_pos hone, if_pos hone.symm]
      rfl
    · rw [if_neg hone, if_neg (Ne.symm hone)]
      rfl
  have hstrides : (List.range 1).mapM (repeatedStride op (Shape.scalar t) (front ++ [last])
      front.length) = .ok [if last = 1 then 1 else 0] := Except.mapM_eq_ok.2 (.cons hstride .nil)
  have hlen : (front ++ [last]).length = front.length + 1 := by simp
  have hrank : (Shape.scalar t).rank = 1 := rfl
  rw [multibroadcastShape, hlen, hrank]
  rw [if_neg (by omega), Word.sub_eq_ok (by omega)]
  change ((List.range 1).mapM (repeatedStride op (Shape.scalar t) (front ++ [last]) front.length) >>= _)
    = _
  rw [hstrides]
  exact Except.lift_eq_ok.2 (if_pos (by simp))

private theorem addressable_splatShape {front : List Nat} {last : Nat} (ht : t ≠ .tuple)
    (ha : (packedOf t (front ++ [last])).addressable = true) :
    (splatShape t front last).addressable = true := by
  rw [packedOf, addressable, if_neg ht, Bool.and_eq_true] at ha
  rw [splatShape, addressable, if_neg ht, Bool.and_eq_true]
  refine ⟨ha.1, ?_⟩
  have haxes : ∀ p ∈ (front ++ [last]).zip (List.replicate front.length 0 ++ [if last = 1 then 1 else 0]),
      (p.1 - 1) * p.2 = 0 := by
    intro p hp
    rw [List.zip_append (by simp), List.mem_append] at hp
    rcases hp with hp | hp
    · rw [List.eq_of_mem_replicate (List.of_mem_zip hp).2]
      rfl
    · rw [List.mem_singleton.1 hp]
      by_cases hone : last = 1 <;> simp [hone]
  have hsize : (Word.mul? 1 t.size).isSome = true := by cases t <;> rfl
  exact (congrArg (fun n => (n.bind (Word.mul? · t.size)).isSome) (foldlM_span_eq_one _ haxes)).trans hsize

/-- A broadcast has axes if its input has, and is static. -/
theorem axes_of_isBroadcast {ins : List Shape} {mods : List (List Shape)} (hop : op.isBroadcast = true)
    (h : op.inferShape ins mods = .ok r) : ∃ x, ins = [x] ∧ x.isDynamic = false ∧ x.isTuple = false ∧
      r.isDynamic = false ∧ r.isTuple = false ∧ (x.lens ≠ [] → r.lens ≠ []) := by
  have hraw := (inferShape_eq_ok.1 h).1
  cases op with
  | broadcast axis outLens =>
    obtain ⟨x, rfl, ht, hd, hx⟩ := static_eq_ok.1 hraw
    obtain ⟨hle, -, rfl⟩ := of_broadcastShape_eq_ok hd hx
    refine ⟨x, rfl, hd, ht, rfl, ht, fun hne hnil => hne (List.length_eq_zero_iff.1 ?_)⟩
    rw [show outLens = [] from hnil, List.length_nil] at hle
    omega
  | multibroadcast outLens =>
    obtain ⟨x, rfl, ht, hd, hx⟩ := static_eq_ok.1 hraw
    obtain ⟨hle, _, -, -, rfl⟩ := of_multibroadcastShape_eq_ok hd hx
    refine ⟨x, rfl, hd, ht, rfl, ht, fun hne hnil => hne (List.length_eq_zero_iff.1 ?_)⟩
    rw [show outLens = [] from hnil, List.length_nil] at hle
    omega
  | _ => cases hop

/-- A single element can be repeated along any axes. The result is packed only if there is nothing to
repeat. -/
theorem inferShape_splat (hl : lens ≠ []) (ht : t ≠ .tuple)
    (ha : (packedOf t lens).addressable = true) :
    ∃ r, (multibroadcast lens).inferShape [Shape.scalar t] [] = .ok r ∧ Over t lens r ∧
      (r.isPacked = .ok true → r.strides = standardStrides lens) := by
  obtain ⟨front, last, rfl⟩ : ∃ front last, lens = front ++ [last] :=
    ⟨_, _, (List.dropLast_append_getLast hl).symm⟩
  have haddr := addressable_splatShape ht ha
  refine ⟨splatShape t front last, inferShape_eq_ok.2 ⟨?_, haddr⟩, ⟨rfl, rfl, rfl, rfl, haddr⟩, ?_⟩
  · refine static_eq_ok.2 ⟨Shape.scalar t, rfl, ?_, rfl, multibroadcastShape_scalar _ _ _ _⟩
    simpa [Shape.scalar, packedOf, isTuple] using ht
  · intro hpacked
    have hzero := zero_notMem_of_isPacked hpacked
    have hfront : front = [] := by
      cases front with
      | nil => rfl
      | cons len front => exact absurd (by simp [splatShape, List.replicate_succ]) hzero
    subst hfront
    by_cases hone : last = 1
    · subst hone
      rfl
    · exact absurd (by simp [splatShape, hone]) hzero

end Operator
end TensorGraph
