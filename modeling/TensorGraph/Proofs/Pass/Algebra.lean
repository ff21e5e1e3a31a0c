import TensorGraph.Proofs.Module.Values
import TensorGraph.Proofs.Operator.Elements
import TensorGraph.Proofs.Pass.Simplification

/-! Algebraic identities on integers. Where no negation leaves the range of its type and no sign of a
zero is lost, what is replaced by its operand has the value of the operand, so that all values stay.
Without these conditions values change. -/
namespace TensorGraph.Pass
open TensorGraph.Action TensorGraph.Module
variable {m m' : Module} {value : InstructionId → Option Literal} {i x c : InstructionId}
  {n k : Instruction} {v : Literal}

namespace Algebra

/-- The values that some instructions have are integers, follow from one another, and are computed
without loss. -/
structure Labelled (m : Module) (value : InstructionId → Option Literal) : Prop where
  accepted : Accepted m
  proper : Proper m
  valued : m.Valued (fun i => (value i).isSome) value
  integral : ∀ i v, value i = some v → v.shape.isTuple = false → v.shape.elementType.isIntegral = true
  exact : ∀ i n args, (value i).isSome → m.core? i = some n → n.inputs.map value = args.map some →
    n.op.Exact args

section Labelled
variable (h : Labelled m value)
include h

theorem Labelled.of_core? (hv : value i = some v) (hn : m.core? i = some n) :
    n.valueFrom value = .ok (some v) := by
  rw [← hv]
  exact h.valued.of_core? (by simp [hv]) hn

theorem Labelled.made (hv : value i = some v) : v.Made ∧ v.shape = (m.shapeOf i).asStandard :=
  h.valued.made h.accepted h.proper (by simp [hv]) hv

theorem Labelled.elements (hv : value i = some v) : (m.shapeOf i).elements = .ok v.data.size := by
  obtain ⟨hmade, hs⟩ := h.made hv
  rw [← Shape.elements_asStandard, ← hs, hmade.elements]

private theorem Labelled.isInteger (hv : value i = some v) (ht : (m.shapeOf i).isTuple = false)
    {e : Float} (he : e ∈ v.data) : Scalar.IsInteger e := by
  obtain ⟨hmade, hs⟩ := h.made hv
  rw [← Shape.isTuple_asStandard, ← hs] at ht
  exact Scalar.isInteger_of_cast (h.integral i v hv ht) (hmade.cast_eq he)

/-- What the value of an instruction is computed from. -/
theorem Labelled.arguments (hv : value i = some v) (hn : m.core? i = some n)
    (hop : ∀ w, n.op ≠ .literal w) :
    ∃ args, n.inputs.map value = args.map some ∧ n.op.evaluate n.shape args = .ok (some v) ∧
      n.op.Exact args := by
  obtain ⟨-, -, -, args, hargs, he⟩ := (Instruction.valueFrom_eq_some hop).1 (h.of_core? hv hn)
  rw [Instruction.mapM_eq_some] at hargs
  exact ⟨args, hargs, he, h.exact i n args (by simp [hv]) hn hargs⟩

theorem Labelled.fresh : value m.nextId = none := by
  cases hv : value m.nextId with
  | none => rfl
  | some v =>
    have hdead : m.core? m.nextId = none := by simp [core?, get?_nextId]
    exact hv.symm.trans (h.valued.of_dead (by simp [hv]) hdead)

/-- Under broadcasting views, the same elements are found. -/
theorem Labelled.mem_of_underBroadcasts {views : Nat} {d : InstructionId}
    (hd : Pattern.underBroadcasts m views c = .ok d) (hv : value c = some v) :
    ∃ w, value d = some w ∧ ∀ e ∈ v.data, e ∈ w.data := by
  refine Pattern.of_views (P := fun c => ∀ v, value c = some v → ∃ w, value d = some w ∧
    ∀ e ∈ v.data, e ∈ w.data) h.accepted hd (fun v hv => ⟨v, hv, fun _ he => he⟩)
    (fun c n input hn hop hin hfits ih v hv => ?_) v hv
  obtain ⟨_, hs, htype⟩ := Operator.elementType_of_isBroadcast hop hfits
  cases hs
  have hne : ∀ w, n.op ≠ .literal w := by
    intro w hw
    rw [hw] at hop
    cases hop
  obtain ⟨args, hargs, he, -⟩ := h.arguments hv hn hne
  rw [hin] at hargs
  obtain ⟨u, rfl, hu⟩ := List.map_eq_singleton_iff.1 hargs.symm
  obtain ⟨hmade, hshape⟩ := h.made hu.symm
  obtain ⟨w, hw, hmem⟩ := ih u hu.symm
  refine ⟨w, hw, fun e hev => hmem e (Operator.mem_of_isBroadcast hop hmade ?_ he hev)⟩
  rw [← shapeOf_of_core? hn, htype, hshape, Shape.elementType_asStandard]

/-- The elements of a constant are integers that count as its value. -/
theorem Labelled.constant {a : Float} (hc : ConstantAt m a c) (hv : value c = some v)
    (ht : (m.shapeOf c).isTuple = false) :
    ∀ e ∈ v.data, Scalar.IsInteger e ∧ Scalar.approxEqual e a = true := by
  obtain ⟨views, d, w, hd, heval, hall⟩ := hc
  obtain ⟨u, hu, hmem⟩ := h.mem_of_underBroadcasts hd hv
  have hfound := h.valued.eval_eq h.accepted.linked h.accepted.ordered (i := d) (by simp [hu])
  rw [hu, heval] at hfound
  cases hfound
  rw [Literal.allEqual, Bool.and_eq_true, Array.all_eq_true_iff_forall_mem] at hall
  exact fun e he => ⟨h.isInteger hv ht he, hall.2 e (hmem e he)⟩

/-- The operands of a binary operator with a value have values with as many elements. -/
theorem Labelled.of_binary {f : Binary} {j : InstructionId} (hv : value i = some v)
    (hn : m.get? i = some n) (hop : n.op = .binary f) (hj : j ∈ n.inputs) :
    ∃ p q u w, n.inputs = [p, q] ∧ value p = some u ∧ value q = some w ∧
      (m.shapeOf p).isTuple = false ∧ (m.shapeOf q).isTuple = false ∧ u.data.size = w.data.size ∧
        (Operator.binary f).evaluate n.shape [u, w] = .ok (some v) ∧
          (Operator.binary f).Exact [u, w] := by
  have hcore := core?_of_get? hn
  replace hop : n.core.op = .binary f := hop
  have hne : ∀ w, n.core.op ≠ .literal w := by simp [hop]
  obtain ⟨args, hargs, he, hexact⟩ := h.arguments hv hcore hne
  obtain ⟨hraw, -⟩ := Operator.inferShape_eq_ok.1 (h.accepted.fits_of_mem hcore hj)
  rw [hop, Operator.rawShape_binary] at hraw
  obtain ⟨s, t, hin, hst, htt, -, hdims, hp⟩ := hraw
  obtain ⟨p, q, hpq⟩ := List.length_eq_two.1 (by simpa using congrArg List.length hin)
  rw [hpq] at hin hargs
  obtain ⟨u, w, rfl⟩ := List.length_eq_two.1 (by simpa using (congrArg List.length hargs).symm)
  simp only [List.map_cons, List.map_nil, List.cons.injEq, and_true] at hin hargs
  obtain ⟨rfl, rfl⟩ := hin
  obtain ⟨hu, hw⟩ := hargs
  rw [hop] at he hexact
  have hd : n.shape.isDynamic = false := (fills_of_valueFrom hne (h.of_core? hv hcore)).static
  have hp := Operator.Inference.pointwise_of_eq_ok hp
  exact ⟨p, q, u, w, hpq, hu, hw, hst, htt,
    Operator.size_eq_of_binary hp hst htt hdims hd (h.elements hu) (h.elements hw) he, he, hexact⟩

/-- Beside a neutral element, the operand has the value of the result. -/
theorem Labelled.of_neutral {f : Binary} {a : Float} {commutative : Bool}
    (hf : f.Neutral a commutative) (hm : Neutral m f a commutative i x n c) (hv : value i = some v)
    (hs : n.shape.asStandard = (m.shapeOf x).asStandard) : value x = some v := by
  obtain ⟨p, q, u, w, hin, hu, hw, hp, hq, hsize, he, hexact⟩ :=
    h.of_binary hv hm.root hm.op hm.mem_inputs
  rcases hm.inputs with ⟨hx, hc⟩ | ⟨hcomm, hc, hx⟩ <;> rw [hin] at hx hc <;> cases hx <;> cases hc
  · obtain ⟨hmade, hshape⟩ := h.made hu
    rw [hu, Operator.eq_of_neutral_right hf hsize hexact he hmade (hshape.trans hs.symm)
      (h.constant hm.constant hw hq)]
  · obtain ⟨hmade, hshape⟩ := h.made hw
    rw [hw, Operator.eq_of_neutral_left hf hsize hexact he hcomm hmade (hshape.trans hs.symm)
      (h.constant hm.constant hu hp)]

/-- The operand of a unary operator with a value has one with as many elements of the type. -/
theorem Labelled.of_unary {f : Unary} {j : InstructionId} (hv : value i = some v)
    (hn : m.get? i = some n) (hop : n.op = .unary f) (hj : j ∈ n.inputs) :
    ∃ u, value j = some u ∧ (Operator.unary f).evaluate n.shape [u] = .ok (some v) ∧
      (Operator.unary f).Exact [u] ∧ n.shape.elementType = u.shape.elementType ∧
        n.shape.elements = .ok u.data.size := by
  have hcore := core?_of_get? hn
  replace hop : n.core.op = .unary f := hop
  have hne : ∀ w, n.core.op ≠ .literal w := by simp [hop]
  obtain ⟨args, hargs, he, hexact⟩ := h.arguments hv hcore hne
  obtain ⟨hraw, -⟩ := Operator.inferShape_eq_ok.1 (h.accepted.fits_of_mem hcore hj)
  rw [hop, Operator.rawShape_unary] at hraw
  obtain ⟨s, hin, -, hp⟩ := hraw
  obtain ⟨p, hinputs, rfl⟩ := List.map_eq_singleton_iff.1 hin
  obtain rfl : j = p := by
    replace hinputs : n.inputs = [p] := hinputs
    rwa [hinputs, List.mem_singleton] at hj
  rw [hinputs] at hargs
  obtain ⟨u, rfl, hu⟩ := List.map_eq_singleton_iff.1 hargs.symm
  rw [hop] at he hexact
  have hd : n.shape.isDynamic = false := (fills_of_valueFrom hne (h.of_core? hv hcore)).static
  have hp := Operator.Inference.pointwise_of_eq_ok hp
  refine ⟨u, hu.symm, he, hexact, ?_, (hp.elements_eq hd).trans (h.elements hu.symm)⟩
  rw [(h.made hu.symm).2, Shape.elementType_asStandard]
  exact hp.elementType_eq

/-- The operand of two negations has the value of the result. -/
theorem Labelled.of_negations {j : InstructionId} (hm : Negations m i x n j k) (hv : value i = some v)
    (hs : n.shape.asStandard = (m.shapeOf x).asStandard) : value x = some v := by
  obtain ⟨w, hw, he, -⟩ := h.of_unary hv hm.root hm.op hm.input
  obtain ⟨u, hu, he', hexact, htype, hcount⟩ := h.of_unary hw hm.inner hm.innerOp hm.operand
  obtain ⟨hmade, hshape⟩ := h.made hu
  rw [hu, Operator.eq_of_negations hmade hexact htype hcount (hshape.trans hs.symm) he' he]

/-- Values stay when an instruction is forwarded to one with its value. -/
theorem Labelled.forward {old new : InstructionId} (hf : Forwarded m old new m')
    (hlt : m.order.idxOf new < m.order.idxOf old) (hs : m.shapeOf old = m.shapeOf new)
    (hold : ∀ v, value old = some v → value new = some v ∧ v.Fills (m.shapeOf old)) :
    Labelled m' value := by
  have hne : old ≠ new := fun he => Nat.lt_irrefl _ (he ▸ hlt)
  have hvalued : m'.Valued (fun i => (value i).isSome) value := by
    refine h.valued.forward h.accepted hf hlt hs fun hsome => ?_
    obtain ⟨v, hv⟩ := Option.isSome_iff_exists.1 hsome
    obtain ⟨hnew, hfills⟩ := hold v hv
    exact ⟨by simp [hnew], v, hv, hnew, hfills⟩
  refine ⟨(hf.upholds h.accepted hlt hs).accepted, hf.proper h.accepted h.proper hlt hs, hvalued,
    h.integral, fun i n args hi hn hargs => ?_⟩
  rcases hf.core?_cases hne h.accepted.linked hn with
    he | ⟨k, hk, he, hmem, -⟩ | ⟨-, -, before, after, hr, rfl⟩
  · exact h.exact i n args hi he hargs
  -- What has a value and used `old` knew its value, so that it is given the same arguments.
  · obtain ⟨v, hv⟩ := Option.isSome_iff_exists.1
      (h.valued.closed i hi old (inputsOf_of_core? hk ▸ hmem))
    rw [he] at hargs ⊢
    exact h.exact i k args hi hk ((map_forward (hv.trans (hold v hv).1.symm) _).symm.trans hargs)
  · change after.op.Exact args
    rw [hr.op_eq]
    trivial

/-- A row-major copy has the value of its operand. -/
theorem Labelled.place {p : Nat} (hn : n.op = .contiguous) (hin : n.inputs = [x])
    (hx : (m.get? x).isSome) (hs : n.shape.WellFormed ∧ n.shape.addressable = true)
    (hfills : ∀ v, value x = some v → v.Fills n.shape) (hu : Upholds m (m.place p n)) :
    Labelled (m.place p n) (Function.update value m.nextId (value x)) := by
  have hlive : ∀ j ∈ n.inputs, (m.get? j).isSome := by simpa [hin] using hx
  have hold : ∀ j, (m.get? j).isSome → Function.update value m.nextId (value x) j = value j := by
    refine fun j hj => Function.update_of_ne ?_ _ _
    rintro rfl
    simp [get?_nextId] at hj
  refine ⟨hu.accepted, h.proper.place p hs (by simp [hn]), ?_, fun i v hv => ?_,
    fun i k args hi hk hargs => ?_⟩
  · refine h.valued.place h.accepted.linked hlive (fun i hne => ?_) fun hsome => ?_
    · rw [Function.update_of_ne hne]
    · rw [Function.update_self] at hsome
      obtain ⟨v, hv⟩ := Option.isSome_iff_exists.1 hsome
      refine ⟨?_, by simp [hin, hv]⟩
      rw [hv]
      exact valueFrom_copy (.inr hn) hin (hfills v hv) hv
  · rw [Function.update_apply] at hv
    split at hv
    · exact h.integral x v hv
    · exact h.integral i v hv
  · rw [core?_place] at hk
    split at hk
    · cases hk
      change n.op.Exact args
      rw [hn]
      trivial
    · rename_i hne
      have hlive : ∀ j ∈ k.inputs, (m.get? j).isSome := fun j hj =>
        h.accepted.linked.live_input (inputsOf_of_core? hk ▸ hj)
      rw [Function.update_of_ne hne] at hi
      rw [List.map_congr_left fun j hj => hold j (hlive j hj)] at hargs
      exact h.exact i k args hi hk hargs

end Labelled

/-- The values are kept, and others may have been added. -/
def Retains (value : InstructionId → Option Literal) (m : Module) : Prop :=
  ∃ value', Labelled m value' ∧ ∀ i v, value i = some v → value' i = some v

theorem Retains.linked (h : Retains value m) : Linked m := by
  obtain ⟨value', h, -⟩ := h
  exact h.accepted.linked

theorem Retains.trans {value' : InstructionId → Option Literal} (h : Retains value' m)
    (hkept : ∀ i v, value i = some v → value' i = some v) : Retains value m := by
  obtain ⟨value'', h, hkept'⟩ := h
  exact ⟨value'', h, fun i v hv => hkept' i v (hkept i v hv)⟩

section Operand
variable (h : Labelled m value) (ho : Operand m i x n k)
include h ho

/-- The root is forwarded to an operand that has its shape and its value. -/
theorem forward_retains (hs : k.shape = n.shape)
    (hvalue : ∀ v, value i = some v → value x = some v ∧ v.Fills n.shape) :
    (replaceWith i x).Leaves m (fun _ => Retains value) fun _ _ => False := by
  have hi := shapeOf_of_get? ho.root
  have hx := shapeOf_of_get? ho.operand
  have ha : k.shape.addressable = true := hs ▸ (h.proper.shape i _ (core?_of_get? ho.root)).2
  refine (h.accepted.replaceWith_forwards ho.root ho.plain.output ho.operand hs ho.earlier fun _ =>
    ha).imp fun _ m' hf => ⟨value, h.forward hf ho.earlier ?_ ?_, fun _ _ hv => hv⟩
  · rw [hi, hx, hs]
  · rw [hi]
    exact hvalue

/-- The root is forwarded to a row-major copy of an operand that has its value. -/
theorem copy_retains (hst : n.shape.isStandard = .ok true) (hs : n.shape = k.shape.asStandard)
    (hcopy : Operator.contiguous.inferShape ([x].map m.shapeOf) [] = .ok n.shape)
    (hvalue : ∀ v, value i = some v → value x = some v ∧ v.Fills n.shape) :
    (insert i .contiguous [x] >>= fun copy => replaceWith i copy).Leaves m (fun _ => Retains value)
      fun _ _ => False := by
  have hcore := core?_of_get? ho.root
  have hi : (m.get? i).isSome := by simp [ho.root]
  have hne : i ≠ m.nextId := by
    rintro rfl
    simp [get?_nextId] at hi
  have hlive : ∀ j ∈ [x], (m.get? j).isSome ∧ m.order.idxOf j < m.order.idxOf i := by
    simpa [ho.operand] using ho.earlier
  obtain ⟨hu, hlt, hshape, hleaves⟩ :=
    h.accepted.insert_forwards ho.root ho.plain.output plain_contiguous hlive hcopy rfl
  have hfills : ∀ v, value x = some v → v.Fills n.shape := by
    intro v hv
    obtain ⟨hmade, hv⟩ := h.made hv
    refine ⟨hmade, ?_, ?_, (Shape.not_isDynamic_of_isPacked (Shape.isPacked_of_isStandard hst)).1⟩
    · rw [hv, shapeOf_of_get? ho.operand, hs, Shape.asStandard_asStandard]
    · rw [hs, Shape.isTuple_asStandard]
      exact ho.single
  have h' := h.place (n := { op := .contiguous, inputs := [x], shape := n.shape }) rfl rfl
    (by simp [ho.operand]) (h.proper.shape i n.core hcore) hfills hu
  refine hleaves.imp fun _ m' hf => ⟨_, h'.forward hf hlt hshape fun v hv => ?_, fun j v hv => ?_⟩
  · rw [Function.update_of_ne hne] at hv
    rw [Function.update_self, shapeOf_of_core? ((core?_place_of_live hi _ _).trans hcore)]
    exact hvalue v hv
  · rw [Function.update_of_ne ?_, hv]
    rintro rfl
    cases hv.symm.trans h.fresh

private theorem replaceKeepingShape_retains {E : Failure → Module → Prop}
    (hop : ∀ w, n.op ≠ .literal w)
    (hvalue : ∀ v, value i = some v → n.shape.asStandard = (m.shapeOf x).asStandard → value x = some v) :
    (replaceKeepingShape i x).Leaves m (fun _ => Retains value) E := by
  have hcore := core?_of_get? ho.root
  have hx := shapeOf_of_get? ho.operand
  have hsame : n.shape.asStandard = (m.shapeOf x).asStandard →
      ∀ v, value i = some v → value x = some v ∧ v.Fills n.shape := fun hs v hv =>
    ⟨hvalue v hv hs, fills_of_valueFrom (n := n.core) hop (h.of_core? hv hcore)⟩
  refine replaceKeepingShape_leaves ho (h.proper.shape i _ hcore).2 ⟨value, h, fun _ _ hv => hv⟩
    (fun hs => ?_) fun hst hs hcopy => ?_
  · refine (forward_retains h ho hs (hsame ?_)).mono (fun _ _ hm => hm) fun _ _ hf => hf.elim
    rw [hx, hs]
  · refine (copy_retains h ho hst hs hcopy (hsame ?_)).mono (fun _ _ hm => hm) fun _ _ hf => hf.elim
    rw [hx, hs, Shape.asStandard_asStandard]

end Operand

/-- An operator breaks down on constant arguments, and until then the values are kept. -/
def Stops (value : InstructionId → Option Literal) (e : Failure) (m : Module) : Prop :=
  BrokenConstant e m ∧ Retains value m

private theorem neutral_retains {f : Binary} {a : Float} {commutative : Bool}
    (hf : f.Neutral a commutative) :
    (neutral f.name a commutative).Keeps (Retains value) (Stops value) := by
  refine keeps_of_yields _ (fun m f hm hfault => ⟨⟨f, rfl, hfault⟩, hm⟩)
    (fun m i h hi => yields_neutral h.linked f a commutative hi) fun m r h hq => ?_
  obtain ⟨value', h, hkept⟩ := h
  obtain ⟨x, n, c, hb, hm⟩ := hq
  obtain ⟨k, ho⟩ := hm.isOperand h.accepted h.proper.constant fun i n hn =>
    (h.proper.shape i _ (core?_of_get? hn)).1.tidy
  exact keepOperand_leaves hb ((replaceKeepingShape_retains h ho (by simp [hm.op]) fun v hv hs =>
    h.of_neutral hf hm hv hs).imp fun _ m' hm' => hm'.trans hkept)

private theorem doubleNegation_retains : doubleNegation.Keeps (Retains value) (Stops value) := by
  refine keeps_of_yields _ (fun m f hm hfault => ⟨⟨f, rfl, hfault⟩, hm⟩)
    (fun m i _ hi => yields_doubleNegation hi) fun m r h hq => ?_
  obtain ⟨value', h, hkept⟩ := h
  obtain ⟨x, n, j, k, hb, hm⟩ := hq
  obtain ⟨a, ho⟩ := hm.isOperand h.accepted
  exact keepOperand_leaves hb ((replaceKeepingShape_retains h ho (by simp [hm.op]) fun v hv hs =>
    h.of_negations hm hv hs).imp fun _ m' hm' => hm'.trans hkept)

/-- Nothing that has a value is computed with loss. -/
def Lossless (m : Module) : Prop :=
  ∀ i n args, (m.value? i).isSome → m.get? i = some n → n.inputs.map m.value? = args.map some →
    n.op.Exact args

/-- All elements are integers. -/
def Integral (m : Module) : Prop :=
  ∀ i n, m.get? i = some n → n.shape.isTuple = false → n.shape.elementType.isIntegral = true

section Order
variable (hl : Linked m)
include hl

private theorem lossless_of_order (h : ∀ i ∈ m.order, ∀ n ∈ m.get? i, ∀ args ∈ n.inputs.mapM m.value?,
    n.op.Exact args) : Lossless m := by
  intro i n args _ hn hargs
  exact h i ((hl.mem_order i).2 (by simp [hn])) n hn args (Instruction.mapM_eq_some.2 hargs)

private theorem integral_of_order (h : ∀ i ∈ m.order, ∀ n ∈ m.get? i, n.shape.isTuple = false →
    n.shape.elementType.isIntegral = true) : Integral m := fun i n hn =>
  h i ((hl.mem_order i).2 (by simp [hn])) n hn

end Order

private theorem labelled_of_lossless (h : Accepted m) (hp : Proper m) (hint : Integral m)
    (hexact : Lossless m) : Labelled m m.value? := by
  refine ⟨h, hp, h.valued, fun i v hv ht => ?_, fun i n args hi hn hargs => ?_⟩
  · obtain ⟨n, hn⟩ : ∃ n, m.core? i = some n := by
      refine Option.isSome_iff_exists.1 (Option.isSome_iff_ne_none.2 fun hdead => ?_)
      cases hv.symm.trans (h.valued.of_dead (by simp [hv]) hdead)
    obtain ⟨k, hk, rfl⟩ := exists_get?_of_core? hn
    obtain ⟨-, hs⟩ := h.valued.made h hp (by simp [hv]) hv
    rw [shapeOf_of_get? hk] at hs
    rw [hs, Shape.isTuple_asStandard] at ht
    rw [hs, Shape.elementType_asStandard]
    exact hint i k hk ht
  · obtain ⟨k, hk, rfl⟩ := exists_get?_of_core? hn
    exact hexact i k args hi hk hargs

end Algebra

open TensorGraph.Pass.Algebra

private theorem algebra_retains (h : Labelled m value) :
    algebra.run.Leaves m (fun _ => Retains value) (Stops value) := by
  refine Rule.sweep_leaves (fun rule hrule => ?_) ⟨value, h, fun _ _ hv => hv⟩
  simp only [List.mem_cons, List.not_mem_nil, or_false] at hrule
  rcases hrule with rfl | rfl | rfl | rfl | rfl
  · exact neutral_retains (f := .add) Binary.neutral_add
  · exact neutral_retains (f := .sub) Binary.neutral_sub
  · exact neutral_retains (f := .mul) Binary.neutral_mul
  · exact neutral_retains (f := .div) Binary.neutral_div
  · exact doubleNegation_retains

/-- On every module that edits build, that passes its check and whose elements are integers, the values
of all instructions stay the same when identities are applied, provided that no negation leaves the
range of its type and no sign of a zero is lost. The pass ends well, or an operator breaks down on
constant arguments. -/
theorem algebra_preserves_eval (hb : Built m) (hv : m.validate = .ok ()) (hp : Proper m)
    (hint : Integral m) (hexact : Lossless m) :
    ((∃ changed, (algebra.run m).result = .ok changed) ∨
      ∃ f, (algebra.run m).result = .error (.broken f) ∧ (algebra.run m).state.ConstantFault f) ∧
    ∀ i v, m.eval i = .ok (some v) → (algebra.run m).state.eval i = .ok (some v) := by
  have hrun := algebra_retains (labelled_of_lossless (hb.accepted hv) hp hint hexact)
  have hvalues : Retains m.value? (algebra.run m).state →
      ∀ i v, m.eval i = .ok (some v) → (algebra.run m).state.eval i = .ok (some v) := by
    rintro ⟨value, h, hkept⟩ i v hi
    have hv := hkept i v (value?_eq_some.2 hi)
    rw [h.valued.eval_eq h.accepted.linked h.accepted.ordered (by simp [hv]), hv]
  cases hresult : (algebra.run m).result with
  | ok changed => exact ⟨.inl ⟨changed, rfl⟩, hvalues (hrun.ok hresult)⟩
  | error e =>
    obtain ⟨⟨f, rfl, hf⟩, hm⟩ := hrun.error hresult
    exact ⟨.inr ⟨f, rfl, hf⟩, hvalues hm⟩

/-- Zero is added from both sides to small integers, which are then negated twice. -/
private def cancelling : Module :=
  Mutation.applyAll (Module.empty "main")
    [.addLiteral ⟨.packedOf .int8 [2], #[3, -4], by decide⟩,
      .addLiteral ⟨.packedOf .int8 [1], #[0], by decide⟩,
      .add (.multibroadcast [2]) [⟨1⟩], .add (.binary .add) [⟨2⟩, ⟨0⟩], .add (.binary .sub) [⟨3⟩, ⟨2⟩],
      .add (.unary .neg) [⟨4⟩], .add (.unary .neg) [⟨5⟩], .add (.unary .relu) [⟨6⟩]]

theorem algebra_preserves_eval_cancelling :
    Built cancelling ∧ cancelling.validate = .ok () ∧ Proper cancelling ∧ Integral cancelling ∧
    Lossless cancelling ∧
    (algebra.run cancelling).result = .ok true ∧
    (algebra.run cancelling).state.inputsOf ⟨7⟩ = [⟨0⟩] ∧
    cancelling.eval ⟨7⟩ = .ok (some ⟨.packedOf .int8 [2], #[3, 0], by decide⟩) ∧
    (algebra.run cancelling).state.eval ⟨7⟩ = .ok (some ⟨.packedOf .int8 [2], #[3, 0], by decide⟩) := by
  have hb : Built cancelling := (Built.empty "main").applyAll _
  have hv : cancelling.validate = .ok () := by decide +kernel
  have hp : Proper cancelling := proper_of_order hb.linked (by decide +kernel)
  have hint : Integral cancelling := integral_of_order hb.linked (by decide +kernel)
  have hexact : Lossless cancelling := lossless_of_order hb.linked (by decide +kernel)
  have heval : cancelling.eval ⟨7⟩ = .ok (some ⟨.packedOf .int8 [2], #[3, 0], by decide⟩) := by
    decide +kernel
  have hrun : (algebra.run cancelling).result = .ok true ∧
      (algebra.run cancelling).state.inputsOf ⟨7⟩ = [⟨0⟩] := by
    unfold algebra neutral doubleNegation keepOperand replaceKeepingShape replaceWith checkRedirect
    simp only [dependsOn_eq_getD 16]
    decide +kernel
  exact ⟨hb, hv, hp, hint, hexact, hrun.1, hrun.2, heval,
    (algebra_preserves_eval hb hv hp hint hexact).2 ⟨7⟩ _ heval⟩

/-- A positive integer of an unsigned type is negated twice. -/
private def saturating : Module :=
  Mutation.applyAll (Module.empty "main")
    [.addLiteral ⟨.packedOf .uint8 [1], #[5], by decide⟩, .add (.unary .neg) [⟨0⟩],
      .add (.unary .neg) [⟨1⟩], .add (.unary .relu) [⟨2⟩]]

/-- Zero is added to the negative zero, and the reciprocal taken. -/
private def signedZero : Module :=
  Mutation.applyAll (Module.empty "main")
    [.addLiteral ⟨.packedOf .int8 [1], #[0], by decide⟩, .add (.unary .neg) [⟨0⟩],
      .add (.binary .add) [⟨1⟩, ⟨0⟩], .add (.unary .recip) [⟨2⟩]]

/-- Where a negation saturates, or the sign of a zero is lost, values change. -/
theorem algebra_changes_lossy :
    (Built saturating ∧ saturating.validate = .ok () ∧ Proper saturating ∧ Integral saturating ∧
      saturating.eval ⟨3⟩ = .ok (some ⟨.packedOf .uint8 [1], #[0], by decide⟩) ∧
      (algebra.run saturating).result = .ok true ∧
      (algebra.run saturating).state.eval ⟨3⟩ = .ok (some ⟨.packedOf .uint8 [1], #[5], by decide⟩)) ∧
    Built signedZero ∧ signedZero.validate = .ok () ∧ Proper signedZero ∧ Integral signedZero ∧
      signedZero.eval ⟨3⟩ = .ok (some ⟨.packedOf .int8 [1], #[127], by decide⟩) ∧
      (algebra.run signedZero).result = .ok true ∧
      (algebra.run signedZero).state.eval ⟨3⟩ = .ok (some ⟨.packedOf .int8 [1], #[-128], by decide⟩) := by
  have hb : Built saturating := (Built.empty "main").applyAll _
  have hz : Built signedZero := (Built.empty "main").applyAll _
  refine ⟨⟨hb, by decide +kernel, proper_of_order hb.linked (by decide +kernel),
    integral_of_order hb.linked (by decide +kernel), by decide +kernel, ?_⟩,
    hz, by decide +kernel, proper_of_order hz.linked (by decide +kernel),
    integral_of_order hz.linked (by decide +kernel), by decide +kernel, ?_⟩ <;>
  · unfold algebra neutral doubleNegation keepOperand replaceKeepingShape replaceWith checkRedirect
    simp only [dependsOn_eq_getD 16]
    decide +kernel

end TensorGraph.Pass
