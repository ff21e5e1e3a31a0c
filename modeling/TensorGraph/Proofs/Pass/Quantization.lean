import TensorGraph.Pass.Quantization
import TensorGraph.Proofs.Module.Expansion
import TensorGraph.Proofs.Pattern

/-! Lowering quantization keeps layouts, except where the operands of a dequantization share a packed
layout that is not row-major. It ends well where quantizations have axes and what is converted fits in
memory. -/
namespace TensorGraph.Pass
open TensorGraph.Action TensorGraph.Module
variable {m m' m₀ : Module} {i j root x : InstructionId} {n : Instruction}

namespace Quantization
open TensorGraph.Operator TensorGraph.Operator.Inference TensorGraph.Shape
variable {ins : List Shape} {mods : List (List Shape)} {s out : Shape} {t u : ElementType}
  {lens : List Nat} {kind : Operator → Prop} {env : List (InstructionId × Shape)}

private theorem operands_of_eq_ok {op : String} (shape : Shape → Shape → Option Shape → Infer Shape)
    (h : (do
      hasBetween 2 3 op ins
      onlyStatic op ins
      sameLens op ins
      shape (← Fault.inRange ins[0]?) (← Fault.inRange ins[1]?) ins[2]?) = .ok out) :
    ∃ x scale rest, ins = x :: scale :: rest ∧ rest.length ≤ 1 ∧
      (∀ s ∈ ins, s.isTuple = false ∧ s.isDynamic = false ∧ s.lens = x.lens) ∧
        shape x scale rest.head? = .ok out := by
  obtain ⟨hcount, h⟩ := Except.seq_eq_ok.1 h
  obtain ⟨hstatic, h⟩ := Except.seq_eq_ok.1 h
  obtain ⟨hlens, h⟩ := Except.seq_eq_ok.1 h
  rw [hasBetween] at hcount
  split at hcount
  swap
  · cases hcount
  rename_i hlen
  match ins, hlen with
  | x :: scale :: rest, hlen =>
    rw [onlyStatic_eq_ok] at hstatic
    rw [sameLens, agree_eq_ok] at hlens
    have hrest : rest.length ≤ 1 := by
      simp only [List.length_cons] at hlen
      omega
    refine ⟨x, scale, rest, rfl, hrest, fun s hs => ?_, ?_⟩
    · refine ⟨hstatic.1 s hs, hstatic.2 s hs, ?_⟩
      rcases List.mem_cons.1 hs with rfl | hs
      · rfl
      · exact hlens s hs
    · cases rest <;> exact h

private theorem shape_of_quantizeShape {op : String} {x scale : Shape} {z : Option Shape}
    (h : quantizeShape op x scale z = .ok out) :
    out = packedOf ((z.map Shape.elementType).getD .uint8) x.lens := by
  rw [quantizeShape] at h
  split at h
  · cases h
  · cases h
    rfl

private theorem shape_of_dequantizeShape {op : String} {x scale : Shape} {z : Option Shape}
    (h : dequantizeShape op x scale z = .ok out) : out = packedOf scale.elementType x.lens := by
  cases z with
  | none =>
    cases h
    rfl
  | some z =>
    dsimp only [dequantizeShape] at h
    split at h
    · cases h
    · cases h
      rfl

/-- What lowering asks of the operands of a quantization or a dequantization. They have to fit in
memory when converted to the type of the scale. A quantization has to have axes, since its limits are
repeated along them. The operands of a dequantization that share a packed layout hand it on, so it has
to be row-major. -/
structure Lowerable (op : Operator) (x scale : Shape) (rest : List Shape) : Prop where
  converts : ∀ s ∈ x :: rest, s.isPacked = .ok true →
    (s.withType scale.elementType).addressable = true
  fits : op = .quantizeLinear → (packedOf scale.elementType x.lens).addressable = true
  axes : op = .quantizeLinear → x.lens ≠ []
  layout : op = .dequantizeLinear → Shared scale.strides (x :: scale :: rest) →
    scale.strides = standardStrides x.lens

instance (op : Operator) (x scale : Shape) (rest : List Shape) :
    Decidable (Lowerable op x scale rest) :=
  decidable_of_iff (_ ∧ _ ∧ _ ∧ _)
    ⟨fun h => ⟨h.1, h.2.1, h.2.2.1, h.2.2.2⟩, fun h => ⟨h.converts, h.fits, h.axes, h.layout⟩⟩

/-- The operators that are lowered. -/
def Quantizes (op : Operator) : Prop :=
  op = .quantizeLinear ∨ op = .dequantizeLinear

instance (op : Operator) : Decidable (Quantizes op) :=
  inferInstanceAs (Decidable (_ ∨ _))

/-- The operators that lowering leads to. -/
def Lowered (op : Operator) : Prop :=
  ¬ Quantizes op

@[simp] theorem lowered_iff {op : Operator} :
    Lowered op ↔ op ≠ .quantizeLinear ∧ op ≠ .dequantizeLinear :=
  not_or

/-- The operands of an instruction that is lowered, as its shape shows them. -/
structure Operands (m : Module) (n : Instruction) (x scale : InstructionId)
    (rest : List InstructionId) : Prop where
  inputs : n.inputs = x :: scale :: rest
  few : rest.length ≤ 1
  alike : ∀ j ∈ n.inputs, (m.shapeOf j).elementType ≠ .tuple ∧
    Over (m.shapeOf j).elementType (m.shapeOf x).lens (m.shapeOf j)
  lowerable : Lowerable n.op (m.shapeOf x) (m.shapeOf scale) (rest.map m.shapeOf)
  shape : ∃ t, t ≠ .tuple ∧ n.shape = packedOf t (m.shapeOf x).lens ∧
    (n.op = .dequantizeLinear → t = (m.shapeOf scale).elementType)
  addressable : n.shape.addressable = true

private theorem exists_operands (h : Accepted m) (hp : Proper m) (hn : m.get? i = some n)
    (hop : Quantizes n.op)
    (hlow : ∀ x scale rest, n.inputs.map m.shapeOf = x :: scale :: rest →
      Lowerable n.op x scale rest) : ∃ x scale rest, Operands m n x scale rest := by
  have hplain : n.op.isBuiltin = false := by rcases hop with hop | hop <;> rw [hop] <;> rfl
  have hfits : m.ShapeFits n := h.fits_of_not_builtin (n := n.core) (core?_of_get? hn) hplain
  obtain ⟨hraw, haddr⟩ := inferShape_eq_ok.1 hfits
  obtain ⟨sx, ss, srest, hins, hfew, hall, hshape⟩ : ∃ x scale rest,
      n.inputs.map m.shapeOf = x :: scale :: rest ∧ rest.length ≤ 1 ∧
        (∀ s ∈ n.inputs.map m.shapeOf, s.isTuple = false ∧ s.isDynamic = false ∧ s.lens = x.lens) ∧
          ∃ t, t ≠ .tuple ∧ n.shape = packedOf t x.lens ∧
            (n.op = .dequantizeLinear → t = scale.elementType) := by
    rcases hop with hop | hop <;> rw [hop] at hraw ⊢
    · obtain ⟨x, scale, rest, hins, hfew, hall, hs⟩ := operands_of_eq_ok (quantizeShape _) hraw
      refine ⟨x, scale, rest, hins, hfew, hall, _, ?_, shape_of_quantizeShape hs, fun he => by cases he⟩
      cases rest with
      | nil => simp
      | cons z _ => simpa [isTuple] using (hall z (by simp [hins])).1
    · obtain ⟨x, scale, rest, hins, hfew, hall, hs⟩ := operands_of_eq_ok (dequantizeShape _) hraw
      refine ⟨x, scale, rest, hins, hfew, hall, _, ?_, shape_of_dequantizeShape hs, fun _ => rfl⟩
      simpa [isTuple] using (hall scale (by simp [hins])).1
  obtain ⟨x, ids, hinputs, rfl, hids⟩ := List.map_eq_cons_iff.1 hins
  obtain ⟨scale, rest, rfl, rfl, rfl⟩ := List.map_eq_cons_iff.1 hids
  have hlowerable := hlow _ _ _ hins
  refine ⟨x, scale, rest, hinputs, by simpa using hfew, fun j hj => ?_, hlowerable, hshape, haddr⟩
  have hmem : m.shapeOf j ∈ n.inputs.map m.shapeOf := List.mem_map_of_mem hj
  obtain ⟨ht, hd, hl⟩ := hall _ hmem
  obtain ⟨k, hk, -⟩ := h.input_lt hn hj
  exact ⟨by simpa [isTuple] using ht, hl ▸ hp.over (by simp [hk]) ht hd⟩

/-- The layout of `s` is kept, packed only if it was. -/
def Keeps (s r : Shape) : Prop :=
  r.strides = s.strides ∧ (r.isPacked = .ok true → s.isPacked = .ok true)

private theorem handed_on {r : Shape} (h : r = packedOf t lens ∨ Keeps s r)
    (hp : r.isPacked = .ok true) :
    r.strides = standardStrides lens ∨ s.isPacked = .ok true ∧ s.strides = r.strides := by
  rcases h with rfl | ⟨hstrides, hpacked⟩
  · exact .inl rfl
  · exact .inr ⟨hpacked hp, hstrides.symm⟩

private theorem convertTo_expands (h : Expanding kind root m env m') (hkind : kind (.convert t))
    (hx : (x, s) ∈ env) (hu : u ≠ .tuple) (hs : Over u lens s)
    (ha : (packedOf t lens).addressable = true)
    (hc : s.isPacked = .ok true → (s.withType t).addressable = true) :
    (convertTo root x t).Leaves m'
      (fun y m'' => ∃ r, Over t lens r ∧ (r = packedOf t lens ∨ Keeps s r) ∧
        Expanding kind root m ((y, r) :: env) m'')
      fun _ _ => False := by
  obtain ⟨⟨k, hk, hshape⟩, -⟩ := h.ready _ hx
  obtain ⟨a, ha', rfl⟩ := exists_get?_of_core? hk
  rw [convertTo, leaves_bind, leaves_get, leaves_liftFault_bind (get_eq_ok_iff.2 ha')]
  split
  · rename_i htype
    replace htype : s.elementType = t := (congrArg Shape.elementType hshape).symm.trans htype
    obtain rfl : u = t := hs.type_eq.symm.trans htype
    refine ⟨s, hs, .inr ⟨rfl, id⟩, h.toGrown, h.live, ?_, ?_⟩
    · exact List.forall_mem_cons.2 ⟨h.ready _ hx, h.ready⟩
    · exact List.forall_mem_cons.2 ⟨h.own _ hx, h.own⟩
  · obtain ⟨r, hr, hover, hcases⟩ := inferShape_convert_over hu hs ha hc
    refine (h.insert ⟨rfl, by simp, rfl⟩ (by simp) hkind [(x, s)] (by simpa using hx) hover.wellFormed
      hr).imp fun y m'' h' => ?_
    exact ⟨r, hover, hcases.imp_right fun hp => ⟨hp.2, fun _ => hp.1⟩, h'⟩

private theorem splat_expands (h : Expanding kind root m env m') {v : Float}
    (hliteral : kind (.literal (Literal.scalar t v))) (hkind : kind (.multibroadcast lens))
    (hl : lens ≠ []) (ht : t ≠ .tuple) (ha : (packedOf t lens).addressable = true) :
    (splat root t v lens).Leaves m'
      (fun y m'' => ∃ r, Over t lens r ∧ (r.isPacked = .ok true → r.strides = standardStrides lens) ∧
        ∃ l, Expanding kind root m ((y, r) :: (l, Shape.scalar t) :: env) m'')
      fun _ _ => False := by
  refine .bind (h.addScalar hliteral ht) fun l m₁ h₁ => ?_
  refine (h₁.insertRepeated hkind (l := l) (by simp) hl ht ha).imp ?_
  rintro y m₂ ⟨r, hover, hpacked, h₂⟩
  exact ⟨r, hover, hpacked, l, h₂⟩

/-- Moving a value between the limits of a type and into that type makes its layout row-major. -/
theorem clip_expands {shifted : InstructionId} (hm : Accepted m) (h : Expanding Lowered root m env m')
    (hn : m.core? root = some n) (ho : n.op.isOutput = false) (hs : (shifted, s) ∈ env)
    (hover : Over u lens s) (hu : u ≠ .tuple) (hlens : lens ≠ [])
    (hfits : (packedOf u lens).addressable = true) (hshape : n.shape = packedOf t lens)
    (haddr : (packedOf t lens).addressable = true) (low high : Float) :
    (do
      let low ← splat root u low lens
      let high ← splat root u high lens
      let clipped ← Module.insert root .clip [shifted, low, high]
      let quantized ← convertTo root clipped t
      let _ ← Module.replaceWith root quantized
      return true : Module.Edit Bool).Leaves m' (fun _ => Expanded Lowered root m)
        fun _ _ => False := by
  refine .bind (splat_expands h (by simp) (by simp) hlens hu hfits) ?_
  rintro low m₁ ⟨r₁, ho₁, hpacked₁, l₁, h₁⟩
  refine .bind (splat_expands h₁ (by simp) (by simp) hlens hu hfits) ?_
  rintro high m₂ ⟨r₂, ho₂, -, l₂, h₂⟩
  refine .bind (h₂.elementwise (by simp) (shifted, s)
    [(low, r₁), (high, r₂)] .clip ?_ hu hfits) ?_
  · simp [hs, hover, ho₁, ho₂]
  rintro clipped m₃ ⟨r₃, ho₃, hcases, h₃⟩
  obtain rfl := ho₃.eq_packedOf_of_shared hcases (a := r₁) (by simp) hpacked₁
  refine .bind (convertTo_expands h₃ (by simp) (by simp) hu ho₃ haddr fun _ => haddr) ?_
  rintro quantized m₄ ⟨r₄, ho₄, hcases, h₄⟩
  have hr₄ : r₄ = n.shape := by
    rw [hshape]
    rcases hcases with hr₄ | hkeeps
    · exact hr₄
    · exact ho₄.eq_packedOf hkeeps.1
  subst hr₄
  exact .bind (h₄.replaceWith hm hn ho (by simp) (hshape ▸ haddr)) fun _ _ h₅ => h₅

/-- Multiplying by the scale keeps the row-major layout, if that is the only one to be handed on. -/
theorem scale_expands {shifted scale : InstructionId} {ss : Shape} (hm : Accepted m)
    (h : Expanding Lowered root m env m') (hn : m.core? root = some n) (ho : n.op.isOutput = false)
    (hs : (shifted, s) ∈ env ∧ Over t lens s) (hscale : (scale, ss) ∈ env ∧ Over t lens ss)
    (ht : t ≠ .tuple) (hshape : n.shape = packedOf t lens)
    (haddr : (packedOf t lens).addressable = true)
    (hrow : Shared s.strides [s, ss] → s.strides = standardStrides lens) :
    (do
      let result ← Module.insert root .mul [shifted, scale]
      let _ ← Module.replaceWith root result
      return true : Module.Edit Bool).Leaves m' (fun _ => Expanded Lowered root m)
        fun _ _ => False := by
  refine .bind (h.elementwise (by simp [Operator.mul]) (shifted, s)
    [(scale, ss)] (.binary .mul) (by simp [hs, hscale]) ht haddr) ?_
  rintro result m₁ ⟨r₁, ho₁, hcases, h₁⟩
  have hr₁ : r₁ = n.shape := by
    rw [hshape]
    rcases hcases with hr₁ | ⟨rfl, hshared⟩
    · exact hr₁
    · exact ho₁.eq_packedOf (hrow hshared)
  subst hr₁
  exact .bind (h₁.replaceWith hm hn ho (by simp) (hshape ▸ haddr)) fun _ _ h₂ => h₂

private theorem Quantizes.not_output {op : Operator} (h : Quantizes op) : op.isOutput = false := by
  rcases h with rfl | rfl <;> rfl

section Rules
variable {scale : InstructionId} {rest : List InstructionId} (h : Accepted m)
  (hp : Proper m) (hn : m.get? i = some n) (ho : Operands m n x scale rest) (b : Bindings)
include h hn ho

theorem Operands.read : Fault.inRange n.inputs[0]? = .ok x ∧ Fault.inRange n.inputs[1]? = .ok scale ∧
    ∃ k, m.get scale = .ok k ∧ k.shape.elementType = (m.shapeOf scale).elementType := by
  obtain ⟨k, hk, -⟩ := h.input_lt hn (j := scale) (by simp [ho.inputs])
  refine ⟨by simp [ho.inputs, Fault.inRange], by simp [ho.inputs, Fault.inRange], k,
    get_eq_ok_iff.2 hk, by rw [shapeOf_of_get? hk]⟩

include hp

theorem Operands.expanding : Expanding Lowered i m ((x, m.shapeOf x) :: (scale, m.shapeOf scale) ::
    rest.map fun j => (j, m.shapeOf j)) m := by
  have hstart : Expanding Lowered i m (n.inputs.map fun j => (j, m.shapeOf j)) m := by
    exact h.expanding hp (by simp [hn]) n.inputs fun j hj => h.input_before hn hj
  rwa [ho.inputs] at hstart

private theorem quantize_expands (hop : n.op = .quantizeLinear) :
    (quantize.apply ⟨i, b⟩).Leaves m (fun _ => Expanded Lowered i m) fun _ _ => False := by
  have hl := ho.lowerable
  have hfits := hl.fits hop
  obtain ⟨t, ht, hshape, -⟩ := ho.shape
  have haddr : (packedOf t (m.shapeOf x).lens).addressable = true := hshape ▸ ho.addressable
  have hcore := core?_of_get? hn
  have hout : n.core.op.isOutput = false := Quantizes.not_output (.inl hop)
  obtain ⟨hxt, hx⟩ := ho.alike x (by simp [ho.inputs])
  obtain ⟨hst, hscale⟩ := ho.alike scale (by simp [ho.inputs])
  obtain ⟨hfirst, hsecond, k, hk, hS⟩ := ho.read h hn
  dsimp only [quantize]
  rw [leaves_bind, leaves_get, leaves_liftFault_bind (get_eq_ok_iff.2 hn),
    leaves_liftFault_bind hfirst, leaves_liftFault_bind hsecond, leaves_liftFault_bind hk, hS, hshape]
  refine .bind (convertTo_expands (ho.expanding h hp hn) (by simp) (s := m.shapeOf x) (by simp) hxt hx
    hfits (hl.converts _ (by simp))) ?_
  rintro x' m₁ ⟨r₁, ho₁, -, h₁⟩
  refine .bind (h₁.elementwise (by simp [Operator.div]) (x', r₁)
    [(scale, m.shapeOf scale)] (.binary .div) (by simp [ho₁, hscale]) hst hfits) ?_
  rintro scaled m₂ ⟨r₂, ho₂, -, h₂⟩
  refine .bind (h₂.elementwise (by simp) (scaled, r₂) [] (.unary .nearbyint)
    (by simp [ho₂]) hst hfits) ?_
  rintro rounded m₃ ⟨r₃, ho₃, -, h₃⟩
  match rest, ho.few with
  | [], _ =>
    have hthird : n.inputs[2]? = none := by simp [ho.inputs]
    rw [hthird]
    dsimp only
    rw [leaves_bind, leaves_pure]
    exact clip_expands h h₃ hcore hout (by simp) ho₃ hst (hl.axes hop) hfits hshape haddr _ _
  | [z], _ =>
    have hthird : n.inputs[2]? = some z := by simp [ho.inputs]
    obtain ⟨hzt, hz⟩ := ho.alike z (by simp [ho.inputs])
    rw [hthird]
    dsimp only
    refine .bind (convertTo_expands h₃ (by simp) (s := m.shapeOf z) (by simp) hzt hz hfits
      (hl.converts _ (by simp))) ?_
    rintro z' m₄ ⟨r₄, ho₄, -, h₄⟩
    refine .bind (h₄.elementwise (by simp [Operator.add])
      (rounded, r₃) [(z', r₄)] (.binary .add) (by simp [ho₃, ho₄]) hst hfits) ?_
    rintro shifted m₅ ⟨r₅, ho₅, -, h₅⟩
    exact clip_expands h h₅ hcore hout (by simp) ho₅ hst (hl.axes hop) hfits hshape haddr _ _

private theorem dequantize_expands (hop : n.op = .dequantizeLinear) :
    (dequantize.apply ⟨i, b⟩).Leaves m (fun _ => Expanded Lowered i m) fun _ _ => False := by
  have hl := ho.lowerable
  obtain ⟨t, ht, hshape, htype⟩ := ho.shape
  obtain rfl := htype hop
  have haddr : (packedOf (m.shapeOf scale).elementType (m.shapeOf x).lens).addressable = true :=
    hshape ▸ ho.addressable
  have hcore := core?_of_get? hn
  have hout : n.core.op.isOutput = false := Quantizes.not_output (.inr hop)
  obtain ⟨hxt, hx⟩ := ho.alike x (by simp [ho.inputs])
  obtain ⟨-, hscale⟩ := ho.alike scale (by simp [ho.inputs])
  obtain ⟨hfirst, hsecond, k, hk, hS⟩ := ho.read h hn
  dsimp only [dequantize]
  rw [leaves_bind, leaves_get, leaves_liftFault_bind (get_eq_ok_iff.2 hn),
    leaves_liftFault_bind hfirst, leaves_liftFault_bind hsecond, leaves_liftFault_bind hk, hS]
  refine .bind (convertTo_expands (ho.expanding h hp hn) (by simp) (s := m.shapeOf x) (by simp) hxt hx
    haddr (hl.converts _ (by simp))) ?_
  rintro x' m₁ ⟨r₁, ho₁, hkeeps₁, h₁⟩
  match rest, ho.few with
  | [], _ =>
    have hthird : n.inputs[2]? = none := by simp [ho.inputs]
    rw [hthird]
    dsimp only
    rw [leaves_bind, leaves_pure]
    refine scale_expands h h₁ hcore hout ⟨by simp, ho₁⟩ ⟨by simp, hscale⟩ ht hshape haddr ?_
    intro hshared
    obtain ⟨hps, hss⟩ := hshared (m.shapeOf scale) (by simp)
    rcases handed_on hkeeps₁ (hshared r₁ (by simp)).1 with hrow | ⟨hpx, hxs⟩
    · exact hrow
    · rw [← hss]
      exact hl.layout hop (by simp [Shared, hps, hpx, hxs, hss])
  | [z], _ =>
    have hthird : n.inputs[2]? = some z := by simp [ho.inputs]
    obtain ⟨hzt, hz⟩ := ho.alike z (by simp [ho.inputs])
    rw [hthird]
    dsimp only
    refine .bind (convertTo_expands h₁ (by simp) (s := m.shapeOf z) (by simp) hzt hz haddr
      (hl.converts _ (by simp))) ?_
    rintro z' m₂ ⟨r₂, ho₂, hkeeps₂, h₂⟩
    refine .bind (h₂.elementwise (by simp [Operator.sub])
      (x', r₁) [(z', r₂)] (.binary .sub) (by simp [ho₁, ho₂]) ht haddr) ?_
    rintro shifted m₃ ⟨r₃, ho₃, hcases, h₃⟩
    refine scale_expands h h₃ hcore hout ⟨by simp, ho₃⟩ ⟨by simp, hscale⟩ ht hshape haddr ?_
    intro hshared
    obtain ⟨hps, hss⟩ := hshared (m.shapeOf scale) (by simp)
    rcases hcases with rfl | ⟨rfl, hshared'⟩
    · rfl
    obtain ⟨hpz, hzs⟩ := hshared' r₂ (by simp)
    rcases handed_on hkeeps₁ (hshared r₃ (by simp)).1 with hrow | ⟨hpx, hxs⟩
    · exact hrow
    rcases handed_on hkeeps₂ hpz with hrow | ⟨hpz', hzs'⟩
    · exact hzs.symm.trans hrow
    · rw [← hss]
      exact hl.layout hop (by simp [Shared, hps, hpx, hxs, hss, hpz', hzs', hzs])

end Rules

/-- Everything that is to be lowered can be. -/
def Lowers (m : Module) : Prop :=
  ∀ i n, m.get? i = some n → Quantizes n.op → ∀ x scale rest,
    n.inputs.map m.shapeOf = x :: scale :: rest → Lowerable n.op x scale rest

private theorem lowers_of_order (hl : Linked m) (h : ∀ i ∈ m.order, ∀ n ∈ m.get? i, Quantizes n.op →
    ∀ x ∈ (n.inputs.map m.shapeOf)[0]?, ∀ scale ∈ (n.inputs.map m.shapeOf)[1]?,
      Lowerable n.op x scale ((n.inputs.map m.shapeOf).drop 2)) : Lowers m := by
  intro i n hn hq x scale rest hins
  have hlow := h i ((hl.mem_order i).2 (by simp [hn])) n hn hq x (by simp [hins]) scale (by simp [hins])
  rwa [hins] at hlow

/-- Some instructions have been lowered, and have no users. -/
structure Lowering (m₀ : Module) (done : List InstructionId) (m : Module) : Prop where
  upholds : Upholds m₀ m
  proper : Proper m
  lowers : Lowers m
  old : ∀ i n, m.core? i = some n → Quantizes n.op → (m₀.get? i).isSome
  unused : ∀ i ∈ done, ∀ n, m.core? i = some n → Quantizes n.op → m.usersOf i = []

/-- What is not lowered can be passed by. -/
theorem Lowering.pass {done : List InstructionId} (h : Lowering m₀ done m)
    (hi : ∀ n, m.core? i = some n → ¬ Quantizes n.op) : Lowering m₀ (done ++ [i]) m := by
  refine ⟨h.upholds, h.proper, h.lowers, h.old, fun j hj n hn hq => ?_⟩
  rcases List.mem_append.1 hj with hj | hj
  · exact h.unused j hj n hn hq
  · cases List.mem_singleton.1 hj
    exact absurd hq (hi n hn)

theorem Lowering.expanded {done : List InstructionId} (h : Lowering m₀ done m)
    (he : Expanded Lowered i m m') : Lowering m₀ (done ++ [i]) m' := by
  have hl := h.upholds.accepted.linked
  have hcame : ∀ j n', m'.core? j = some n' → Quantizes n'.op → ∃ n, m.core? j = some n ∧
      n'.op = n.op ∧ n'.inputs.map m'.shapeOf = n.inputs.map m.shapeOf := by
    intro j n' hn' hq
    rcases he.came j n' hn' with hold | ⟨-, hlow⟩ | ⟨-, hid⟩
    · exact hold
    · exact absurd hq hlow
    · rw [hid] at hq
      rcases hq with hq | hq <;> cases hq
  refine ⟨h.upholds.trans he.upholds, he.proper, fun j n' hn' hq x scale rest hins => ?_,
    fun j n' hn' hq => ?_, fun j hj n' hn' hq => ?_⟩
  · obtain ⟨n, hn, hop, hin⟩ := hcame j n'.core (core?_of_get? hn') hq
    obtain ⟨k, hk, rfl⟩ := exists_get?_of_core? hn
    replace hop : n'.op = k.op := hop
    rw [hop] at hq ⊢
    exact h.lowers j k hk hq x scale rest (hin.symm.trans hins)
  · obtain ⟨n, hn, hop, -⟩ := hcame j n' hn' hq
    exact h.old j n hn (hop ▸ hq)
  · obtain ⟨n, hn, hop, -⟩ := hcame j n' hn' hq
    refine he.unused j (live_of_core? hn) ?_
    rcases List.mem_append.1 hj with hj | hj
    · exact .inr (h.unused j hj n hn (hop ▸ hq))
    · exact .inl (List.mem_singleton.1 hj)

private theorem eq_of_name {op : Operator} :
    (op.name = "quantizelinear" ↔ op = .quantizeLinear) ∧
      (op.name = "dequantizelinear" ↔ op = .dequantizeLinear) := by
  cases op with
  | unary f => cases f <;> simp [Operator.name, Unary.name]
  | binary f => cases f <;> simp [Operator.name, Binary.name]
  | _ => simp [Operator.name]

theorem Lowering.visit {done : List InstructionId} (h : Lowering m₀ done m)
    (hn : m.get? i = some n) : (Rule.applyFirst [quantize, dequantize] i).Leaves m
      (fun _ => Lowering m₀ (done ++ [i])) fun _ _ => False := by
  have hm := h.upholds.accepted
  have hfirst : quantize.pattern.match? m i =
    .ok (if n.op.name = "quantizelinear" then some ⟨i, []⟩ else none) := Pattern.match?_name hn _
  have hsecond : dequantize.pattern.match? m i =
    .ok (if n.op.name = "dequantizelinear" then some ⟨i, []⟩ else none) := Pattern.match?_name hn _
  simp only [eq_of_name.1] at hfirst
  simp only [eq_of_name.2] at hsecond
  have hoperands : Quantizes n.op → ∃ x scale rest, Operands m n x scale rest := fun hq =>
    exists_operands hm h.proper hn hq (h.lowers i n hn hq)
  by_cases hq : n.op = .quantizeLinear
  · obtain ⟨x, scale, rest, ho⟩ := hoperands (.inl hq)
    rw [Rule.leaves_applyFirst_of_some (hfirst.trans (congrArg Except.ok (if_pos hq)))]
    exact (quantize_expands hm h.proper hn ho [] hq).imp fun _ _ he => h.expanded he
  rw [Rule.leaves_applyFirst_of_none (hfirst.trans (congrArg Except.ok (if_neg hq)))]
  by_cases hd : n.op = .dequantizeLinear
  · obtain ⟨x, scale, rest, ho⟩ := hoperands (.inr hd)
    rw [Rule.leaves_applyFirst_of_some (hsecond.trans (congrArg Except.ok (if_pos hd)))]
    exact (dequantize_expands hm h.proper hn ho [] hd).imp fun _ _ he => h.expanded he
  rw [Rule.leaves_applyFirst_of_none (hsecond.trans (congrArg Except.ok (if_neg hd)))]
  refine h.pass fun k hk => ?_
  rw [core?_of_get? hn] at hk
  cases hk
  exact not_or.2 ⟨hq, hd⟩

/-- A sweep lowers everything that was there to lower. -/
theorem lowering_run (h : Accepted m) (hp : Proper m) (hlow : Lowers m) :
    quantization.run.Leaves m (fun _ => Lowering m m.order) fun _ _ => False := by
  have hstart : Lowering m [] m :=
    ⟨h.upholds, hp, hlow, fun _ _ hn _ => live_of_core? hn, by simp⟩
  simp only [quantization, ofRules, Rule.sweep, leaves_bind, leaves_get, leaves_pure]
  refine Rule.sweepOver_visits (fun done i rest m' _ _ hl => ⟨fun hi => ?_, fun hi => ?_⟩) hstart
  · exact hl.pass fun n hn => by simpa [hi] using live_of_core? hn
  · obtain ⟨n, hn⟩ := Option.isSome_iff_exists.1 hi
    exact hl.visit hn

private theorem Lowering.users_eq_nil (h₀ : Linked m₀) (h : Lowering m₀ m₀.order m)
    (hn : m.get? i = some n) (hq : Quantizes n.op) : n.users = [] := by
  have hcore := core?_of_get? hn
  have hi : i ∈ m₀.order := (h₀.mem_order i).2 (h.old i _ hcore hq)
  rw [← usersOf_of_get? hn]
  exact h.unused i hi _ hcore hq

end Quantization

open Quantization

/-- Lowering ends well on every module that edits build, that passes its check and in which all that
is to be lowered can be. It keeps the shapes of all instructions, the module passes its check
afterwards, and nothing uses a quantization or a dequantization any more. -/
theorem quantization_keeps_layouts (hb : Built m) (hv : m.validate = .ok ()) (hp : Proper m)
    (hlow : Lowers m) :
    ∃ changed, (quantization.run m).result = .ok changed ∧
      (quantization.run m).state.validate = .ok () ∧
      (∀ i n, m.get? i = some n →
        ∃ n', (quantization.run m).state.get? i = some n' ∧ n'.shape = n.shape) ∧
      ∀ i n, (quantization.run m).state.get? i = some n → Quantizes n.op → n.users = [] := by
  have hm := hb.accepted hv
  obtain ⟨changed, hr, h⟩ := (lowering_run hm hp hlow).exists_ok
  exact ⟨changed, hr, h.upholds.accepted.validate, h.upholds.kept, fun _ _ hn =>
    h.users_eq_nil hm.linked hn⟩

/-- A transposed input is quantized with a repeated scale and a row-major zero point, and dequantized
with the same. -/
private def mixed : Module :=
  Mutation.applyAll (Module.empty "main")
    [.addParameter "x" ⟨.int32, [2, 3], [1, 2], [], []⟩,
      .addParameter "s" ⟨.float, [2, 3], [0, 1], [], []⟩, .addParameter "z" (.packedOf .int8 [2, 3]),
      .add .quantizeLinear [⟨0⟩, ⟨1⟩, ⟨2⟩], .add .dequantizeLinear [⟨3⟩, ⟨1⟩, ⟨2⟩],
      .add (.unary .tanh) [⟨4⟩]]

theorem quantization_keeps_layouts_mixed :
    (mixed.order.filter fun i => (mixed.get? i).any fun n => Quantizes n.op) = [⟨3⟩, ⟨4⟩] ∧
    Built mixed ∧ mixed.validate = .ok () ∧ Proper mixed ∧ Lowers mixed ∧
    ∃ changed, (quantization.run mixed).result = .ok changed ∧
      (quantization.run mixed).state.validate = .ok () ∧
      (∀ i n, mixed.get? i = some n →
        ∃ n', (quantization.run mixed).state.get? i = some n' ∧ n'.shape = n.shape) ∧
      ∀ i n, (quantization.run mixed).state.get? i = some n → Quantizes n.op → n.users = [] := by
  have hb : Built mixed := (Built.empty "main").applyAll _
  have hv : mixed.validate = .ok () := by decide +kernel
  have hp : Proper mixed := proper_of_order hb.linked (by decide +kernel)
  have hlow : Lowers mixed := lowers_of_order hb.linked (by decide +kernel)
  exact ⟨by decide +kernel, hb, hv, hp, hlow, quantization_keeps_layouts hb hv hp hlow⟩

/-- A transposed input is dequantized with a scale that is transposed as well. -/
private def transposed : Module :=
  Mutation.applyAll (Module.empty "main")
    [.addParameter "q" ⟨.uint8, [2, 3], [1, 2], [], []⟩,
      .addParameter "s" ⟨.float, [2, 3], [1, 2], [], []⟩, .add .dequantizeLinear [⟨0⟩, ⟨1⟩],
      .add (.unary .relu) [⟨2⟩], .add (.unary .tanh) [⟨3⟩]]

/-- What used the dequantization takes over the layout that its operands share. What uses that in turn
does not, so the module no longer passes its check. -/
theorem quantization_hands_on_layout :
    Built transposed ∧ transposed.validate = .ok () ∧ Proper transposed ∧
    (quantization.run transposed).result = .ok true ∧
    (quantization.run transposed).state.validate ≠ .ok () ∧
    transposed.shapeOf ⟨3⟩ = .packedOf .float [2, 3] ∧
    (quantization.run transposed).state.shapeOf ⟨3⟩ = ⟨.float, [2, 3], [1, 2], [], []⟩ := by
  have hb : Built transposed := (Built.empty "main").applyAll _
  refine ⟨hb, by decide +kernel, proper_of_order hb.linked (by decide +kernel), ?_⟩
  unfold quantization dequantize replaceWith checkRedirect
  simp only [dependsOn_eq_getD 8]
  decide +kernel

/-- Quantizes integers with a scale that is repeated along their axes. -/
private def quantized (t : ElementType) (lens : List Nat) : Module :=
  Mutation.applyAll (Module.empty "main")
    [.addParameter "x" (.packedOf .int32 lens),
      .addParameter "s" ⟨t, lens, lens.map fun _ => 0, [], []⟩, .add .quantizeLinear [⟨0⟩, ⟨1⟩]]

/-- The limits cannot be repeated where there are no axes, and integers that take up half of the
memory cannot be converted to a type of twice the size. -/
theorem quantization_fails_without_axes_or_room :
    ∀ m ∈ [quantized .float [], quantized .double [2 ^ 61]], Built m ∧ m.validate = .ok () ∧
      m.last? = some ⟨2⟩ ∧ ∀ changed, (quantization.run m).result ≠ .ok changed := by
  have hb : ∀ t lens, Built (quantized t lens) := fun t lens => (Built.empty "main").applyAll _
  have hrun : ∀ m ∈ [quantized .float [], quantized .double [2 ^ 61]], m.validate = .ok () ∧
      m.last? = some ⟨2⟩ ∧ ∀ changed, (quantization.run m).result ≠ .ok changed := by
    unfold quantization quantize replaceWith replace checkReplace
    simp only [dependsOn_eq_getD 8]
    decide +kernel
  intro m hm
  refine ⟨?_, hrun m hm⟩
  simp only [List.mem_cons, List.not_mem_nil, or_false] at hm
  rcases hm with rfl | rfl <;> exact hb _ _

end TensorGraph.Pass
