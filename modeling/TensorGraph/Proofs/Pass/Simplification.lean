import TensorGraph.Pass.Algebra
import TensorGraph.Pass.ConstantFolding
import TensorGraph.Pass.Convert
import TensorGraph.Pass.Identity
import TensorGraph.Proofs.Module.Refinement
import TensorGraph.Proofs.Operator.Elementwise
import TensorGraph.Proofs.Operator.Evaluation
import TensorGraph.Proofs.Pass.Border
import TensorGraph.Proofs.Pass.DeadCode
import TensorGraph.Proofs.Pattern

/-! The passes that simplify a module keep its shapes, its parameters and its references. They end
well unless an operator breaks down on constant arguments. -/
namespace TensorGraph.Pass
open TensorGraph.Action TensorGraph.Module
variable {m m₀ : Module} {i j : InstructionId} {n : Instruction}

/-- The failure is the breakdown of an operator on constant arguments. -/
def BrokenConstant (e : Failure) (m : Module) : Prop :=
  ∃ f, e = .broken f ∧ m.ConstantFault f

private theorem leaves_of_refines {α : Type} {x : Module.Edit α} (h : Refines m₀ m)
    (hx : x.Leaves m (fun _ => Refines m) fun _ _ => False) :
    x.Leaves m (fun _ => Refines m₀) BrokenConstant :=
  hx.mono (fun _ _ hm' => h.trans hm') fun _ _ hf => hf.elim

/-- The users of a plain instruction can use an input of the same shape. -/
theorem replaceWith_input_refines (h : Refines m₀ m) (hn : m.get? i = some n) (hop : Plain n.op)
    (hj : j ∈ n.inputs) (hs : m.shapeOf j = n.shape) :
    (replaceWith i j).Leaves m (fun _ => Refines m₀) BrokenConstant := by
  obtain ⟨k, hk, hlt⟩ := h.typed.input_lt hn hj
  exact leaves_of_refines h (h.typed.replaceWith_leaves hn hop.parameter?_eq_none hop.output hk
    (shapeOf_of_get? hk ▸ hs) hlt)

private theorem exists_get?_of_refines (h : Refines m₀ m) (h₀ : Typed m₀) (hi : i ∈ m₀.order) :
    ∃ n, m.get? i = some n := by
  obtain ⟨n₀, hn₀⟩ := Option.isSome_iff_exists.1 ((h₀.linked.mem_order i).1 hi)
  obtain ⟨n, hn, -⟩ := h.kept i n₀ hn₀
  exact ⟨n, hn⟩

private theorem identity_refines (h₀ : Typed m₀) :
    identity.run.Leaves m₀ (fun _ => Refines m₀) BrokenConstant := by
  simp only [identity, leaves_bind, leaves_get]
  refine leaves_anyOf _ (fun i hi m h => ?_) m₀ h₀.refines
  obtain ⟨n, hn⟩ := exists_get?_of_refines h h₀ hi
  rw [Identity.forward, leaves_bind, leaves_get, leaves_liftFault_bind (get_eq_ok_iff.2 hn)]
  split
  · rename_i input hop hin
    split
    · exact h
    have hfits := h.typed.fits_of_get? hn
    rw [ShapeFits, hop, hin, Operator.inferShape_eq_ok, Operator.rawShape_identity,
      List.map_singleton] at hfits
    rw [leaves_bind]
    exact replaceWith_input_refines h hn (hop ▸ ⟨rfl, by simp, rfl⟩) (by simp [hin])
      (List.singleton_inj.1 hfits.1)
  · exact h

theorem eq_convert_of_name {op : Operator} (h : op.name = "convert") : ∃ t, op = .convert t := by
  cases op with
  | convert t => exact ⟨t, rfl⟩
  | unary f => cases f <;> simp [Operator.name, Unary.name] at h
  | binary f => cases f <;> simp [Operator.name, Binary.name] at h
  | _ => simp [Operator.name] at h

theorem plain_convert (t : ElementType) : Plain (.convert t) := ⟨rfl, by simp, rfl⟩

/-- A conversion has one input, and the shape inferred from it. -/
theorem inputs_of_convert (h : Accepted m) (hn : m.get? i = some n) {t : ElementType}
    (hop : n.op = .convert t) :
    ∃ j, n.inputs = [j] ∧
      (Operator.convert t).inferShape [m.shapeOf j] n.moduleOutputs = .ok n.shape ∧
        n.shape.elementType = t := by
  have hplain : n.op.isBuiltin = false := by rw [hop]; rfl
  have hfits : n.op.inferShape (n.inputs.map m.shapeOf) n.moduleOutputs = .ok n.shape :=
    h.fits_of_not_builtin (n := n.core) (core?_of_get? hn) hplain
  rw [hop] at hfits
  obtain ⟨hraw, -⟩ := Operator.inferShape_eq_ok.1 hfits
  obtain ⟨s, p, hs, -, -, hshape⟩ := Operator.rawShape_convert.1 hraw
  obtain ⟨j, hj, rfl⟩ := List.map_eq_singleton_iff.1 hs
  rw [hj, List.map_singleton] at hfits
  exact ⟨j, hj, hfits, by rw [hshape]; rfl⟩

/-- A chain of conversions can be taken in one. What stands at its beginning is no conversion, as each
step goes to an earlier instruction. -/
theorem source_spec (h : Accepted m) (steps : Nat) (hn : m.get? i = some n) {t : ElementType}
    {out : Shape} {mods : List (List Shape)}
    (hout : (Operator.convert t).inferShape [n.shape] mods = .ok out) :
    ∃ j k, Convert.source m steps i = .ok j ∧ m.get? j = some k ∧
      m.order.idxOf j ≤ m.order.idxOf i ∧ (Operator.convert t).inferShape [k.shape] [] = .ok out ∧
        (m.order.idxOf i < steps → ∀ u, k.op ≠ .convert u) := by
  have hself : (Operator.convert t).inferShape [n.shape] [] = .ok out := by
    rw [Operator.inferShape_eq_ok, Operator.rawShape_convert] at hout ⊢
    exact hout
  induction steps generalizing i n mods with
  | zero => exact ⟨i, n, rfl, hn, Nat.le_refl _, hself, fun hlt => absurd hlt (Nat.not_lt_zero _)⟩
  | succ steps ih =>
    rw [Convert.source, get_eq_ok_iff.2 hn, Except.ok_bind]
    by_cases hop : ∃ u, n.op = .convert u
    · obtain ⟨u, hop⟩ := hop
      obtain ⟨input, hin, hfits, -⟩ := inputs_of_convert h hn hop
      obtain ⟨a, ha, hlt⟩ := h.input_lt hn (j := input) (by simp [hin])
      rw [shapeOf_of_get? ha] at hfits
      have htrans := Operator.inferShape_convert_trans hfits hout
      obtain ⟨j, k, hj, hk, hle, hs, hfirst⟩ := ih ha htrans htrans
      refine ⟨j, k, ?_, hk, Nat.le_trans hle (Nat.le_of_lt hlt), hs, fun hi => hfirst (by omega)⟩
      rw [hop, hin]
      exact hj
    · refine ⟨i, n, ?_, hn, Nat.le_refl _, hself, fun _ u hu => hop ⟨u, hu⟩⟩
      split
      · exact absurd ⟨_, ‹_›⟩ hop
      · rfl

/-- What stands at the beginning of a chain of conversions that ends with an instruction. -/
structure ChainStart (m : Module) (i : InstructionId) (n : Instruction) (t : ElementType)
    (j : InstructionId) (k : Instruction) : Prop where
  get : m.get? j = some k
  earlier : m.order.idxOf j < m.order.idxOf i
  shape : (Operator.convert t).inferShape [k.shape] [] = .ok n.shape
  plain : ∀ u, k.op ≠ .convert u

/-- A conversion of a conversion is forwarded to the beginning of its chain, or made of it. -/
theorem nested_leaves {r : Match} {P : Module → Prop} {E : Failure → Module → Prop} {t : ElementType}
    (h : Accepted m) (hn : m.get? r.root = some n) (hop : n.op = .convert t)
    (hforward : ∀ j k, ChainStart m r.root n t j k → k.shape = n.shape →
      (replaceWith r.root j).Leaves m (fun _ => P) E)
    (hreplace : ∀ j k, ChainStart m r.root n t j k → k.shape ≠ n.shape →
      (replace r.root (.convert t) [j]).Leaves m (fun _ => P) E) :
    (Convert.nested.apply r).Leaves m (fun _ => P) E := by
  obtain ⟨input, hin, hfits, htype⟩ := inputs_of_convert h hn hop
  obtain ⟨a, ha, hlt⟩ := h.input_lt hn (j := input) (by simp [hin])
  rw [shapeOf_of_get? ha] at hfits
  obtain ⟨j, k, hj, hk, hle, hs, hfirst⟩ := source_spec h m.instructions.size ha hfits
  have hsource : Convert.source m (m.instructions.size + 1) r.root = .ok j := by
    rw [Convert.source, get_eq_ok_iff.2 hn, Except.ok_bind, hop, hin]
    exact hj
  have hmem : m.order.idxOf input < m.instructions.size := by
    rw [h.linked.size]
    exact List.idxOf_lt_length_iff.2 ((h.linked.mem_order input).2 (by simp [ha]))
  have hstart : ChainStart m r.root n t j k :=
    ⟨hk, Nat.lt_of_le_of_lt hle hlt, hs, hfirst hmem⟩
  rw [Convert.nested, leaves_bind, leaves_get, leaves_liftFault_bind hsource,
    leaves_liftFault_bind (get_eq_ok_iff.2 hn), leaves_liftFault_bind (get_eq_ok_iff.2 hk)]
  split
  · rename_i he
    rw [leaves_bind]
    exact hforward j k hstart he
  · rename_i hne
    rw [leaves_bind, htype]
    exact hreplace j k hstart hne

theorem idle_leaves {r : Match} {P : Module → Prop} {E : Failure → Module → Prop}
    {input : InstructionId} (hn : m.get? r.root = some n) (hin : n.inputs[0]? = some input)
    (hforward : (replaceWith r.root input).Leaves m (fun _ => P) E) :
    (Convert.idle.apply r).Leaves m (fun _ => P) E := by
  have hinput : Fault.inRange n.inputs[0]? = .ok input := by rw [hin, Fault.inRange]
  rw [Convert.idle, leaves_bind, leaves_get, leaves_liftFault_bind (get_eq_ok_iff.2 hn),
    leaves_liftFault_bind hinput, leaves_bind]
  exact hforward

/-- A rule whose pattern breaks down only on constants, and whose application keeps `P` where its pattern
matches, keeps `P`. -/
theorem keeps_of_yields {rule : Rule} {P : Module → Prop} {E : Failure → Module → Prop}
    (Q : Module → InstructionId → Bindings → Prop)
    (hfault : ∀ m f, P m → m.ConstantFault f → E (.broken f) m)
    (hpattern : ∀ m i, P m → (m.get? i).isSome →
      Pattern.Yields m (rule.pattern.test m i []) (Q m i))
    (happly : ∀ m r, P m → Q m r.root r.bindings → (rule.apply r).Leaves m (fun _ => P) E) :
    rule.Keeps P E := by
  intro m i h hi
  obtain ⟨hmatch, hbroken⟩ := Pattern.match?_spec (Pattern.yields_matches? fun hi => hpattern m i h hi)
  refine ⟨fun r hr => ?_, fun f hf => hfault m f h (hbroken f hf)⟩
  obtain ⟨rfl, hq⟩ := hmatch r hr
  exact happly m r h hq

private theorem brokenConstant_of_fault (m : Module) (f : Fault) (_ : Refines m₀ m)
    (hf : m.ConstantFault f) : BrokenConstant (.broken f) m :=
  ⟨f, rfl, hf⟩

private theorem nested_keeps : Convert.nested.Keeps (Refines m₀) BrokenConstant := by
  refine keeps_of_yields (fun m i _ => ∃ n t, m.get? i = some n ∧ n.op = .convert t)
    brokenConstant_of_fault (fun m i h hi => ?_) fun m r h hq => ?_
  · refine Pattern.yields_and (Pattern.yields_matches? fun _ => Pattern.yields_name hi fun n hn hname => ?_)
    obtain ⟨t, ht⟩ := eq_convert_of_name hname
    refine Pattern.yields_matches? fun _ => Pattern.yields_arg hi fun _ _ _ _ => ?_
    exact Pattern.yields_matches? fun hj => Pattern.yields_name hj fun _ _ _ => ⟨n, t, hn, ht⟩
  · obtain ⟨n, t, hn, hop⟩ := hq
    have hop' : Plain n.op := hop ▸ plain_convert t
    refine nested_leaves h.typed.accepted hn hop (fun j k hstart hs => ?_) fun j k hstart _ => ?_
    · exact leaves_of_refines h (h.typed.replaceWith_leaves hn hop'.parameter?_eq_none hop'.output
        hstart.get hs hstart.earlier)
    · refine leaves_of_refines h (h.typed.replace_leaves hn hop'.parameter?_eq_none hop'.output
        (plain_convert t) (by simp) ?_ ?_)
      · simpa [hstart.get] using hstart.earlier
      · rw [List.map_singleton, shapeOf_of_get? hstart.get]
        exact hstart.shape

private theorem idle_keeps : Convert.idle.Keeps (Refines m₀) BrokenConstant := by
  refine keeps_of_yields (fun m i _ => ∃ n t input, m.get? i = some n ∧ n.op = .convert t ∧
    n.inputs[0]? = some input ∧ m.shapeOf input = n.shape) brokenConstant_of_fault
    (fun m i h hi => ?_) fun m r h hq => ?_
  · refine Pattern.yields_and (Pattern.yields_matches? fun _ => Pattern.yields_name hi fun n hn hname => ?_)
    obtain ⟨t, ht⟩ := eq_convert_of_name hname
    refine Pattern.yields_matches? fun _ =>
      Pattern.yields_sameShapeAsInput h.typed.linked hi fun k input a hk hin ha hs => ?_
    cases hn.symm.trans hk
    exact ⟨n, t, input, hn, ht, hin, (shapeOf_of_get? ha).trans hs⟩
  · obtain ⟨n, t, input, hn, hop, hin, hs⟩ := hq
    exact idle_leaves hn hin
      (replaceWith_input_refines h hn (hop ▸ plain_convert t) (List.mem_of_getElem? hin) hs)

private theorem conversion_refines (h₀ : Typed m₀) :
    conversion.run.Leaves m₀ (fun _ => Refines m₀) BrokenConstant :=
  Rule.sweep_leaves (by simpa using ⟨nested_keeps, idle_keeps⟩) h₀.refines

private theorem padding_refines (h₀ : Typed m₀) :
    padding.run.Leaves m₀ (fun _ => Refines m₀) BrokenConstant := by
  simp only [padding, leaves_bind, leaves_get]
  refine leaves_anyOf _ (fun i hi m h => ?_) m₀ h₀.refines
  obtain ⟨n, hn⟩ := exists_get?_of_refines h h₀ hi
  have hm := h.typed.accepted
  rw [Pad.fold, leaves_bind, leaves_get]
  rcases Pad.folded?_cases hm hn with ⟨_, _, _, _, _, _, ho, hr, hs, -⟩ | ⟨-, hr⟩
  · have hop : Plain n.op := ho.op ▸ Pad.plain_convolution _
    rw [leaves_liftFault_bind hr]
    dsimp only
    rw [leaves_bind]
    exact leaves_of_refines h (h.typed.replace_leaves hn hop.parameter?_eq_none hop.output
      (Pad.plain_convolution _) (by simp) (ho.operands_lt hm hn) hs)
  · rw [leaves_liftFault_bind hr]
    exact h

theorem eq_binary_of_name {op : Operator} {f : Binary} (h : op.name = f.name) : op = .binary f := by
  cases op with
  | binary g => cases f <;> cases g <;> first | rfl | simp [Operator.name, Binary.name] at h
  | unary g => cases f <;> cases g <;> simp [Operator.name, Binary.name, Unary.name] at h
  | _ => cases f <;> simp [Operator.name, Binary.name] at h

theorem eq_unary_of_name {op : Operator} {f : Unary} (h : op.name = f.name) : op = .unary f := by
  cases op with
  | unary g => cases f <;> cases g <;> first | rfl | simp [Operator.name, Unary.name] at h
  | binary g => cases f <;> cases g <;> simp [Operator.name, Binary.name, Unary.name] at h
  | _ => cases f <;> simp [Operator.name, Unary.name] at h

theorem plain_contiguous : Plain .contiguous := ⟨rfl, by simp, rfl⟩

/-- What a copy of an operand can take the place of: the operand comes earlier, and its shape or the
row-major layout of it is the shape of the instruction. -/
structure Operand (m : Module) (i x : InstructionId) (n k : Instruction) : Prop where
  root : m.get? i = some n
  plain : Plain n.op
  operand : m.get? x = some k
  earlier : m.order.idxOf x < m.order.idxOf i
  single : k.shape.isTuple = false
  layout : n.shape ≠ k.shape → n.shape.isStandard = .ok true → n.shape.lens = k.shape.lens →
    n.shape = k.shape.asStandard

/-- An instruction is forwarded to an operand of its shape, or to a row-major copy of one, or stays. -/
theorem replaceKeepingShape_leaves {k : Instruction} {P : Module → Prop} {E : Failure → Module → Prop}
    (h : Operand m i j n k) (ha : n.shape.addressable = true) (hidle : P m)
    (hforward : k.shape = n.shape → (replaceWith i j).Leaves m (fun _ => P) E)
    (hcopy : n.shape.isStandard = .ok true → n.shape = k.shape.asStandard →
      Operator.contiguous.inferShape ([j].map m.shapeOf) [] = .ok n.shape →
      (insert i .contiguous [j] >>= fun copy => replaceWith i copy).Leaves m (fun _ => P) E) :
    (replaceKeepingShape i j).Leaves m (fun _ => P) E := by
  rw [replaceKeepingShape, leaves_bind, leaves_get, leaves_liftFault_bind (get_eq_ok_iff.2 h.root),
    leaves_liftFault_bind (get_eq_ok_iff.2 h.operand)]
  dsimp only
  split
  · rename_i he
    rw [leaves_bind]
    exact hforward he.symm
  rename_i hne
  obtain ⟨standard, hstandard⟩ := Shape.isStandard_eq_ok ha
  rw [leaves_liftFault_bind hstandard]
  split
  · exact hidle
  rename_i hst
  obtain rfl : standard = true := by simpa using hst
  split
  · exact hidle
  rename_i hsame
  simp only [Bool.or_eq_true, decide_eq_true_eq, not_or, not_not] at hsame
  have hshape := h.layout hne hstandard hsame.2
  have hinfer : Operator.contiguous.inferShape ([j].map m.shapeOf) [] = .ok n.shape := by
    rw [List.map_singleton, shapeOf_of_get? h.operand]
    exact Operator.inferShape_eq_ok.2
      ⟨Operator.rawShape_contiguous.2 ⟨_, rfl, h.single, hshape⟩, ha⟩
  simpa only [leaves_bind, leaves_pure] using hcopy hstandard hshape hinfer

theorem get_of_lookup {r : Match} {name : String} (h : r.bindings.lookup name = some j) :
    r.get name = .ok j := by
  rw [Match.get, Match.get?, h]

/-- The operand that was bound replaces the root. -/
theorem keepOperand_leaves {r : Match} {P : Module → Prop} {E : Failure → Module → Prop}
    (hb : r.bindings.lookup "x" = some j)
    (h : (replaceKeepingShape r.root j).Leaves m (fun _ => P) E) :
    (Algebra.keepOperand r).Leaves m (fun _ => P) E := by
  rw [Algebra.keepOperand, leaves_liftFault_bind (get_of_lookup hb)]
  exact h

private theorem replaceKeepingShape_refines {k : Instruction} (h : Refines m₀ m)
    (ho : Operand m i j n k) :
    (replaceKeepingShape i j).Leaves m (fun _ => Refines m₀) BrokenConstant := by
  have hn := ho.root
  have hop := ho.plain
  refine replaceKeepingShape_leaves ho (h.typed.addressable hn) h (fun hs => ?_) fun _ _ hcopy => ?_
  · exact leaves_of_refines h (h.typed.replaceWith_leaves hn hop.parameter?_eq_none hop.output
      ho.operand hs ho.earlier)
  · rw [leaves_bind]
    refine (h.typed.insert_leaves hn plain_contiguous (by simp)
      (by simpa [ho.operand] using ho.earlier) hcopy (h.typed.made_of_get? hn)).mono ?_
      fun _ _ hf => hf.elim
    rintro copy m' ⟨hm', hlt', c, hc, hcs⟩
    obtain ⟨n', hn', hs', ho', hp'⟩ := hm'.kept i n hn
    exact leaves_of_refines (h.trans hm') (hm'.typed.replaceWith_leaves hn'
      (hp'.trans hop.parameter?_eq_none) (ho'.trans hop.output) hc (hcs.trans hs'.symm) hlt')

/-- An operand that matches anything is bound to a name. -/
theorem yields_operand (hn : m.get? i = some n) (k : Nat) (b : Bindings) (name : String)
    {Q : Bindings → Prop}
    (h : ∀ j b', n.inputs[k]? = some j → b'.lookup name = some j → Q b') :
    Pattern.Yields m ((Pattern.arg k (.bind .any name)).matches? m i b) Q := by
  refine Pattern.yields_argOf hn fun input hin => ?_
  refine Pattern.yields_matches? fun _ => Pattern.yields_bound fun _ => Pattern.yields_matches? fun _ =>
    Pattern.yields_any ?_
  exact h input _ hin (b.lookup_bind name input)

/-- Under broadcasting views there is a constant with this value. -/
def ConstantAt (m : Module) (value : Float) (c : InstructionId) : Prop :=
  ∃ views d v, Pattern.underBroadcasts m views c = .ok d ∧ m.eval d = .ok (some v) ∧
    v.allEqual value = true

/-- A static instruction with axes. -/
structure Spread (m : Module) (i : InstructionId) : Prop where
  static : (m.shapeOf i).isDynamic = false
  single : (m.shapeOf i).isTuple = false
  axes : (m.shapeOf i).lens ≠ []

theorem Spread.dims_ne_nil (h : Spread m i) : (m.shapeOf i).toDynamic.dynamicDims ≠ [] := by
  rw [Shape.dims_of_static h.static h.single]
  simpa using h.axes

section Values
variable (h : Accepted m) (hlit : ∀ i n v, m.core? i = some n → n.op = .literal v → v.Made)
include h

include hlit in
/-- The value of an instruction is a literal of its shape. -/
theorem made_of_hasValue {v : Literal} (hv : m.HasValue i v) :
    v.Made ∧ v.shape = (m.shapeOf i).asStandard := by
  have hliteral : ∀ n, m.get? i = some n → n.op = .literal v →
      v.Made ∧ v.shape = (m.shapeOf i).asStandard := by
    intro n hn hop
    have hcore := core?_of_get? hn
    have hmade := hlit i _ v hcore hop
    rw [shapeOf_of_core? hcore, (h.own i _ hcore).literal v hop]
    exact ⟨hmade, hmade.asStandard.symm⟩
  cases hv with
  | @literal _ n _ hn hop => exact hliteral n hn hop
  | @computed _ n args _ hn _ he =>
    by_cases hop : ∃ w, n.op = .literal w
    · obtain ⟨w, hop⟩ := hop
      rw [hop] at he
      cases he
      exact hliteral n hn hop
    · rw [shapeOf_of_get? hn]
      exact Operator.filled_evaluate (fun w hw => hop ⟨w, hw⟩) v he

include hlit in
/-- A constant with a value has axes. -/
theorem spread_of_hasValue {v : Literal} (hv : m.HasValue i v) (hne : v.data.size ≠ 0) :
    Spread m i := by
  obtain ⟨hmade, hshape⟩ := made_of_hasValue h hlit hv
  have hsize : (m.shapeOf i).elements = .ok v.data.size := by
    rw [← Shape.elements_asStandard, ← hshape]
    exact hmade.elements
  obtain ⟨⟨ht, hd⟩, hl, -⟩ := Shape.of_elements_ne_zero hsize hne
  exact ⟨hd, ht, hl⟩

/-- A view of what has axes has axes. -/
theorem spread_of_underBroadcasts {views : Nat} (hj : Pattern.underBroadcasts m views i = .ok j)
    (hs : Spread m j) : Spread m i := by
  refine Pattern.of_views h hj hs fun i n input _ hop _ hfits hinput => ?_
  obtain ⟨_, hin, -, -, hd, ht, hl⟩ := Operator.axes_of_isBroadcast hop hfits
  cases hin
  exact ⟨hd, ht, hl hinput.axes⟩

include hlit in
theorem ConstantAt.spread {value : Float} {c : InstructionId} (hc : ConstantAt m value c) :
    Spread m c := by
  obtain ⟨views, d, v, hd, hv, hall⟩ := hc
  exact spread_of_underBroadcasts h hd
    (spread_of_hasValue h hlit (hasValue_of_eval hv) (Literal.size_ne_zero_of_allEqual hall))

end Values

/-- An operand that is constant binds nothing. -/
theorem yields_constant (hl : Linked m) (hn : m.get? i = some n) (k : Nat) {b : Bindings}
    (value : Float) {Q : Bindings → Prop}
    (h : ∀ c, n.inputs[k]? = some c → ConstantAt m value c → Q b) :
    Pattern.Yields m ((Pattern.arg k (.skipBroadcasts (.hasValue value))).matches? m i b) Q := by
  refine Pattern.yields_argOf hn fun c hc => Pattern.yields_matches? fun hlive => ?_
  refine Pattern.yields_skipBroadcasts hl hlive fun views d hd => Pattern.yields_matches? fun _ => ?_
  exact Pattern.yields_evaluated fun v hv hall => h c hc ⟨views, d, v, hd, hv, hall⟩

/-- One operand of the operator is `x`, and the other a constant. -/
structure Neutral (m : Module) (f : Binary) (value : Float) (commutative : Bool)
    (i x : InstructionId) (n : Instruction) (c : InstructionId) : Prop where
  root : m.get? i = some n
  op : n.op = .binary f
  inputs : n.inputs[0]? = some x ∧ n.inputs[1]? = some c ∨
    commutative = true ∧ n.inputs[0]? = some c ∧ n.inputs[1]? = some x
  constant : ConstantAt m value c

theorem Neutral.mem_inputs {f : Binary} {value : Float} {commutative : Bool} {x c : InstructionId}
    (h : Neutral m f value commutative i x n c) : x ∈ n.inputs := by
  rcases h.inputs with ⟨hx, -⟩ | ⟨-, -, hx⟩ <;> exact List.mem_of_getElem? hx

private theorem Neutral.constant_mem_inputs {f : Binary} {value : Float} {commutative : Bool}
    {x c : InstructionId} (h : Neutral m f value commutative i x n c) : c ∈ n.inputs := by
  rcases h.inputs with ⟨-, hc⟩ | ⟨-, hc, -⟩ <;> exact List.mem_of_getElem? hc

theorem yields_neutral (hl : Linked m) (f : Binary) (value : Float) (commutative : Bool)
    (hi : (m.get? i).isSome) :
    Pattern.Yields m ((Algebra.neutral f.name value commutative).pattern.test m i []) fun b =>
      ∃ x n c, b.lookup "x" = some x ∧ Neutral m f value commutative i x n c := by
  refine Pattern.yields_and (Pattern.yields_matches? fun _ => Pattern.yields_name hi fun n hn hname => ?_)
  have hop : n.op = .binary f := eq_binary_of_name hname
  have hfirst : Pattern.Yields m ((Pattern.arg 0 (.bind .any "x")).matches? m i []) fun b' =>
      Pattern.Yields m ((Pattern.arg 1 (.skipBroadcasts (.hasValue value))).matches? m i b') fun b =>
        ∃ x n c, b.lookup "x" = some x ∧ Neutral m f value commutative i x n c :=
    yields_operand hn 0 [] "x" fun x b' hx hb => yields_constant hl hn 1 value fun c hc hv =>
      ⟨x, n, c, hb, hn, hop, .inl ⟨hx, hc⟩, hv⟩
  refine Pattern.yields_matches? fun _ => ?_
  split
  · rename_i hcomm
    refine Pattern.yields_or ?_ ?_ <;> refine Pattern.yields_matches? fun _ => Pattern.yields_and ?_
    · exact hfirst
    · exact yields_constant hl hn 0 value fun c hc hv => yields_operand hn 1 [] "x" fun x b' hx hb =>
        ⟨x, n, c, hb, hn, hop, .inr ⟨hcomm, hc, hx⟩, hv⟩
  · exact Pattern.yields_and hfirst

/-- The operator is the negation of a negation of `x`. -/
structure Negations (m : Module) (i x : InstructionId) (n : Instruction) (j : InstructionId)
    (k : Instruction) : Prop where
  root : m.get? i = some n
  op : n.op = .unary .neg
  input : j ∈ n.inputs
  inner : m.get? j = some k
  innerOp : k.op = .unary .neg
  operand : x ∈ k.inputs

theorem yields_doubleNegation (hi : (m.get? i).isSome) :
    Pattern.Yields m (Algebra.doubleNegation.pattern.test m i []) fun b =>
      ∃ x n j k, b.lookup "x" = some x ∧ Negations m i x n j k := by
  refine Pattern.yields_and (Pattern.yields_matches? fun _ => Pattern.yields_name hi fun n hn hname => ?_)
  refine Pattern.yields_argOf hn fun j hj => Pattern.yields_matches? fun hlive => Pattern.yields_and
    (Pattern.yields_matches? fun _ => Pattern.yields_name hlive fun k hk hkname => ?_)
  exact yields_operand hk 0 [] "x" fun x b hx hb => ⟨x, n, j, k, hb, hn, eq_unary_of_name hname,
    List.mem_of_getElem? hj, hk, eq_unary_of_name hkname, List.mem_of_getElem? hx⟩

section Operands
variable (h : Accepted m)
include h

theorem Neutral.isOperand {f : Binary} {value : Float} {commutative : Bool} {x c : InstructionId}
    (hlit : ∀ i n v, m.core? i = some n → n.op = .literal v → v.Made)
    (htidy : ∀ i n, m.get? i = some n → n.shape.Tidy) (hm : Neutral m f value commutative i x n c) :
    ∃ k, Operand m i x n k := by
  have hx := hm.mem_inputs
  obtain ⟨k, hk, hlt⟩ := h.input_lt hm.root hx
  have hfits : n.op.inferShape (n.inputs.map m.shapeOf) n.moduleOutputs = .ok n.shape :=
    h.fits_of_mem (n := n.core) (core?_of_get? hm.root) hx
  rw [hm.op, Operator.inferShape_eq_ok, Operator.rawShape_binary] at hfits
  obtain ⟨⟨a, b, hin, hat, hbt, htype, hdims, hp⟩, -⟩ := hfits
  have hpointwise := Operator.Inference.pointwise_of_eq_ok hp
  have hshapes : ∀ s ∈ n.inputs.map m.shapeOf, s.Tidy := by
    intro s hs
    obtain ⟨y, hy, rfl⟩ := List.mem_map.1 hs
    obtain ⟨ky, hky, -⟩ := h.input_lt hm.root hy
    rw [shapeOf_of_get? hky]
    exact htidy y ky hky
  have hspread := hm.constant.spread h hlit
  have hrank : a.rank ≠ 0 := by
    have hdimsc : (m.shapeOf c).toDynamic.dynamicDims = a.toDynamic.dynamicDims := by
      have hc : m.shapeOf c ∈ [a, b] := hin ▸ List.mem_map_of_mem hm.constant_mem_inputs
      rcases List.mem_pair.1 hc with he | he <;> rw [he]
      exact hdims
    rw [Shape.rank_eq_length_dims hat, ← hdimsc]
    exact mt List.length_eq_zero_iff.1 hspread.dims_ne_nil
  have hmem : k.shape ∈ [a, b] := by
    rw [← hin, ← shapeOf_of_get? hk]
    exact List.mem_map_of_mem hx
  have hplain : Plain n.op := hm.op ▸ ⟨rfl, by simp, rfl⟩
  rcases List.mem_pair.1 hmem with he | he
  · exact ⟨k, hm.root, hplain, hk, hlt, he ▸ hat, fun hne _ _ =>
      he ▸ hpointwise.eq_asStandard (he ▸ hne)⟩
  · exact ⟨k, hm.root, hplain, hk, hlt, he ▸ hbt, fun hne hst hlens =>
      he ▸ hpointwise.eq_asStandard_right (hshapes a (by simp [hin])) (hshapes b (by simp [hin])) hat
        hbt hrank htype hdims (he ▸ hne) hst (he ▸ hlens)⟩

/-- Negating twice keeps the shape of the first negation. -/
theorem Negations.isOperand {x : InstructionId} {k : Instruction} (hm : Negations m i x n j k) :
    ∃ a, Operand m i x n a := by
  obtain ⟨_, hk', hlt⟩ := h.input_lt hm.root hm.input
  cases hm.inner.symm.trans hk'
  obtain ⟨a, ha, hlt'⟩ := h.input_lt hm.inner hm.operand
  have hfits : n.op.inferShape (n.inputs.map m.shapeOf) n.moduleOutputs = .ok n.shape :=
    h.fits_of_mem (n := n.core) (core?_of_get? hm.root) hm.input
  have hkfits : k.op.inferShape (k.inputs.map m.shapeOf) k.moduleOutputs = .ok k.shape :=
    h.fits_of_mem (n := k.core) (core?_of_get? hm.inner) hm.operand
  rw [hm.op, Operator.inferShape_eq_ok, Operator.rawShape_unary] at hfits
  rw [hm.innerOp, Operator.inferShape_eq_ok, Operator.rawShape_unary] at hkfits
  obtain ⟨⟨s, hs, hst, hp⟩, -⟩ := hfits
  obtain ⟨⟨t, ht, htt, hkp⟩, -⟩ := hkfits
  obtain rfl : m.shapeOf j = s := by simpa [hs] using List.mem_map_of_mem (f := m.shapeOf) hm.input
  obtain rfl : m.shapeOf x = t := by simpa [ht] using List.mem_map_of_mem (f := m.shapeOf) hm.operand
  rw [shapeOf_of_get? hm.inner] at hst hp
  rw [shapeOf_of_get? ha] at htt hkp
  have hfirst := Operator.Inference.pointwise_of_eq_ok hkp
  have hsame : n.shape = k.shape :=
    hfirst.idem htt hst (Operator.Inference.pointwise_of_eq_ok hp)
  refine ⟨a, hm.root, hm.op ▸ ⟨rfl, by simp, rfl⟩, ha, Nat.lt_trans hlt' hlt, htt, fun hne _ _ => ?_⟩
  rw [hsame] at hne ⊢
  exact hfirst.eq_asStandard hne

end Operands

private theorem neutral_keeps (f : Binary) (value : Float) (commutative : Bool) :
    (Algebra.neutral f.name value commutative).Keeps (Refines m₀) BrokenConstant := by
  refine keeps_of_yields _ brokenConstant_of_fault
    (fun m i h hi => yields_neutral h.typed.linked f value commutative hi) fun m r h hq => ?_
  obtain ⟨x, n, c, hb, hm⟩ := hq
  obtain ⟨k, ho⟩ := hm.isOperand h.typed.accepted h.typed.literals fun i n hn =>
    (h.typed.made_of_get? hn).tidy
  exact keepOperand_leaves hb (replaceKeepingShape_refines h ho)

private theorem doubleNegation_keeps : Algebra.doubleNegation.Keeps (Refines m₀) BrokenConstant := by
  refine keeps_of_yields _ brokenConstant_of_fault (fun m i _ hi => yields_doubleNegation hi)
    fun m r h hq => ?_
  obtain ⟨x, n, j, k, hb, hm⟩ := hq
  obtain ⟨a, ho⟩ := hm.isOperand h.typed.accepted
  exact keepOperand_leaves hb (replaceKeepingShape_refines h ho)

private theorem algebra_refines (h₀ : Typed m₀) :
    algebra.run.Leaves m₀ (fun _ => Refines m₀) BrokenConstant := by
  refine Rule.sweep_leaves (fun rule hrule => ?_) h₀.refines
  simp only [List.mem_cons, List.not_mem_nil, or_false] at hrule
  rcases hrule with rfl | rfl | rfl | rfl | rfl
  · exact neutral_keeps .add _ _
  · exact neutral_keeps .sub _ _
  · exact neutral_keeps .mul _ _
  · exact neutral_keeps .div _ _
  · exact doubleNegation_keeps

/-- The value of an instruction can take its place. -/
def Foldable (m : Module) (i : InstructionId) (v : Literal) : Prop :=
  m.HasValue i v ∧ ∃ n, m.get? i = some n ∧ n.parameter? = none ∧ n.op.isOutput = false ∧ v.shape = n.shape

private theorem anyUnknown_spec (is : List InstructionId) {memo : Memo} (hm : MemoHolds m memo) :
    (∀ b memo', ConstantFolding.anyUnknown m is memo = .ok (b, memo') → MemoHolds m memo') ∧
      ∀ f, ConstantFolding.anyUnknown m is memo = .error f → m.ConstantFault f := by
  induction is generalizing memo with
  | nil =>
    refine ⟨fun b memo' h => ?_, fun f h => (nomatch h)⟩
    cases h
    exact hm
  | cons i rest ih =>
    have hfind := finds_evalMemo i hm
    rw [ConstantFolding.anyUnknown]
    cases he : m.evalMemo i memo with
    | error f =>
      refine ⟨fun b memo' h => (nomatch h), fun g hg => ?_⟩
      cases hg
      exact hfind.2 f he
    | ok r =>
      obtain ⟨value, memo'⟩ := r
      have hm' := (hfind.1 value memo' he).2
      cases value with
      | none =>
        refine ⟨fun b memo'' h => ?_, fun f h => (nomatch h)⟩
        cases h
        exact hm'
      | some v => exact ih hm'

private theorem finds_foldValue (hn : m.get? i = some n) {memo : Memo} (hm : MemoHolds m memo) :
    Finds m (Foldable m i) (ConstantFolding.foldValue m i memo) := by
  have hnone : Finds m (Foldable m i) (.ok (none, memo)) := finds_ok (by simp) hm
  rw [ConstantFolding.foldValue, get_eq_ok_iff.2 hn, Except.ok_bind]
  split
  · exact hnone
  rename_i hop
  simp only [Bool.or_eq_true, not_or, Bool.not_eq_true] at hop
  dsimp only
  split
  · exact hnone
  obtain ⟨hkeeps, hfault⟩ := anyUnknown_spec n.users hm
  cases hescapes : ConstantFolding.anyUnknown m n.users memo with
  | error f => exact ⟨fun _ _ h => (nomatch h), fun g hg => by cases hg; exact hfault f hescapes⟩
  | ok r =>
    obtain ⟨escapes, memo'⟩ := r
    have hm' := hkeeps escapes memo' hescapes
    rw [Except.ok_bind]
    dsimp only
    split
    · exact finds_ok (by simp) hm'
    refine finds_bind (finds_evalMemo i hm') fun value memo'' hvalue hm'' =>
      finds_ok (fun v hv => ?_) hm''
    obtain ⟨hv, hs⟩ := Option.filter_eq_some_iff.1 hv
    obtain ⟨hp, ho⟩ := not_parameter_of_not_builtin hop.2
    exact ⟨hvalue v hv, n, hn, hp, ho, by simpa using hs⟩

theorem foldValues_spec (is : List InstructionId) (his : ∀ i ∈ is, (m.get? i).isSome)
    {memo : Memo} (hm : MemoHolds m memo) :
    (∀ folds, ConstantFolding.foldValues m is memo = .ok folds →
      ∀ p ∈ folds, Foldable m p.1 p.2) ∧
      ∀ f, ConstantFolding.foldValues m is memo = .error f → m.ConstantFault f := by
  induction is generalizing memo with
  | nil =>
    refine ⟨fun folds h => ?_, fun f h => (nomatch h)⟩
    cases h
    simp
  | cons i rest ih =>
    obtain ⟨hi, hrest⟩ := List.forall_mem_cons.1 his
    obtain ⟨n, hn⟩ := Option.isSome_iff_exists.1 hi
    have hfind := finds_foldValue hn hm
    rw [ConstantFolding.foldValues]
    cases hv : ConstantFolding.foldValue m i memo with
    | error f => exact ⟨fun _ h => (nomatch h), fun g hg => by cases hg; exact hfind.2 f hv⟩
    | ok r =>
      obtain ⟨value, memo'⟩ := r
      obtain ⟨hfold, hm'⟩ := hfind.1 value memo' hv
      obtain ⟨hothers, hfault⟩ := ih hrest hm'
      rw [Except.ok_bind]
      dsimp only
      refine ⟨fun folds h => ?_, fun f h => ?_⟩
      · obtain ⟨others, ho, h⟩ := Except.bind_eq_ok.1 h
        cases h
        intro p hp
        rcases List.mem_append.1 hp with hp | hp
        · obtain ⟨v, hv, rfl⟩ := List.mem_map.1 hp
          exact hfold v (Option.mem_toList.1 hv)
        · exact hothers others ho p hp
      · rcases Except.bind_eq_error.1 h with h | ⟨_, -, h⟩
        · exact hfault f h
        · cases h

private theorem foldInto_refines (h₀ : Typed m₀) (name : String)
    {folds : List (InstructionId × Literal)} (hfolds : ∀ p ∈ folds, Foldable m₀ p.1 p.2)
    (h : Refines m₀ m) :
    (ConstantFolding.foldInto name folds).Leaves m (fun _ => Refines m₀) BrokenConstant := by
  induction folds generalizing m with
  | nil => exact h
  | cons p rest ih =>
    obtain ⟨i, v⟩ := p
    obtain ⟨⟨hv, n, hn, hp, ho, hs⟩, hrest⟩ := List.forall_mem_cons.1 hfolds
    have hmade := (made_of_hasValue h₀.accepted h₀.literals hv).1
    obtain ⟨n₁, hn₁, hs₁, ho₁, hp₁⟩ := h.kept i n hn
    rw [ConstantFolding.foldInto, leaves_bind, leaves_report, leaves_bind]
    refine (h.typed.addLiteral_leaves hn₁ hmade (hs.trans hs₁.symm)).mono ?_ fun _ _ hf => hf.elim
    rintro l m₁ ⟨hm₁, hlt, k, hk, hks⟩
    obtain ⟨n₂, hn₂, hs₂, ho₂, hp₂⟩ := hm₁.kept i n₁ hn₁
    rw [leaves_bind]
    refine (hm₁.typed.replaceWith_leaves hn₂ (hp₂.trans (hp₁.trans hp)) (ho₂.trans (ho₁.trans ho)) hk
      (hks.trans hs₂.symm) hlt).mono ?_ fun _ _ hf => hf.elim
    exact fun _ m₂ hm₂ => ih hrest (h.trans (hm₁.trans hm₂))

private theorem constantFolding_refines (h₀ : Typed m₀) :
    constantFolding.run.Leaves m₀ (fun _ => Refines m₀) BrokenConstant := by
  obtain ⟨hok, hfault⟩ := foldValues_spec m₀.order
    (fun i hi => (h₀.linked.mem_order i).1 hi) (memoHolds_nil m₀)
  simp only [constantFolding, leaves_bind, leaves_get, leaves_liftFault, leaves_pure]
  refine ⟨fun folds hf => ?_, fun f hf => ⟨f, rfl, hfault f hf⟩⟩
  exact foldInto_refines h₀ m₀.name (hok folds hf) h₀.refines

section Swept
variable {m' : Module} {alive : List InstructionId}

theorem core?_of_swept (hs : DeadCode.Swept m m' alive) {n : Instruction}
    (hi : m'.core? i = some n) : i ∈ alive ∧ m.core? i = some n := by
  rw [hs.core] at hi
  split at hi
  · exact ⟨‹_›, hi⟩
  · cases hi

theorem map_shapeOf_of_swept (hs : DeadCode.Swept m m' alive) (hi : i ∈ alive)
    (hn : m.core? i = some n) : n.inputs.map m'.shapeOf = n.inputs.map m.shapeOf := by
  refine List.map_congr_left fun j hj => ?_
  have hja := hs.closed i hi j (by rwa [inputsOf_of_core? hn])
  rw [shapeOf, hs.core, if_pos hja, shapeOf]

theorem names_of_swept (hs : DeadCode.Swept m m' alive) (h : DistinctNames m) :
    DistinctNames m' := by
  refine h.of_kept fun i name hi => ?_
  obtain ⟨n, hn, hname⟩ := Option.bind_eq_some_iff.1 hi
  obtain ⟨-, hcore⟩ := core?_of_swept hs hn
  rw [nameOf?, hcore]
  exact hname

private theorem typed_of_swept (hs : DeadCode.Swept m m' alive) (h : Typed m) : Typed m' where
  linked := hs.linked
  ordered := hs.ordered h.ordered
  output_last i n hn ho := by
    obtain ⟨-, hcore⟩ := core?_of_swept hs (core?_of_get? hn)
    obtain ⟨k, hk, he⟩ := exists_get?_of_core? hcore
    rw [hs.last?_eq]
    exact h.output_last i k hk (Instruction.op_eq_of_core he ▸ ho)
  names := names_of_swept hs h.names
  fits i n hn := by
    obtain ⟨hi, hcore⟩ := core?_of_swept hs hn
    rw [ShapeFits, map_shapeOf_of_swept hs hi hcore]
    exact h.fits i n hcore
  shapes i n hn := h.shapes i n (core?_of_swept hs hn).2
  literals i n v hn := h.literals i n v (core?_of_swept hs hn).2

private theorem keeps_of_swept (hs : DeadCode.Swept m m' alive) (h : Typed m) : Keeps m m' where
  name := hs.name
  outputs := by
    cases hlast : m.last? with
    | none => rw [outputShapes_of_empty hlast, outputShapes_of_empty (hs.last?_eq.trans hlast)]
    | some i =>
      have hi := hs.last i hlast
      obtain ⟨n, hn⟩ := exists_core?_of_mem_order h.linked (List.mem_of_getLast? hlast)
      have hn' : m'.core? i = some n := by rw [hs.core, if_pos hi, hn]
      rw [outputShapes_of_last h.linked hlast hn,
        outputShapes_of_last hs.linked (hs.last?_eq.trans hlast) hn', map_shapeOf_of_swept hs hi hn]
  parameters := by
    rw [parameterShapes_eq, parameterShapes_eq, hs.order, List.filterMap_filter]
    refine List.filterMap_congr fun i _ => ?_
    rw [parameterOf?, hs.core, parameterOf?]
    by_cases hi : i ∈ alive
    · simp [hi]
    · cases hn : m.core? i with
      | none => simp
      | some n =>
        obtain ⟨k, hk, rfl⟩ := exists_get?_of_core? hn
        have hno : k.core.parameter? = none := by
          rw [← Option.not_isSome_iff_eq_none]
          exact fun hp => hi (hs.parameters i k hk hp)
        simp [hi, hno]
  modules i n hn := .inr ⟨i, n, (core?_of_swept hs hn).2, rfl⟩

end Swept

/-- The test that protects empty results does not break down on an addressable shape. -/
theorem exists_keepWhenEmpty (h : n.shape.addressable = true) :
    ∃ b, DeadCode.keepWhenEmpty n = .ok b := by
  obtain ⟨c, hc⟩ := Shape.elements_eq_ok h
  rw [DeadCode.keepWhenEmpty, hc]
  split
  · exact ⟨false, rfl⟩
  · exact ⟨_, rfl⟩

private theorem deadCode_keeps (h : Typed m) :
    deadCode.run.Leaves m (fun _ m' => Typed m' ∧ Keeps m m') fun _ _ => False := by
  refine (DeadCode.runWith_leaves _ h.linked).mono ?_ ?_
  · rintro _ m' ⟨alive, hs⟩
    exact ⟨typed_of_swept hs h, keeps_of_swept hs h⟩
  · rintro _ _ ⟨-, f, i, n, k, -, hn, hk, hf⟩
    have hshape : k.shape = n.shape := by
      have hs := congrArg Instruction.shape hk
      exact hs
    obtain ⟨b, hb⟩ := exists_keepWhenEmpty (hshape ▸ h.addressable hn)
    exact (nomatch hb.symm.trans hf)

/-- The passes that keep the shapes of a module. -/
def simplifying : List Pass :=
  [identity, conversion, padding, algebra, constantFolding, deadCode]

/-- What each of these passes does to a typed module. -/
theorem run_keeps {pass : Pass} (hpass : pass ∈ simplifying) (h : Typed m) :
    pass.run.Leaves m (fun _ m' => Typed m' ∧ Keeps m m') BrokenConstant := by
  have hrefines : ∀ {x : Module.Edit Bool}, x.Leaves m (fun _ => Refines m) BrokenConstant →
      x.Leaves m (fun _ m' => Typed m' ∧ Keeps m m') BrokenConstant := fun hx =>
    hx.imp fun _ m' hm' => ⟨hm'.typed, hm'.keeps⟩
  simp only [simplifying, List.mem_cons, List.not_mem_nil, or_false] at hpass
  rcases hpass with rfl | rfl | rfl | rfl | rfl | rfl
  · exact hrefines (identity_refines h)
  · exact hrefines (conversion_refines h)
  · exact hrefines (padding_refines h)
  · exact hrefines (algebra_refines h)
  · exact hrefines (constantFolding_refines h)
  · exact (deadCode_keeps h).mono (fun _ _ hm' => hm') fun _ _ hf => hf.elim

end TensorGraph.Pass
