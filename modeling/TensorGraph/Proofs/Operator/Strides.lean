import TensorGraph.Proofs.Literal
import TensorGraph.Proofs.Operator.Inference

/-! Operators that expect row-major inputs infer the same shape from row-major copies of them: their
rules read types, lengths and ranges, and no strides. The shape is row-major itself. -/
namespace TensorGraph.Operator
namespace Inference
variable {op : String} {ins : List Shape} {s t : Shape}

/-- A rule for two inputs of one type and rank whose lengths are known. -/
theorem paired_eq_ok {low : Nat} {shape : Shape → Shape → Infer Shape} :
    (do has 2 op ins; onlyStatic op ins; sameType op ins; sameRank op ins; minRank low op ins
        shape (← Fault.inRange ins[0]?) (← Fault.inRange ins[1]?)) = .ok t ↔
      ∃ a b, ins = [a, b] ∧ (a.isTuple = false ∧ b.isTuple = false) ∧
        (a.isDynamic = false ∧ b.isDynamic = false) ∧ b.elementType = a.elementType ∧
          b.rank = a.rank ∧ (low ≤ a.rank ∧ low ≤ b.rank) ∧ shape a b = .ok t := by
  simp only [Except.seq_eq_ok, has_eq_ok, List.length_eq_two]
  constructor
  · rintro ⟨⟨a, b, rfl⟩, hstatic, htype, hrank, hlow, h⟩
    rw [onlyStatic_eq_ok] at hstatic
    rw [sameType, agree_eq_ok] at htype
    rw [sameRank, agree_eq_ok] at hrank
    rw [minRank_eq_ok] at hlow
    exact ⟨a, b, rfl, by simpa using hstatic.1, by simpa using hstatic.2, by simpa using htype,
      by simpa using hrank, by simpa using hlow, h⟩
  · rintro ⟨a, b, rfl, ht, hd, htype, hrank, hlow, h⟩
    exact ⟨⟨a, b, rfl⟩, onlyStatic_eq_ok.2 ⟨by simpa using ht, by simpa using hd⟩,
      agree_eq_ok.2 (by simpa using htype), agree_eq_ok.2 (by simpa using hrank),
      minRank_eq_ok.2 (by simpa using hlow), h⟩

/-- The rule of normalization. -/
theorem normalized_eq_ok :
    (do has 1 op ins; notTuple op ins; minRank 1 op ins
        return (← Fault.inRange ins[0]?).asStandard : Infer Shape) = .ok t ↔
      ∃ x, ins = [x] ∧ x.isTuple = false ∧ 1 ≤ x.rank ∧ t = x.asStandard := by
  rw [single_eq_ok, Except.seq_eq_ok, minRank_eq_ok]
  constructor
  · rintro ⟨⟨x, rfl, ht⟩, hrank, h⟩
    exact ⟨x, rfl, ht, hrank x (by simp), (Except.ok.inj h).symm⟩
  · rintro ⟨x, rfl, ht, hrank, rfl⟩
    exact ⟨⟨x, rfl, ht⟩, by simpa using hrank, rfl⟩

private theorem reshapeShape_asStandard (dims : List Int) :
    reshapeShape op s.asStandard dims = reshapeShape op s dims := by
  have hlen : ∀ axis d, requestedLen op s.asStandard axis d = requestedLen op s axis d := by
    intro axis d
    rw [requestedLen, requestedLen, Shape.lens_asStandard]
  have hwith : ∀ lens, s.asStandard.withLens lens = s.withLens lens := fun lens => by
    rw [Shape.withLens, Shape.withLens, Shape.elementType_asStandard]
  rw [reshapeShape, reshapeShape, Shape.elements_asStandard]
  simp only [hlen, hwith]

private theorem convolutionShape_asStandard {weights : Shape} (window : Window) :
    convolutionShape op s.asStandard weights.asStandard window =
      convolutionShape op s weights window := by
  rw [convolutionShape, convolutionShape]
  simp only [Shape.lens_asStandard, Shape.withLens, Shape.elementType_asStandard]

private theorem fail_ite_eq_ok {α : Type} {c : Prop} [Decidable c] {cause : InferenceError}
    {y : Infer α} {a : α} :
    (if c then fail op cause else y) = .ok a ↔ ¬ c ∧ y = .ok a := by
  split <;> simp_all [fail, refuse]

/-- The rule reports both shapes where it fails, so the failures are not the same. -/
theorem dotShape_asStandard {right : Shape} :
    dotShape op s.asStandard right.asStandard = .ok t ↔ dotShape op s right = .ok t := by
  rw [dotShape, dotShape]
  simp only [Except.bind_eq_ok, fail_ite_eq_ok, Shape.lens_asStandard, Shape.withLens,
    Shape.elementType_asStandard]

private theorem reduceShape_asStandard (axes : List Nat) :
    reduceShape op s.asStandard axes = reduceShape op s axes := by
  rw [reduceShape, reduceShape]
  simp only [Shape.lens_asStandard, Shape.withLens, Shape.elementType_asStandard]

/-- A rule gives row-major shapes only. -/
def Packs (r : Infer Shape) : Prop :=
  ∀ t, r = .ok t → t.asStandard = t

private theorem packs_fail {cause : InferenceError} : Packs (fail op cause) := by
  intro t h
  cases h

private theorem packs_bind {α : Type} {r : Infer α} {f : α → Infer Shape} (h : ∀ a, Packs (f a)) :
    Packs (r >>= f) := by
  intro t ht
  obtain ⟨a, -, ht⟩ := Except.bind_eq_ok.1 ht
  exact h a t ht

private theorem packs_withLens (s : Shape) (lens : List Nat) : Packs (pure (s.withLens lens)) := by
  intro t h
  cases h
  rw [Shape.asStandard]
  split <;> rfl

private theorem packs_reshapeShape (dims : List Int) : Packs (reshapeShape op s dims) := by
  unfold reshapeShape
  split
  · exact packs_fail
  apply packs_bind
  intro lens
  split
  · exact packs_fail
  apply packs_bind
  intro elements
  apply packs_bind
  intro completed
  apply packs_bind
  intro count
  split
  · exact packs_withLens s completed
  · exact packs_fail

private theorem packs_convolutionShape {weights : Shape} (window : Window) :
    Packs (convolutionShape op s weights window) := by
  unfold convolutionShape
  apply packs_bind
  intro axes
  split
  · exact packs_fail
  split
  · exact packs_fail
  apply packs_bind
  intro batch
  apply packs_bind
  intro channels
  apply packs_bind
  intro features
  apply packs_bind
  intro weightChannels
  split
  · exact packs_fail
  apply packs_bind
  intro lens
  exact packs_withLens s _

private theorem packs_dotShape {right : Shape} : Packs (dotShape op s right) := by
  unfold dotShape
  apply packs_bind
  intro batch
  apply packs_bind
  intro front
  apply packs_bind
  intro front'
  split
  · exact packs_fail
  apply packs_bind
  intro inner
  apply packs_bind
  intro inner'
  apply packs_bind
  intro columns
  split
  · exact packs_fail
  apply packs_bind
  intro lens
  exact packs_withLens s lens

private theorem static_map_asStandard {shape : Shape → Infer Shape}
    (h : ∀ x, shape x.asStandard = shape x) :
    (do has 1 op (ins.map Shape.asStandard); onlyStatic op (ins.map Shape.asStandard)
        shape (← Fault.inRange (ins.map Shape.asStandard)[0]?)) = .ok t ↔
      (do has 1 op ins; onlyStatic op ins; shape (← Fault.inRange ins[0]?)) = .ok t := by
  rw [static_eq_ok, static_eq_ok]
  constructor
  · rintro ⟨_, hins, ht, hd, hshape⟩
    obtain ⟨x, rfl, rfl⟩ := List.map_eq_singleton_iff.1 hins
    exact ⟨x, rfl, by simpa using ht, by simpa using hd, h x ▸ hshape⟩
  · rintro ⟨x, rfl, ht, hd, hshape⟩
    exact ⟨_, rfl, by simpa using ht, by simpa using hd, (h x).trans hshape⟩

private theorem paired_map_asStandard {low : Nat} {shape : Shape → Shape → Infer Shape}
    (h : ∀ a b, shape a.asStandard b.asStandard = .ok t ↔ shape a b = .ok t) :
    (do has 2 op (ins.map Shape.asStandard); onlyStatic op (ins.map Shape.asStandard)
        sameType op (ins.map Shape.asStandard); sameRank op (ins.map Shape.asStandard)
        minRank low op (ins.map Shape.asStandard)
        shape (← Fault.inRange (ins.map Shape.asStandard)[0]?)
          (← Fault.inRange (ins.map Shape.asStandard)[1]?)) = .ok t ↔
      (do has 2 op ins; onlyStatic op ins; sameType op ins; sameRank op ins; minRank low op ins
          shape (← Fault.inRange ins[0]?) (← Fault.inRange ins[1]?)) = .ok t := by
  rw [paired_eq_ok, paired_eq_ok]
  constructor
  · rintro ⟨_, _, hins, hrest⟩
    obtain ⟨a, _, rfl, rfl, htail⟩ := List.map_eq_cons_iff.1 hins
    obtain ⟨b, rfl, rfl⟩ := List.map_eq_singleton_iff.1 htail
    refine ⟨a, b, rfl, ?_⟩
    simpa [h] using hrest
  · rintro ⟨a, b, rfl, hrest⟩
    refine ⟨_, _, rfl, ?_⟩
    simpa [h] using hrest

end Inference

open Inference
variable {op : Operator} {ins : List Shape} {t : Shape}

/-- Operators that expect row-major inputs do not read strides, nor sub-modules. -/
theorem rawShape_map_asStandard (h : op.requiresStandardInputs = true)
    (mods mods' : List (List Shape)) :
    op.rawShape (ins.map Shape.asStandard) mods' = .ok t ↔ op.rawShape ins mods = .ok t := by
  cases op with
  | reshape dims => exact static_map_asStandard fun x => reshapeShape_asStandard dims
  | reduceMean axes => exact static_map_asStandard fun x => reduceShape_asStandard axes
  | convolution window =>
    exact paired_map_asStandard fun a b => by rw [convolutionShape_asStandard]
  | dot => exact paired_map_asStandard fun a b => dotShape_asStandard
  | layernorm epsilon =>
    refine normalized_eq_ok.trans (Iff.trans ?_ normalized_eq_ok.symm)
    constructor
    · rintro ⟨_, hins, ht, hrank, rfl⟩
      obtain ⟨x, rfl, rfl⟩ := List.map_eq_singleton_iff.1 hins
      exact ⟨x, rfl, by simpa using ht, by simpa using hrank, by simp⟩
    · rintro ⟨x, rfl, ht, hrank, rfl⟩
      exact ⟨_, rfl, by simpa using ht, by simpa using hrank, by simp⟩
  | _ => cases h

/-- Operators that expect row-major inputs give row-major outputs. -/
theorem asStandard_of_inferShape (h : op.requiresStandardInputs = true) {mods : List (List Shape)}
    (hs : op.inferShape ins mods = .ok t) : t.asStandard = t := by
  have hraw := (inferShape_eq_ok.1 hs).1
  cases op with
  | reshape dims =>
    obtain ⟨x, -, -, -, hx⟩ := static_eq_ok.1 hraw
    exact packs_reshapeShape dims t hx
  | reduceMean axes =>
    obtain ⟨x, -, -, -, hx⟩ := static_eq_ok.1 hraw
    exact packs_bind (packs_withLens x) t hx
  | convolution window =>
    obtain ⟨a, b, -, -, -, -, -, -, hab⟩ := paired_eq_ok.1 hraw
    exact packs_convolutionShape window t hab
  | dot =>
    obtain ⟨a, b, -, -, -, -, -, -, hab⟩ := paired_eq_ok.1 hraw
    exact packs_dotShape t hab
  | layernorm epsilon =>
    obtain ⟨x, -, -, -, rfl⟩ := normalized_eq_ok.1 hraw
    exact Shape.asStandard_asStandard
  | _ => cases h

theorem inferShape_map_asStandard (h : op.requiresStandardInputs = true)
    (mods mods' : List (List Shape)) :
    op.inferShape (ins.map Shape.asStandard) mods' = .ok t ↔ op.inferShape ins mods = .ok t := by
  rw [inferShape_eq_ok, inferShape_eq_ok, rawShape_map_asStandard h mods mods']

end TensorGraph.Operator
