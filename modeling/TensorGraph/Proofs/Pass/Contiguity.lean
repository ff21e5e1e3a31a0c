import TensorGraph.Pass.Contiguous
import TensorGraph.Proofs.Conversion
import TensorGraph.Proofs.Module.Accepted
import TensorGraph.Proofs.Operator.Strides
import TensorGraph.Proofs.RowMajor
import TensorGraph.Proofs.Semantics

/-! One run of row-major copies settles every layout. A copy is row-major, the operators that get
copies infer the shapes they had, and a run changes the shape of no instruction but the one that lists
the outputs; so a second run finds nothing to mend. -/
namespace TensorGraph

/-- A layout with nothing to mend: there is none, it has no elements, or it is row-major. -/
def Shape.Settled (s : Shape) : Prop :=
  s.isTuple = true ∨ s.isDynamic = true ∨ s.elements = .ok 0 ∨ s.isStandard = .ok true

/-- The shape is addressable, and so is a row-major one with its lengths. -/
def Shape.Roomy (s : Shape) : Prop :=
  s.addressable = true ∧ s.asStandard.addressable = true

namespace Shape
variable {s : Shape}

theorem settled_asStandard (h : s.asStandard.addressable = true) : s.asStandard.Settled := by
  cases ht : s.isTuple with
  | true => exact .inl (by simpa using ht)
  | false =>
    cases hd : s.isDynamic with
    | true => exact .inr (.inl (by simpa using hd))
    | false =>
      rw [asStandard_of_static hd ht] at h ⊢
      exact .inr (.inr (.inr (isStandard_packedOf (by simpa [isTuple] using ht) h)))

theorem Roomy.asStandard (h : s.Roomy) : s.asStandard.Roomy :=
  ⟨h.2, by rw [asStandard_asStandard]; exact h.2⟩

end Shape

namespace Pass.Contiguous
open TensorGraph.Action TensorGraph.Module
variable {s : Shape} {m m' m'' : Module} {before i : InstructionId} {n : Instruction}

theorem hasStandardLayout_spec (h : s.addressable = true) :
    ∃ b, hasStandardLayout s = .ok b ∧ (b = true ↔ s.Settled) := by
  obtain ⟨count, hcount⟩ := Shape.elements_eq_ok h
  obtain ⟨standard, hstandard⟩ := Shape.isStandard_eq_ok h
  rw [hasStandardLayout, hcount, hstandard]
  split
  · rename_i hkind
    rw [Bool.or_eq_true] at hkind
    exact ⟨true, rfl, iff_of_true rfl (hkind.imp_right .inl)⟩
  rename_i hkind
  simp only [Bool.or_eq_true, not_or] at hkind
  change ∃ b, (if count = 0 then _ else _) = Except.ok b ∧ _
  split
  · rename_i hzero
    exact ⟨true, rfl, iff_of_true rfl (.inr (.inr (.inl (hzero ▸ hcount))))⟩
  · rename_i hzero
    refine ⟨standard, rfl, ?_⟩
    simp [Shape.Settled, hkind, hcount, hstandard, hzero]

private theorem isMended_leaves (hn : m.get? i = some n) (h : n.shape.addressable = true) :
    (isMended i).Leaves m (fun mended m' => m' = m ∧ (mended = true ↔ (m.shapeOf i).Settled))
      fun _ _ => False := by
  obtain ⟨b, hb, hiff⟩ := hasStandardLayout_spec h
  simp only [isMended, leaves_bind, leaves_get, get_eq_ok_iff.2 hn, leaves_liftFault]
  refine ⟨fun _ he => ⟨fun c hc => ?_, fun f hf => ?_⟩, fun f hf => by cases hf⟩
  · cases he
    cases hb.symm.trans hc
    exact ⟨trivial, by rwa [shapeOf_of_get? hn]⟩
  · cases he
    cases hb.symm.trans hf

/-- All shapes of the module are roomy. -/
def Roomy (m : Module) : Prop :=
  ∀ i n, m.core? i = some n → n.shape.Roomy

theorem Roomy.of_get? (hr : Roomy m) (hn : m.get? i = some n) : n.shape.Roomy :=
  hr i n.core (core?_of_get? hn)

theorem Roomy.shapeOf (hr : Roomy m) (hi : (m.get? i).isSome) : (m.shapeOf i).Roomy := by
  obtain ⟨n, hn⟩ := Option.isSome_iff_exists.1 hi
  rw [shapeOf_of_get? hn]
  exact hr.of_get? hn

private theorem allMended_leaves (hr : Roomy m) (is : List InstructionId)
    (hlive : ∀ i ∈ is, (m.get? i).isSome) :
    (allMended is).Leaves m
      (fun mended m' => m' = m ∧ (mended = true ↔ ∀ i ∈ is, (m.shapeOf i).Settled))
      fun _ _ => False := by
  induction is with
  | nil => exact ⟨rfl, by simp⟩
  | cons i is ih =>
    obtain ⟨hi, his⟩ := List.forall_mem_cons.1 hlive
    obtain ⟨n, hn⟩ := Option.isSome_iff_exists.1 hi
    rw [allMended, leaves_bind]
    refine (isMended_leaves hn (hr.of_get? hn).1).imp ?_
    rintro mended m ⟨rfl, hmended⟩
    cases mended with
    | true =>
      refine (ih his).imp ?_
      rintro all m ⟨rfl, hall⟩
      refine ⟨rfl, ?_⟩
      rw [hall, List.forall_mem_cons]
      exact (and_iff_right (hmended.1 rfl)).symm
    | false =>
      refine ⟨rfl, iff_of_false Bool.false_ne_true fun hall => ?_⟩
      exact Bool.false_ne_true (hmended.2 (hall i (by simp)))

/-- Copies have been added to a module. -/
structure Copies (m m' : Module) : Prop where
  accepted : Accepted m'
  roomy : Roomy m'
  core : ∀ j n, m.core? j = some n → m'.core? j = some n
  came : ∀ j n, m'.core? j = some n → m.core? j = some n ∨ m.core? j = none ∧ n.op = .contiguous

/-- Copies have been added before an instruction. -/
structure Copied (before : InstructionId) (m m' : Module) : Prop extends Copies m m' where
  last : m'.last? = m.last?
  earlier : ∀ j, m.order.idxOf j < m.order.idxOf before →
    m'.order.idxOf j < m'.order.idxOf before

theorem Copied.refl (before : InstructionId) (h : Accepted m) (hr : Roomy m) : Copied before m m :=
  ⟨⟨h, hr, fun _ _ hn => hn, fun _ _ hn => .inl hn⟩, rfl, fun _ hlt => hlt⟩

theorem Copied.trans (h : Copied before m m') (h' : Copied before m' m'') :
    Copied before m m'' where
  accepted := h'.accepted
  roomy := h'.roomy
  core j n hn := h'.core j n (h.core j n hn)
  came j n hn := by
    rcases h'.came j n hn with hn | ⟨hno, hop⟩
    · exact h.came j n hn
    · refine .inr ⟨?_, hop⟩
      cases hj : m.core? j with
      | none => rfl
      | some k => exact (nomatch (h.core j k hj).symm.trans hno)
  last := h'.last.trans h.last
  earlier j hlt := h'.earlier j (h.earlier j hlt)

theorem Copies.live (h : Copies m m') (hi : (m.get? i).isSome) : (m'.get? i).isSome := by
  rw [← isSome_core?, Option.isSome_iff_exists] at hi
  obtain ⟨n, hn⟩ := hi
  exact live_of_core? (h.core i n hn)

theorem Copies.shapeOf_eq (h : Copies m m') (hi : (m.get? i).isSome) :
    m'.shapeOf i = m.shapeOf i := by
  rw [← isSome_core?, Option.isSome_iff_exists] at hi
  obtain ⟨n, hn⟩ := hi
  rw [shapeOf_of_core? hn, shapeOf_of_core? (h.core i n hn)]

theorem Copies.upholds (h : Copies m m') : Upholds m m' := by
  refine ⟨h.accepted, fun j n hn => ?_⟩
  obtain ⟨n', hn', he⟩ := exists_get?_of_core? (h.core j n.core (core?_of_get? hn))
  have hs := congrArg Instruction.shape he
  exact ⟨n', hn', hs.symm⟩

/-- A copy of an instruction that is not a tuple. -/
def copyOf (m : Module) (i : InstructionId) : Instruction :=
  { op := .contiguous, inputs := [i], shape := (m.shapeOf i).asStandard }

private theorem plain_copy : Plain .contiguous :=
  ⟨rfl, fun _ _ h => (nomatch h), rfl⟩

private theorem inferShape_copy (hr : Roomy m) (hi : (m.get? i).isSome)
    (ht : (m.shapeOf i).isTuple = false) :
    Operator.contiguous.inferShape ([i].map m.shapeOf) [] = .ok (m.shapeOf i).asStandard :=
  Operator.inferShape_eq_ok.2
    ⟨Operator.rawShape_contiguous.2 ⟨_, rfl, ht, rfl⟩, (hr.shapeOf hi).2⟩

section Copy
variable (h : Accepted m) (hr : Roomy m) (hi : (m.get? i).isSome)
  (ht : (m.shapeOf i).isTuple = false)
include h hr hi ht

theorem Copies.place {p : Nat} (hp : Placeable m p (copyOf m i)) :
    Copies m (m.place p (copyOf m i)) := by
  have hfits : m.ShapeFits (copyOf m i) := inferShape_copy hr hi ht
  refine ⟨(h.place hp (.inr hfits) (ownShape_of_inferShape hfits)).accepted, fun j k hk => ?_,
    fun j k hk => ?_, fun j k hk => ?_⟩
  · rw [core?_place] at hk
    split at hk
    · cases hk
      exact (hr.shapeOf hi).asStandard
    · exact hr j k hk
  · rw [core?_place_of_live (live_of_core? hk), hk]
  · rw [core?_place] at hk
    split at hk
    · rename_i hj
      cases hk
      rw [hj]
      exact .inr ⟨by simp [core?, get?_nextId], rfl⟩
    · exact .inl hk

/-- A copy before an instruction. -/
theorem insert_copy (hb : (m.get? before).isSome) (hlt : m.order.idxOf i < m.order.idxOf before) :
    (insert before .contiguous [i]).Leaves m
      (fun c m' => Copied before m m' ∧
        ((m'.get? c).isSome ∧ m'.order.idxOf c < m'.order.idxOf before) ∧
          m'.shapeOf c = (m.shapeOf i).asStandard) fun _ _ => False := by
  obtain ⟨hp, hplaced⟩ := h.insert_places hb plain_copy (by simpa using ⟨hi, hlt⟩)
    (inferShape_copy hr hi ht)
  refine hplaced.imp ?_
  rintro _ _ ⟨rfl, rfl⟩
  have hbefore : before ∈ m.order := (h.linked.mem_order before).2 hb
  have hp' : m.order.idxOf before < m.order.length := List.idxOf_lt_length_iff.2 hbefore
  obtain ⟨k, hk, hks⟩ := get?_nextId_place m (m.order.idxOf before) (copyOf m i)
  refine ⟨⟨.place h hr hi ht hp, last?_place hp' _, fun j hj => ?_⟩,
    ⟨Option.isSome_iff_exists.2 ⟨k, hk⟩, ?_⟩, (shapeOf_of_get? hk).trans hks⟩
  · have hmem : j ∈ m.order :=
      List.idxOf_lt_length_iff.1 (Nat.lt_of_lt_of_le hj List.idxOf_le_length)
    rw [idxOf_place h.linked (Nat.le_of_lt hp') hmem, if_neg (Nat.not_le.2 hj)]
    exact Nat.lt_trans hj (lt_idxOf_place h.linked hbefore (Nat.le_refl _) _)
  · rw [idxOf_nextId_place h.linked (Nat.le_of_lt hp')]
    exact lt_idxOf_place h.linked hbefore (Nat.le_refl _) _

/-- A copy at the end. -/
theorem add_copy (ho : m.output? = none) :
    (add .contiguous [i]).Leaves m
      (fun _ m' => Copies m m' ∧ ∃ c, m'.outputs = [c] ∧
        m'.shapeOf c = (m.shapeOf i).asStandard) fun _ _ => False := by
  have hlt : m.order.idxOf i < m.order.length :=
    List.idxOf_lt_length_iff.2 ((h.linked.mem_order i).2 hi)
  obtain ⟨hp, hplaced⟩ := h.insertAt_places plain_copy (Nat.le_refl _) (fun _ => ho)
    (by simpa using ⟨hi, hlt⟩) (inferShape_copy hr hi ht)
  simp only [add, leaves_bind, leaves_get]
  refine hplaced.imp ?_
  rintro _ _ ⟨rfl, rfl⟩
  obtain ⟨k, hk, hks⟩ := get?_nextId_place m m.order.length (copyOf m i)
  refine ⟨.place h hr hi ht hp, m.nextId, ?_, (shapeOf_of_get? hk).trans hks⟩
  exact outputs_of_last (last?_place_end m _) ((core?_place ..).trans (if_pos rfl))

end Copy

/-- Earlier inputs with settled layouts that are otherwise like those they stand in for. -/
structure Mended (before : InstructionId) (m : Module) (is : List InstructionId) (m' : Module)
    (is' : List InstructionId) : Prop where
  live : ∀ j ∈ is', (m'.get? j).isSome ∧ m'.order.idxOf j < m'.order.idxOf before
  settled : ∀ j ∈ is', (m'.shapeOf j).Settled
  same : (is'.map m'.shapeOf).map Shape.asStandard = (is.map m.shapeOf).map Shape.asStandard

theorem Mended.cons {is is' : List InstructionId} {c : InstructionId} (h : Copied before m m')
    (hc : (m'.get? c).isSome ∧ m'.order.idxOf c < m'.order.idxOf before)
    (hs : (m'.shapeOf c).Settled ∧ (m'.shapeOf c).asStandard = (m.shapeOf i).asStandard)
    (h' : Copied before m' m'') (his : ∀ j ∈ is, (m.get? j).isSome)
    (hm : Mended before m' is m'' is') : Mended before m (i :: is) m'' (c :: is') := by
  have hshape := h'.shapeOf_eq hc.1
  refine ⟨List.forall_mem_cons.2 ⟨⟨h'.live hc.1, h'.earlier c hc.2⟩, hm.live⟩,
    List.forall_mem_cons.2 ⟨hshape ▸ hs.1, hm.settled⟩, ?_⟩
  have hkept : is.map m'.shapeOf = is.map m.shapeOf :=
    List.map_congr_left fun j hj => h.shapeOf_eq (his j hj)
  simp only [List.map_cons, hm.same, hkept, hshape, hs.2]

private theorem mendAll_leaves (is : List InstructionId) (h : Accepted m) (hr : Roomy m)
    (hb : (m.get? before).isSome)
    (his : ∀ i ∈ is, (m.get? i).isSome ∧ m.order.idxOf i < m.order.idxOf before) :
    (mendAll before is).Leaves m
      (fun is' m' => Copied before m m' ∧ Mended before m is m' is') fun _ _ => False := by
  induction is generalizing m with
  | nil => exact ⟨.refl before h hr, by simp, by simp, rfl⟩
  | cons i is ih =>
    obtain ⟨⟨hi, hlt⟩, hrest⟩ := List.forall_mem_cons.1 his
    have hnext : ∀ c m₁, Copied before m m₁ ∧
        ((m₁.get? c).isSome ∧ m₁.order.idxOf c < m₁.order.idxOf before) ∧
          (m₁.shapeOf c).Settled ∧ (m₁.shapeOf c).asStandard = (m.shapeOf i).asStandard →
        (mendAll before is).Leaves m₁
          (fun is' m' => Copied before m m' ∧ Mended before m (i :: is) m' (c :: is'))
          fun _ _ => False := by
      rintro c m₁ ⟨h₁, hc, hs⟩
      refine (ih h₁.accepted h₁.roomy (h₁.live hb) fun j hj =>
        ⟨h₁.live (hrest j hj).1, h₁.earlier j (hrest j hj).2⟩).imp ?_
      rintro is' m' ⟨h', hm⟩
      exact ⟨h₁.trans h', .cons h₁ hc hs h' (fun j hj => (hrest j hj).1) hm⟩
    obtain ⟨n, hn⟩ := Option.isSome_iff_exists.1 hi
    rw [mendAll, leaves_bind]
    refine (isMended_leaves hn (hr.of_get? hn).1).imp ?_
    rintro mended m ⟨rfl, hmended⟩
    split <;> simp only [leaves_bind, leaves_pure]
    · exact hnext i m ⟨.refl before h hr, ⟨hi, hlt⟩, hmended.1 ‹_›, rfl⟩
    · rename_i hno
      have ht : (m.shapeOf i).isTuple = false := by
        cases ht : (m.shapeOf i).isTuple with
        | false => rfl
        | true => exact absurd (hmended.2 (.inl ht)) hno
      refine (insert_copy h hr hi ht hb hlt).imp ?_
      rintro c m₁ ⟨h₁, hc, hshape⟩
      refine hnext c m₁ ⟨h₁, hc, ?_, ?_⟩
      · rw [hshape]
        exact Shape.settled_asStandard (hr.shapeOf hi).2
      · rw [hshape, Shape.asStandard_asStandard]

/-- Where an instruction expects row-major inputs, their layouts are settled. -/
def Served (m : Module) (i : InstructionId) : Prop :=
  ∀ n, m.core? i = some n → n.op.requiresStandardInputs = true →
    ∀ j ∈ n.inputs, (m.shapeOf j).Settled

/-- What mending the inputs of instructions keeps. -/
structure Mends (m m' : Module) : Prop where
  upholds : Upholds m m'
  roomy : Roomy m'
  op : ∀ i n, m.core? i = some n → ∃ n', m'.core? i = some n' ∧ n'.op = n.op
  served : ∀ i, m.core? i = none ∨ Served m i → Served m' i
  outputs : m'.outputs = m.outputs

theorem Mends.refl (h : Accepted m) (hr : Roomy m) : Mends m m where
  upholds := h.upholds
  roomy := hr
  op _ n hn := ⟨n, hn, rfl⟩
  served _ hi := hi.elim (fun hno _ hn => (nomatch hno.symm.trans hn)) id
  outputs := rfl

theorem Mends.trans (h : Mends m m') (h' : Mends m' m'') : Mends m m'' where
  upholds := h.upholds.trans h'.upholds
  roomy := h'.roomy
  op i n hn := by
    obtain ⟨n', hn', hop⟩ := h.op i n hn
    obtain ⟨n'', hn'', hop'⟩ := h'.op i n' hn'
    exact ⟨n'', hn'', hop'.trans hop⟩
  served i hi := h'.served i (.inr (h.served i hi))
  outputs := h'.outputs.trans h.outputs

private theorem plain_of_requiresStandardInputs {op : Operator}
    (h : op.requiresStandardInputs = true) : Plain op ∧ op.isBuiltin = false := by
  cases op with
  | convolution _ | reshape _ | dot | reduceMean _ | layernorm _ =>
    exact ⟨⟨rfl, fun _ _ he => (nomatch he), rfl⟩, rfl⟩
  | _ => cases h

/-- Copies serve no instruction worse than before, and expect nothing themselves. -/
theorem Copies.served (h : Copies m m') (hm : Accepted m) (hi : m.core? i = none ∨ Served m i) :
    Served m' i := by
  intro n hn hop j hj
  rcases h.came i n hn with hn | ⟨-, hcopy⟩
  · rw [h.shapeOf_eq (hm.linked.live_input (inputsOf_of_core? hn ▸ hj))]
    exact hi.elim (fun hno => (nomatch hno.symm.trans hn)) fun hs => hs n hn hop j hj
  · rw [hcopy] at hop
    cases hop

private theorem Copied.mends (h : Copied before m m') (hm : Accepted m) : Mends m m' where
  upholds := h.upholds
  roomy := h.roomy
  op i n hn := ⟨n, h.core i n hn, rfl⟩
  served _ hi := h.served hm hi
  outputs := by
    refine outputs_congr h.last fun i hi => ?_
    have hlive := (hm.linked.mem_order i).1 (List.mem_of_getLast? hi)
    rw [← isSome_core?, Option.isSome_iff_exists] at hlive
    obtain ⟨n, hn⟩ := hlive
    rw [hn, h.core i n hn]

/-- An instruction that expects row-major inputs gets inputs with settled layouts. -/
theorem replace_mended {is : List InstructionId} {m₁ : Module} (h : Accepted m)
    (hn : m.core? i = some n) (hop : n.op.requiresStandardInputs = true) (h₁ : Copied i m m₁)
    (his : Mended i m n.inputs m₁ is) :
    (replace i n.op is).Leaves m₁ (fun _ m' => Mends m m' ∧ Served m' i) fun _ _ => False := by
  obtain ⟨hplain, hbuiltin⟩ := plain_of_requiresStandardInputs hop
  have hn₁ := h₁.core i n hn
  obtain ⟨k, hk, rfl⟩ := exists_get?_of_core? hn₁
  have hs : k.core.op.inferShape (is.map m₁.shapeOf) [] = .ok k.core.shape := by
    have hfits := h.fits_of_not_builtin hn hbuiltin
    rw [← Operator.inferShape_map_asStandard hop [] [], his.same]
    exact (Operator.inferShape_map_asStandard hop _ []).2 hfits
  refine (h₁.accepted.replace_leaves hk hplain.output hplain his.live hs).imp ?_
  rintro _ m₂ ⟨hl, ho, -, horder, hcore⟩
  have hup := h₁.accepted.recompute hn₁ hplain.output hplain.output hs hl ho horder hcore
  have hshape : m₂.shapeOf = m₁.shapeOf :=
    (h₁.accepted.linked.standing.recompute hn₁ hl horder hcore).shapeOf_eq h₁.accepted.linked
  have hserved : Served m₂ i := by
    intro n' hn' _ j hj
    rw [hcore, if_pos rfl] at hn'
    cases hn'
    rw [hshape]
    exact his.settled j hj
  refine ⟨(h₁.mends h).trans ⟨hup, fun j n' hn' => ?_, fun j n' hn' => ?_, fun j hj => ?_, ?_⟩,
    hserved⟩
  · rw [hcore] at hn'
    split at hn'
    · cases hn'
      exact h₁.roomy i k.core hn₁
    · exact h₁.roomy j n' hn'
  · rw [hcore]
    split
    · rename_i hj
      subst hj
      cases hn₁.symm.trans hn'
      exact ⟨_, rfl, rfl⟩
    · exact ⟨n', hn', rfl⟩
  · by_cases hji : j = i
    · exact hji ▸ hserved
    · intro n' hn' hop' x hx
      rw [hcore, if_neg hji] at hn'
      rw [hshape]
      exact hj.elim (fun hno => (nomatch hno.symm.trans hn')) fun hs => hs n' hn' hop' x hx
  · have hlast : m₂.last? = m₁.last? := congrArg List.getLast? horder
    by_cases hi : m₁.last? = some i
    · rw [outputs_of_last hi hn₁, outputs_of_last (hlast.trans hi) ((hcore i).trans (if_pos rfl))]
      exact (if_neg (by simp [recomputed, hplain.output])).trans
        (if_neg (by simp [hplain.output])).symm
    · refine outputs_congr hlast fun j hj => ?_
      rw [hcore, if_neg]
      rintro rfl
      exact hi hj

private theorem mendInputs_leaves (h : Accepted m) (hr : Roomy m) (hi : (m.get? i).isSome) :
    (mendInputs i).Leaves m
      (fun changed m' => Mends m m' ∧ Served m' i ∧ (Served m i → changed = false ∧ m' = m))
      fun _ _ => False := by
  obtain ⟨n, hn⟩ := Option.isSome_iff_exists.1 hi
  have hn' := core?_of_get? hn
  have hin := h.inputs_lt hn
  rw [mendInputs, leaves_bind, leaves_get, leaves_liftFault_bind (get_eq_ok_iff.2 hn)]
  split
  · rename_i hop
    refine ⟨.refl h hr, fun k hk hop' => ?_, fun _ => ⟨rfl, rfl⟩⟩
    cases hn'.symm.trans hk
    simp_all [Instruction.core]
  rename_i hop
  have hop : n.core.op.requiresStandardInputs = true := by simpa [Instruction.core] using hop
  rw [leaves_bind]
  refine (allMended_leaves hr n.inputs fun j hj => (hin j hj).1).imp ?_
  rintro mended m ⟨rfl, hmended⟩
  split
  · refine ⟨.refl h hr, fun k hk _ => ?_, fun _ => ⟨rfl, rfl⟩⟩
    cases hn'.symm.trans hk
    exact hmended.1 ‹_›
  · rename_i hno
    simp only [leaves_bind, leaves_pure]
    refine (mendAll_leaves n.inputs h hr hi hin).imp ?_
    rintro is m₁ ⟨h₁, his⟩
    refine (replace_mended (n := n.core) h hn' hop h₁ his).imp ?_
    rintro _ m' ⟨hmends, hserved⟩
    exact ⟨hmends, hserved, fun hs => absurd (hmended.2 (hs n.core hn' hop)) hno⟩

/-- What mending the outputs does: they are settled and otherwise the same, and only the instruction
that lists them may change its shape. -/
structure Delivers (m m' : Module) : Prop where
  accepted : Accepted m'
  roomy : Roomy m'
  kept : ∀ i n, m.get? i = some n →
    ∃ n', m'.get? i = some n' ∧ (n.op.isOutput = false → n'.shape = n.shape)
  served : ∀ i, Served m i → Served m' i
  settled : ∀ i ∈ m'.outputs, (m'.shapeOf i).Settled
  same : (m'.outputs.map m'.shapeOf).map Shape.asStandard =
    (m.outputs.map m.shapeOf).map Shape.asStandard

theorem Delivers.refl (h : Accepted m) (hr : Roomy m)
    (ho : ∀ i ∈ m.outputs, (m.shapeOf i).Settled) : Delivers m m :=
  ⟨h, hr, fun _ n hn => ⟨n, hn, fun _ => rfl⟩, fun _ hi => hi, ho, rfl⟩

private theorem addressableAll_of_forall {ss : List Shape} (h : ∀ s ∈ ss, s.addressable = true) :
    Shape.addressableAll ss = true := by
  induction ss with
  | nil => rfl
  | cons s ss ih =>
    obtain ⟨hs, hss⟩ := List.forall_mem_cons.1 h
    rw [Shape.addressableAll, hs, ih hss]
    rfl

/-- Outputs of roomy shapes can be listed. -/
theorem exists_listed {ss : List Shape} (h : ∀ s ∈ ss, s.Roomy) :
    ∃ t, Operator.output.inferShape ss [] = .ok t ∧ t.Roomy := by
  have htuple : (Shape.tuple ss).Roomy := by
    have haddr : (Shape.tuple ss).addressable = true := by
      simpa [Shape.tuple, Shape.addressable] using addressableAll_of_forall fun s hs => (h s hs).1
    exact ⟨haddr, haddr⟩
  rcases ss with _ | ⟨s, _ | _⟩
  · exact ⟨_, Operator.inferShape_eq_ok.2 ⟨rfl, htuple.1⟩, htuple⟩
  · exact ⟨s, Operator.inferShape_eq_ok.2 ⟨rfl, (h s (by simp)).1⟩, h s (by simp)⟩
  · exact ⟨_, Operator.inferShape_eq_ok.2 ⟨rfl, htuple.1⟩, htuple⟩

/-- Nothing uses the instruction that lists the outputs, so it may list others. -/
theorem replaceOutput_leaves (h : Accepted m) (hi : m.output? = some i) {is : List InstructionId}
    (his : ∀ j ∈ is, (m.get? j).isSome ∧ m.order.idxOf j < m.order.idxOf i) {shape : Shape}
    (hs : Operator.output.inferShape (is.map m.shapeOf) [] = .ok shape) :
    (replaceOutput is).Leaves m
      (fun _ m' => Accepted m' ∧ m'.last? = m.last? ∧ (∀ j, j ≠ i → m'.shapeOf j = m.shapeOf j) ∧
        ∀ j, m'.core? j = if j = i then some { op := .output, inputs := is, shape := shape }
          else m.core? j) fun _ _ => False := by
  obtain ⟨hlast, n, hn, hop⟩ := output?_eq_some.1 hi
  simp only [replaceOutput, leaves_bind, leaves_get, hi]
  have hout : Operator.output.isOutput = n.op.isOutput := hop.symm
  refine (h.replace_rewires hn hout rfl rfl his hs).imp ?_
  rintro _ m' ⟨hl, ho, -, horder, hcore⟩
  have hlast' : m'.last? = m.last? := congrArg List.getLast? horder
  have hshape : ∀ j, j ≠ i → m'.shapeOf j = m.shapeOf j := fun j hj => by
    rw [shapeOf, hcore, if_neg hj, shapeOf]
  have hmap : ∀ js : List InstructionId, i ∉ js → js.map m'.shapeOf = js.map m.shapeOf :=
    fun js hjs => List.map_congr_left fun j hj => hshape j fun he => hjs (he ▸ hj)
  have hself : i ∉ is := fun hmem => Nat.lt_irrefl _ (his i hmem).2
  refine ⟨⟨hl, ho, fun j k hk hout => ?_, fun j k hk => ?_, fun j k hk => ?_⟩, hlast', hshape, hcore⟩
  · rw [hlast']
    have hk' := core?_of_get? hk
    rw [hcore] at hk'
    split at hk'
    · rename_i hj
      rw [hj, hlast]
    · obtain ⟨k', hk', he⟩ := exists_get?_of_core? hk'
      have hop' : k.core.op = k'.core.op := congrArg Instruction.op he
      exact h.output_last j k' hk' ((congrArg Operator.isOutput hop').symm.trans hout)
  · rw [hcore] at hk
    split at hk
    · cases hk
      refine .inr ?_
      change Operator.output.inferShape (is.map m'.shapeOf) [] = .ok shape
      rw [hmap is hself, hs]
    · rename_i hj
      refine (h.passes j k hk).imp id fun hfits => ?_
      have hnot : i ∉ k.inputs := fun hmem =>
        h.ordered.last_notMem_inputsOf h.linked hlast (j := j) (inputsOf_of_core? hk ▸ hmem)
      rw [ShapeFits, hmap k.inputs hnot]
      exact hfits
  · rw [hcore] at hk
    split at hk
    · cases hk
      refine ⟨fun _ he => ?_, fun _ _ he => ?_⟩ <;> cases he
    · exact h.own j k hk

/-- Other outputs are listed, with settled layouts. -/
theorem relist_delivers {is : List InstructionId} {m₁ : Module} (h : Accepted m)
    (hi : m.output? = some i) (hn : m.get? i = some n) (h₁ : Copied i m m₁)
    (his : Mended i m n.inputs m₁ is) :
    (replaceOutput is).Leaves m₁ (fun _ => Delivers m) fun _ _ => False := by
  obtain ⟨hlast, k, hk, hop⟩ := output?_eq_some.1 hi
  cases hn.symm.trans hk
  obtain ⟨k, hk₁, he⟩ := exists_get?_of_core? (h₁.core i n.core (core?_of_get? hn))
  have hop₁ : k.op = n.op := (congrArg Instruction.op he).symm
  have hlast₁ : m₁.last? = some i := h₁.last.trans hlast
  have hi₁ : m₁.output? = some i := output?_eq_some.2 ⟨hlast₁, k, hk₁, hop₁ ▸ hop⟩
  have hroomy : ∀ s ∈ is.map m₁.shapeOf, s.Roomy := by
    intro s hs
    obtain ⟨j, hj, rfl⟩ := List.mem_map.1 hs
    exact h₁.roomy.shapeOf (his.live j hj).1
  obtain ⟨shape, hs, hshape⟩ := exists_listed hroomy
  refine (replaceOutput_leaves h₁.accepted hi₁ his.live hs).imp ?_
  rintro _ m₂ ⟨h₂, hlast₂, hshapes, hcore⟩
  have hself : ∀ j ∈ is, m₂.shapeOf j = m₁.shapeOf j := fun j hj => hshapes j fun he =>
    Nat.lt_irrefl _ (he ▸ (his.live j hj).2)
  have houts : m₂.outputs = is :=
    outputs_of_last (hlast₂.trans hlast₁) ((hcore i).trans (if_pos rfl))
  refine ⟨h₂, fun j n' hn' => ?_, fun j n' hn' => ?_, fun j hj n' hn' hop' x hx => ?_,
    fun j hj => ?_, ?_⟩
  · rw [hcore] at hn'
    split at hn'
    · cases hn'
      exact hshape
    · exact h₁.roomy j n' hn'
  · by_cases hji : j = i
    · subst hji
      cases hn.symm.trans hn'
      obtain ⟨k', hk', -⟩ := exists_get?_of_core? ((hcore j).trans (if_pos rfl))
      exact ⟨k', hk', fun hno => (nomatch hno.symm.trans hop)⟩
    · have hkept := (hcore j).trans (if_neg hji)
      rw [h₁.core j _ (core?_of_get? hn')] at hkept
      obtain ⟨k', hk', he'⟩ := exists_get?_of_core? hkept
      have hs' := congrArg Instruction.shape he'
      exact ⟨k', hk', fun _ => hs'.symm⟩
  · rw [hcore] at hn'
    split at hn'
    · cases hn'
      cases hop'
    · have hxi : x ≠ i := by
        rintro rfl
        exact h₁.accepted.ordered.last_notMem_inputsOf h₁.accepted.linked hlast₁ (j := j)
          (inputsOf_of_core? hn' ▸ hx)
      rw [hshapes x hxi]
      exact h₁.served h (.inr hj) n' hn' hop' x hx
  · rw [houts] at hj
    rw [hself j hj]
    exact his.settled j hj
  · have hbefore : m.outputs = n.inputs := by rw [outputs, hi, ← inputsOf_of_get? hn]
    rw [houts, List.map_congr_left hself, his.same, hbefore]

private theorem mendOutputs_leaves (h : Accepted m) (hr : Roomy m) :
    mendOutputs.Leaves m
      (fun changed m' => Delivers m m' ∧
        ((∀ i ∈ m.outputs, (m.shapeOf i).Settled) → changed = false)) fun _ _ => False := by
  rw [mendOutputs, leaves_bind, leaves_get]
  split
  · rename_i i hi
    obtain ⟨-, n, hn, -⟩ := output?_eq_some.1 hi
    have houts : m.outputs = n.inputs := by rw [outputs, hi, ← inputsOf_of_get? hn]
    have hin := h.inputs_lt hn
    rw [inputsOf_of_get? hn, houts, leaves_bind]
    refine (allMended_leaves hr n.inputs fun j hj => (hin j hj).1).imp ?_
    rintro mended m ⟨rfl, hmended⟩
    split
    · exact ⟨.refl h hr (houts ▸ hmended.1 ‹_›), fun _ => rfl⟩
    · rename_i hno
      simp only [leaves_bind, leaves_pure]
      refine (mendAll_leaves n.inputs h hr (by simp [hn]) hin).imp ?_
      rintro is m₁ ⟨h₁, his⟩
      refine (relist_delivers h hi hn h₁ his).imp fun _ m' hm' => ⟨hm', fun hs => ?_⟩
      exact absurd (hmended.2 hs) hno
  · rename_i ho
    split
    · rename_i last hlast
      have houts : m.outputs = [last] := by simp [outputs, ho, hlast]
      have hlive := (h.linked.mem_order last).1 (List.mem_of_getLast? hlast)
      obtain ⟨n, hn⟩ := Option.isSome_iff_exists.1 hlive
      rw [houts, leaves_bind]
      refine (isMended_leaves hn (hr.of_get? hn).1).imp ?_
      rintro mended m ⟨rfl, hmended⟩
      split
      · exact ⟨.refl h hr (by simpa [houts] using hmended.1 ‹_›), fun _ => rfl⟩
      · rename_i hno
        have ht : (m.shapeOf last).isTuple = false := by
          cases ht : (m.shapeOf last).isTuple with
          | false => rfl
          | true => exact absurd (hmended.2 (.inl ht)) hno
        simp only [leaves_bind, leaves_pure]
        refine (add_copy h hr hlive ht ho).imp ?_
        rintro _ m' ⟨h', c, hc, hshape⟩
        refine ⟨⟨h'.accepted, h'.roomy, fun i k hk => ?_, fun i hi => h'.served h (.inr hi), ?_, ?_⟩,
          fun hs => absurd (hmended.2 (hs last (by simp))) hno⟩
        · obtain ⟨k', hk', hs⟩ := h'.upholds.kept i k hk
          exact ⟨k', hk', fun _ => hs⟩
        · rw [hc, List.forall_mem_singleton, hshape]
          exact Shape.settled_asStandard (hr.shapeOf hlive).2
        · rw [hc, houts]
          simp [hshape]
    · rename_i hlast
      have houts : m.outputs = [] := by simp [outputs, ho, hlast]
      exact ⟨.refl h hr (by simp [houts]), fun _ => rfl⟩

end Pass.Contiguous

namespace Pass
open TensorGraph.Action TensorGraph.Module Contiguous
variable {m : Module}

/-- Where nothing is to be mended, a run does nothing and says so. -/
theorem contiguous_idle (h : Accepted m) (hr : Roomy m) (hs : ∀ i, Served m i)
    (ho : ∀ i ∈ m.outputs, (m.shapeOf i).Settled) :
    contiguous.run.Leaves m (fun changed _ => changed = false) fun _ _ => False := by
  simp only [contiguous, leaves_bind, leaves_get, leaves_pure]
  refine (leaves_anyOf_idle m.order fun i hi => ?_).imp ?_
  · exact (mendInputs_leaves h hr ((h.linked.mem_order i).1 hi)).imp fun _ _ hm => hm.2.2 (hs i)
  · rintro _ m ⟨rfl, rfl⟩
    exact (mendOutputs_leaves h hr).imp fun changed _ hm => by simp [hm.2 ho]

/-- One run serves every instruction and delivers settled outputs. -/
theorem contiguous_leaves (h : Accepted m) (hr : Roomy m) :
    contiguous.run.Leaves m
      (fun _ m' => ∃ m₁, Mends m m₁ ∧ (∀ i, Served m₁ i) ∧ Delivers m₁ m') fun _ _ => False := by
  simp only [contiguous, leaves_bind, leaves_get, leaves_pure]
  have hinputs : (anyOf mendInputs m.order).Leaves m
      (fun _ m' => Mends m m' ∧ ∀ i ∈ m.order, Served m' i) fun _ _ => False := by
    refine leaves_anyOf_split (P := fun done m' => Mends m m' ∧ ∀ i ∈ done, Served m' i) m.order ?_
      m ⟨.refl h hr, by simp⟩
    rintro done i rest hsplit m' ⟨hm', hserved⟩
    have hlive : (m.get? i).isSome := (h.linked.mem_order i).1 (by simp [hsplit])
    obtain ⟨n, hn⟩ := Option.isSome_iff_exists.1 hlive
    obtain ⟨n', hn', -⟩ := hm'.upholds.kept i n hn
    refine (mendInputs_leaves hm'.upholds.accepted hm'.roomy (by simp [hn'])).imp ?_
    rintro _ m'' ⟨hm'', hi, -⟩
    refine ⟨hm'.trans hm'', fun j hj => ?_⟩
    rcases List.mem_append.1 hj with hj | hj
    · exact hm''.served j (.inr (hserved j hj))
    · rwa [List.mem_singleton.1 hj]
  refine hinputs.imp ?_
  rintro _ m₁ ⟨hm₁, hserved⟩
  have hall : ∀ i, Served m₁ i := fun i => by
    cases hi : m.core? i with
    | none => exact hm₁.served i (.inl hi)
    | some n => exact hserved i ((h.linked.mem_order i).2 (live_of_core? hi))
  exact (mendOutputs_leaves hm₁.upholds.accepted hm₁.roomy).imp fun _ m' hm' =>
    ⟨m₁, hm₁, hall, hm'.1⟩

/-- What a run leaves behind. -/
structure Settles (m m' : Module) : Prop where
  inputs : ∀ i n, m'.get? i = some n → n.op.requiresStandardInputs = true →
    ∀ j ∈ n.inputs, ∃ k, m'.get? j = some k ∧ k.shape.Settled
  outputs : ∀ s ∈ m'.outputShapes, s.Settled
  kept : ∀ i n, m.get? i = some n →
    ∃ n', m'.get? i = some n' ∧ (n.op.isOutput = false → n'.shape = n.shape)
  same : List.Forall₂ (fun s s' => s'.elementType = s.elementType ∧ s'.lens = s.lens)
    m.outputShapes m'.outputShapes
  valid : m'.validate = .ok ()

private theorem same_of_asStandard {ss ss' : List Shape}
    (h : ss'.map Shape.asStandard = ss.map Shape.asStandard) :
    List.Forall₂ (fun s s' => s'.elementType = s.elementType ∧ s'.lens = s.lens) ss ss' := by
  have heq : List.Forall₂ (· = ·) (ss.map Shape.asStandard) (ss'.map Shape.asStandard) := by
    rw [h]
    exact List.forall₂_refl _
  rw [List.forall₂_map_left_iff, List.forall₂_map_right_iff] at heq
  refine heq.imp fun s s' hs => ⟨?_, ?_⟩
  · rw [← Shape.elementType_asStandard, ← hs, Shape.elementType_asStandard]
  · rw [← Shape.lens_asStandard, ← hs, Shape.lens_asStandard]

private theorem settles_of_delivers {m₁ m' : Module} (h : Accepted m) (hm : Mends m m₁)
    (hs : ∀ i, Served m₁ i) (hd : Delivers m₁ m') : Settles m m' where
  inputs i n hn hop j hj := by
    obtain ⟨k, hk, -⟩ := hd.accepted.input_lt hn hj
    have hsettled := hd.served i (hs i) n.core (core?_of_get? hn) hop j hj
    rw [shapeOf_of_get? hk] at hsettled
    exact ⟨k, hk, hsettled⟩
  outputs s hs' := by
    rw [outputShapes_eq hd.accepted.linked] at hs'
    obtain ⟨i, hi, rfl⟩ := List.mem_map.1 hs'
    exact hd.settled i hi
  kept i n hn := by
    obtain ⟨n₁, hn₁, hshape⟩ := hm.upholds.kept i n hn
    obtain ⟨k, hk, hop⟩ := hm.op i n.core (core?_of_get? hn)
    cases (core?_of_get? hn₁).symm.trans hk
    obtain ⟨n', hn', hshape'⟩ := hd.kept i n₁ hn₁
    refine ⟨n', hn', fun hno => (hshape' ?_).trans hshape⟩
    rw [show n₁.op = n.op from hop, hno]
  same := by
    rw [outputShapes_eq h.linked, outputShapes_eq hd.accepted.linked]
    have hkept : m₁.outputs.map m₁.shapeOf = m.outputs.map m.shapeOf := by
      rw [hm.outputs]
      refine List.map_congr_left fun i hi => ?_
      obtain ⟨n, hn⟩ := Option.isSome_iff_exists.1
        ((h.linked.mem_order i).1 (h.linked.outputs_subset hi))
      obtain ⟨n₁, hn₁, hshape⟩ := hm.upholds.kept i n hn
      rw [shapeOf_of_get? hn₁, shapeOf_of_get? hn, hshape]
    exact same_of_asStandard (hkept ▸ hd.same)
  valid := hd.accepted.validate

/-- Constants that can be made have room where all row-major shapes have it. -/
theorem roomy_of_built (hb : Built m)
    (hc : ∀ i ∈ m.order, ∀ n ∈ m.get? i, ∀ value ∈ n.literal?, value.Made)
    (hs : ∀ i n, m.get? i = some n → n.shape.asStandard.addressable = true) : Roomy m := by
  intro i n hn
  obtain ⟨k, hk, rfl⟩ := exists_get?_of_core? hn
  have hstandard := hs i k hk
  refine ⟨?_, hstandard⟩
  rcases hb.sourced i k.core hn with haddr | ⟨value, hop, hshape⟩
  · exact haddr
  · have hop : k.op = .literal value := hop
    have hshape : k.shape = value.shape := hshape
    have hmade := hc i ((hb.linked.mem_order i).2 (by simp [hk])) k hk value
      (by simp [Instruction.literal?, hop])
    rw [hshape, hmade.asStandard] at hstandard
    exact hshape ▸ hstandard

/-- On every module that edits build, that passes its check and in which every row-major shape is
addressable, one run settles the inputs that are expected to be row-major and the outputs. It changes
the shape of no instruction but the one that lists the outputs, and a second run has nothing to do. -/
theorem contiguous_settles (hb : Built m) (hv : m.validate = .ok ())
    (hc : ∀ i ∈ m.order, ∀ n ∈ m.get? i, ∀ value ∈ n.literal?, value.Made)
    (hs : ∀ i n, m.get? i = some n → n.shape.asStandard.addressable = true) :
    (∃ changed, (contiguous.run m).result = .ok changed) ∧
      Settles m (contiguous.run m).state ∧
        (contiguous.run (contiguous.run m).state).result = .ok false := by
  have h := hb.accepted hv
  obtain ⟨changed, hchanged, m₁, hm, hserved, hd⟩ :=
    (contiguous_leaves h (roomy_of_built hb hc hs)).exists_ok
  obtain ⟨again, hagain, rfl⟩ := (contiguous_idle hd.accepted hd.roomy
    (fun i => hd.served i (hserved i)) hd.settled).exists_ok
  exact ⟨⟨changed, hchanged⟩, settles_of_delivers h hm hserved hd, hagain⟩

/-- A product of a transposed input, which is an output as well. -/
private def transposedProduct : Module :=
  Mutation.applyAll (Module.empty "main")
    [.addParameter "x" (.packedOf .float [2, 3]),
      .addLiteral ⟨.packedOf .float [2, 1], #[3, 4], by decide⟩,
      .add (.transpose [1, 0]) [⟨0⟩], .add .dot [⟨2⟩, ⟨1⟩], .addOutput [⟨2⟩, ⟨3⟩]]

theorem contiguous_settles_product :
    Built transposedProduct ∧ transposedProduct.validate = .ok () ∧
      (contiguous.run transposedProduct).result = .ok true ∧
        Settles transposedProduct (contiguous.run transposedProduct).state ∧
          (contiguous.run (contiguous.run transposedProduct).state).result = .ok false := by
  have hb : Built transposedProduct := (Built.empty "main").applyAll _
  have hv : transposedProduct.validate = .ok () := by decide +kernel
  have hroom : ∀ i ∈ transposedProduct.order, ∀ n ∈ transposedProduct.get? i,
      n.shape.asStandard.addressable = true := by decide +kernel
  obtain ⟨-, hsettles, hagain⟩ := contiguous_settles hb hv (by decide +kernel) fun i n hn =>
    hroom i ((hb.linked.mem_order i).2 (by simp [hn])) n hn
  refine ⟨hb, hv, ?_, hsettles, hagain⟩
  unfold contiguous mendInputs mendOutputs replaceOutput replace checkReplace
  simp only [dependsOn_eq_getD 16]
  decide +kernel

end Pass
end TensorGraph
