import TensorGraph.Proofs.Pass.Computes
import TensorGraph.Proofs.Pass.Contiguity

/-! Row-major copies do not change what a module computes, as long as the instructions that get them
refer to no sub-modules. -/
namespace TensorGraph

private theorem Pass.Contiguous.hasStandardLayout_of_inferShape {op : Operator} {ins : List Shape}
    {mods : List (List Shape)} {s : Shape} (hop : op.requiresStandardInputs = true)
    (hs : op.inferShape ins mods = .ok s) : hasStandardLayout s = .ok true := by
  have ha := (Operator.inferShape_eq_ok.1 hs).2
  have hstd := Operator.asStandard_of_inferShape hop hs
  obtain ⟨b, hb, hiff⟩ := hasStandardLayout_spec ha
  have hsettled : s.Settled := by
    rw [← hstd] at ha ⊢
    exact Shape.settled_asStandard ha
  rw [hb, hiff.2 hsettled]

private theorem Operator.isOutput_iff {op : Operator} : op.isOutput = true ↔ op = .output := by
  cases op <;> simp [Operator.isOutput]

namespace Module
open Pass.Contiguous
variable {V : Type} {I : Interpretation V} {params : String → V}
variable {m m' m'' : Module} {v v' v'' : InstructionId → V} {vs : List V}
variable {before i x : InstructionId} {n : Instruction}

/-- An instruction that expects row-major inputs and has one of another layout refers to no
sub-modules. -/
def MendedPlain (m : Module) : Prop :=
  ∀ i ∈ m.order, ∀ n ∈ m.get? i, n.op.requiresStandardInputs →
    (∃ j ∈ n.inputs, hasStandardLayout (m.shapeOf j) = .ok false) → n.moduleArgs = []

instance (m : Module) : Decidable (MendedPlain m) :=
  inferInstanceAs (Decidable (∀ i ∈ m.order, ∀ n ∈ m.get? i, _ → _ → _))

theorem MendedPlain.moduleArgs (hm : MendedPlain m) (hl : Linked m) (hn : m.get? i = some n)
    (h : n.op.requiresStandardInputs)
    (hj : ∃ j ∈ n.inputs, hasStandardLayout (m.shapeOf j) = .ok false) : n.moduleArgs = [] :=
  hm i ((hl.mem_order i).2 (by simp [hn])) n hn h hj

private theorem mendedPlain_iff (hl : Linked m) : MendedPlain m ↔
    ∀ i n, m.core? i = some n → n.op.requiresStandardInputs →
      (∃ j ∈ n.inputs, hasStandardLayout (m.shapeOf j) = .ok false) → n.moduleArgs = [] := by
  constructor
  · intro h i n hn
    obtain ⟨k, hk, rfl⟩ := Option.map_eq_some_iff.1 hn
    exact fun hs hj => h.moduleArgs (n := k) hl hk hs hj
  · exact fun h i _ n hn => h i n.core (core?_of_get? hn)

private theorem isValuation_place (hv : IsValuation I params m v) (hl : Linked m) (p : Nat)
    (hi : ∀ j ∈ n.inputs, j ∈ m.order) :
    IsValuation I params (m.place p n)
      (Function.update v m.nextId (valueOf I params n (n.inputs.map v))) := by
  have hmap : ∀ js : List InstructionId, (∀ j ∈ js, j ∈ m.order) →
      js.map (Function.update v m.nextId (valueOf I params n (n.inputs.map v))) = js.map v :=
    fun js hjs => List.map_congr_left fun j hj => by
      refine Function.update_of_ne ?_ _ _
      rintro rfl
      exact nextId_notMem_order hl (hjs _ hj)
  intro j k hk
  rw [core?_place] at hk
  split at hk
  · rename_i hj
    cases hk
    rw [hj, Function.update_self]
    exact congrArg (valueOf I params n) (hmap n.inputs hi).symm
  · rename_i hj
    have hin : k.inputs = m.inputsOf j := by simp [inputsOf_eq_core, hk]
    rw [Function.update_of_ne hj, hmap k.inputs fun x hx => hl.input_mem_order (hin ▸ hx)]
    exact hv j k hk

private theorem valueOf_contiguous (h : n.op = .contiguous) (x : V) : valueOf I params n [x] = x := by
  simp only [valueOf, Instruction.parameterName?, Instruction.parameter?, h]
  exact I.apply_contiguous _ x

private theorem shapeOf_congr {j : InstructionId} (h : m'.core? j = m.core? j) :
    m'.shapeOf j = m.shapeOf j := by
  rw [shapeOf, h, shapeOf]

private theorem mendedPlain_place (hm : MendedPlain m) (hl : Linked m) {p : Nat}
    (hl' : Linked (m.place p n)) (h : n.op.requiresStandardInputs = false) :
    MendedPlain (m.place p n) := by
  rw [mendedPlain_iff hl] at hm
  rw [mendedPlain_iff hl']
  intro j k hk hs
  rw [core?_place] at hk
  split at hk
  · cases hk
    exact absurd hs (by simp [Instruction.core, h])
  · rintro ⟨x, hx, hlayout⟩
    have hne : x ≠ m.nextId := by
      rintro rfl
      exact nextId_notMem_order hl (hl.input_mem_order (inputsOf_of_core? hk ▸ hx))
    rw [shapeOf_congr ((core?_place ..).trans (if_neg hne))] at hlayout
    exact hm j k hk hs ⟨x, hx, hlayout⟩

/-- How a module grows by instructions that are added before one of its own. -/
structure Extends (before : InstructionId) (m : Module) (v : InstructionId → V) (m' : Module)
    (v' : InstructionId → V) : Prop where
  core : ∀ j n, m.core? j = some n → m'.core? j = some n
  last : m'.last? = m.last?
  value : ∀ j ∈ m.order, v' j = v j
  earlier : ∀ j, m.order.idxOf j < m.order.idxOf before →
    m'.order.idxOf j < m'.order.idxOf before

theorem Extends.refl (before : InstructionId) (m : Module) (v : InstructionId → V) :
    Extends before m v m v :=
  ⟨fun _ _ h => h, rfl, fun _ _ => rfl, fun _ h => h⟩

theorem Extends.mem_order (h : Extends before m v m' v') (hl : Linked m) (hl' : Linked m')
    (hi : i ∈ m.order) : i ∈ m'.order := by
  rw [hl.mem_order, ← isSome_core?, Option.isSome_iff_exists] at hi
  obtain ⟨n, hn⟩ := hi
  rw [hl'.mem_order, ← isSome_core?, h.core i n hn]
  rfl

theorem Extends.trans (h : Extends before m v m' v') (h' : Extends before m' v' m'' v'')
    (hl : Linked m) (hl' : Linked m') : Extends before m v m'' v'' where
  core j n hj := h'.core j n (h.core j n hj)
  last := h'.last.trans h.last
  value j hj := (h'.value j (h.mem_order hl hl' hj)).trans (h.value j hj)
  earlier j hj := h'.earlier j (h.earlier j hj)

private theorem mem_of_idxOf_lt {l : List InstructionId} {i j : InstructionId}
    (h : l.idxOf i < l.idxOf j) : i ∈ l :=
  List.idxOf_lt_length_iff.1 (Nat.lt_of_lt_of_le h List.idxOf_le_length)

/-- A row-major copy before an instruction. -/
theorem Computes.copy (h : Computes I params m v vs) (hm : MendedPlain m)
    (hx : m.order.idxOf x < m.order.idxOf before) :
    (insert before .contiguous [x]).Leaves m
      (fun c m' => ∃ v', Computes I params m' v' vs ∧ MendedPlain m' ∧ Extends before m v m' v' ∧
        v' c = v x ∧ m'.order.idxOf c < m'.order.idxOf before) fun _ _ => True := by
  simp only [insert, insertWithModules, Action.leaves_bind, Action.leaves_get, Action.leaves_lift,
    requirePosition_eq_ok]
  refine ⟨fun p hp => ?_, fun _ _ => trivial⟩
  refine (insertAt_leaves p .contiguous [x] [] [] m).mono ?_ fun _ _ _ => trivial
  rintro _ _ ⟨rfl, shape, hs, rfl⟩
  obtain ⟨front, back, horder⟩ := List.append_of_mem (mem_order_of_position? hp)
  have hnot : before ∉ front := by
    have hn := h.linked.nodup
    rw [horder, List.nodup_append] at hn
    exact fun hb => hn.2.2 before hb before (List.mem_cons_self ..) rfl
  have hlen : p = front.length := by
    rw [position?, horder, idxOf?_append_cons hnot] at hp
    exact (Option.some.inj hp).symm
  have hlt : p < m.order.length := by simp [horder, hlen]
  have hfront : ∀ j, m.order.idxOf j < m.order.idxOf before ↔ j ∈ front := fun j =>
    idxOf_lt_of_split horder h.linked.nodup
  have hxin : ∀ j ∈ [x], j ∈ m.order := fun j hj => by
    rw [List.mem_singleton.1 hj]
    exact mem_of_idxOf_lt hx
  have htake : ∀ j ∈ [x], j ∈ m.order.take p := fun j hj => by
    rw [List.mem_singleton.1 hj, horder, hlen, List.take_left]
    exact (hfront x).1 hx
  have hl' := linked_place (n := { op := .contiguous, inputs := [x], shape }) h.linked
    (Nat.le_of_lt hlt) rfl hxin
  have horder' : (m.place p { op := .contiguous, inputs := [x], shape }).order =
      (front ++ [m.nextId]) ++ before :: back := by
    rw [order_place_eq (Nat.le_of_lt hlt), horder, hlen, List.take_left, List.drop_left]
    simp
  have hnew : ∀ j ∈ m.order, j ≠ m.nextId := by
    rintro j hj rfl
    exact nextId_notMem_order h.linked hj
  have hout : (m.place p { op := .contiguous, inputs := [x], shape }).outputs = m.outputs :=
    outputs_congr (last?_place hlt _) fun i hi => by
      rw [core?_place, if_neg (hnew i (List.mem_of_getLast? hi))]
  refine ⟨_, ⟨hl', ordered_place h.linked h.ordered (Nat.le_of_lt hlt) htake,
    isValuation_place h.valuation h.linked p hxin, ?_⟩, mendedPlain_place hm h.linked hl' rfl,
    ⟨fun j k hk => ?_, last?_place hlt _, fun j hj => Function.update_of_ne (hnew j hj) _ _,
      fun j hj => ?_⟩, ?_, ?_⟩
  · rw [hout, ← h.outputs]
    exact List.map_congr_left fun j hj =>
      Function.update_of_ne (hnew j (h.linked.outputs_subset hj)) _ _
  · rw [core?_place, if_neg, hk]
    rintro rfl
    simp [core?, get?_nextId] at hk
  · rw [idxOf_lt_of_split horder' hl'.nodup]
    exact List.mem_append_left _ ((hfront j).1 hj)
  · rw [Function.update_self]
    exact valueOf_contiguous rfl (v x)
  · rw [idxOf_lt_of_split horder' hl'.nodup]
    simp

/-- A row-major copy of the last instruction at the end. -/
theorem Computes.append_copy (h : Computes I params m v vs) (ho : m.output? = none)
    (hlast : m.last? = some i) :
    (add .contiguous [i]).Leaves m (fun _ m' => ∃ v', Computes I params m' v' vs) fun _ _ => True := by
  simp only [add, Action.leaves_bind, Action.leaves_get]
  refine (insertAt_leaves _ .contiguous [i] [] [] m).mono ?_ fun _ _ _ => trivial
  rintro _ _ ⟨rfl, shape, hs, rfl⟩
  have hin : ∀ j ∈ [i], j ∈ m.order := fun j hj => by
    rw [List.mem_singleton.1 hj]
    exact List.mem_of_getLast? hlast
  have hout : m.outputs = [i] := by simp [Module.outputs, ho, hlast]
  have hlast' : (m.place m.order.length { op := .contiguous, inputs := [i], shape }).last? =
      some m.nextId := by
    simp [last?]
  have hl' := linked_place (n := { op := .contiguous, inputs := [i], shape }) h.linked
    (Nat.le_refl _) rfl hin
  refine ⟨_, ⟨hl', ordered_place h.linked h.ordered (Nat.le_refl _) (by simpa using hin),
    isValuation_place h.valuation h.linked _ hin, ?_⟩⟩
  rw [outputs_of_last hlast' ((core?_place ..).trans (if_pos rfl)), ← h.outputs, hout]
  change [Function.update v m.nextId _ m.nextId] = [v i]
  rw [Function.update_self]
  exact congrArg (fun x => [x]) (valueOf_contiguous rfl (v i))

private theorem core?_relink_of_get? (hn : m.get? i = some n) (after : Instruction)
    (j : InstructionId) :
    (m.relink i after).core? j = if j = i then some after.core else m.core? j := by
  rw [core?_relink]
  split
  · rename_i hj
    rw [hj, core?_of_get? hn]
    rfl
  · rfl

/-- An instruction with other inputs of the same values keeps its own, unless it lists the outputs:
nothing uses the value of that one. -/
private theorem isValuation_relink (hv : IsValuation I params m v) (hl : Linked m) (ho : Ordered m)
    (hn : m.get? i = some n) {after : Instruction} (hop : after.op = n.op)
    (hin : after.inputs.map v = n.inputs.map v) (hself : i ∉ after.inputs)
    (h : after.moduleArgs = n.moduleArgs ∨ m.last? = some i) :
    ∃ v', IsValuation I params (m.relink i after) v' ∧
      ∀ j, j ≠ i ∨ after.moduleArgs = n.moduleArgs → v' j = v j := by
  by_cases hargs : after.moduleArgs = n.moduleArgs
  · refine ⟨v, fun j k hk => ?_, fun _ _ => rfl⟩
    rw [core?_relink_of_get? hn] at hk
    split at hk
    · rename_i hj
      cases hk
      have hvi : v i = valueOf I params n (n.inputs.map v) := hv i n.core (core?_of_get? hn)
      rw [hj, hvi, ← hin]
      exact (valueOf_congr hop hargs _).symm
    · exact hv j k hk
  · refine ⟨Function.update v i (valueOf I params after (after.inputs.map v)), fun j k hk => ?_,
      fun j hj => Function.update_of_ne (hj.resolve_right hargs) _ _⟩
    have hmap : ∀ js : List InstructionId, i ∉ js →
        js.map (Function.update v i (valueOf I params after (after.inputs.map v))) = js.map v :=
      fun js hjs => List.map_congr_left fun x hx => by
        refine Function.update_of_ne ?_ _ _
        rintro rfl
        exact hjs hx
    rw [core?_relink_of_get? hn] at hk
    split at hk
    · rename_i hj
      cases hk
      rw [hj, Function.update_self]
      exact congrArg (valueOf I params after) (hmap after.inputs hself).symm
    · rename_i hj
      have hki : i ∉ k.inputs := fun hi => by
        refine ho.last_notMem_inputsOf hl (h.resolve_left hargs) (j := j) ?_
        simpa [inputsOf_eq_core, hk] using hi
      rw [Function.update_of_ne hj, hmap k.inputs hki]
      exact hv j k hk

/-- Other inputs of the same values. -/
theorem Computes.replace_inputs (h : Computes I params m v vs) (hm : MendedPlain m)
    (hn : m.get? i = some n) (hplain : n.moduleArgs = [] ∨ m.output? = some i)
    {inputs : List InstructionId} (hlt : ∀ j ∈ inputs, m.order.idxOf j < m.order.idxOf i)
    (hin : inputs.map v = n.inputs.map v) :
    (replace i n.op inputs).Leaves m
      (fun _ m' => ∃ v', Computes I params m' v' vs ∧
        (n.op.requiresStandardInputs → n.moduleArgs = [] → MendedPlain m')) fun _ _ => True := by
  refine (replace_leaves i n.op inputs m).mono ?_ fun _ _ _ => trivial
  rintro _ _ ⟨-, before, after, hr, rfl⟩
  cases Option.some.inj (hr.get.symm.trans hn)
  have hin' : after.inputs.map v = n.inputs.map v := by rw [hr.inputs_eq, hin]
  have hargs : n.moduleArgs = [] → after.moduleArgs = [] := fun he => by
    rw [hr.eq]
    change (if n.op.usesModules then n.moduleArgs else []) = []
    rw [he, ite_self]
  have hself : i ∉ after.inputs := fun hi => Nat.lt_irrefl _ (hlt i (hr.inputs_eq ▸ hi))
  have hc : Change m (m.rewire i after) := .rewire hr
  have hl' := hc.linked h.linked
  have ho' := hc.ordered h.linked h.ordered
  rw [rewire_of_earlier h.linked hr.old_live (hr.inputs_eq ▸ hr.live) (hr.inputs_eq ▸ hlt)] at hl' ho' ⊢
  have hsame : n.moduleArgs = [] → after.moduleArgs = n.moduleArgs := fun he => by
    rw [he, hargs he]
  obtain ⟨v', hv', hagree⟩ := isValuation_relink h.valuation h.linked h.ordered hn hr.op_eq hin' hself
    (hplain.imp hsame fun ho => (output?_eq_some.1 ho).1)
  have hlast : (m.relink i after).last? = m.last? :=
    congrArg List.getLast? (sameFrame_relink m i after).order
  have hcore := core?_relink_of_get? hn after
  refine ⟨v', ⟨hl', ho', hv', ?_⟩, fun hop he => (mendedPlain_iff hl').2 fun j k hk hs => ?_⟩
  · rw [← h.outputs]
    by_cases ho : m.output? = some i
    · obtain ⟨hi, k, hk, hko⟩ := output?_eq_some.1 ho
      cases Option.some.inj (hk.symm.trans hn)
      rw [outputs_of_last hi (core?_of_get? hn), outputs_of_last (hlast.trans hi)
        ((hcore i).trans (if_pos rfl)), show after.core.op = n.core.op from hr.op_eq,
        if_pos (show n.core.op.isOutput = true from hko), if_pos (show n.core.op.isOutput = true from hko)]
      refine Eq.trans (List.map_congr_left fun j hj => hagree j (.inl ?_)) hin'
      rintro rfl
      exact hself hj
    · have hv : ∀ j, v' j = v j := fun j => hagree j (.inr (hsame (hplain.resolve_right ho)))
      rw [List.map_congr_left fun j _ => hv j]
      by_cases hi : m.last? = some i
      · have hno : ¬ n.core.op.isOutput := fun hno => ho (output?_eq_some.2 ⟨hi, n, hn, hno⟩)
        rw [outputs_of_last hi (core?_of_get? hn), outputs_of_last (hlast.trans hi)
          ((hcore i).trans (if_pos rfl)), show after.core.op = n.core.op from hr.op_eq,
          if_neg hno, if_neg hno]
      · rw [outputs_congr hlast fun j hj => ?_]
        rw [hcore, if_neg]
        rintro rfl
        exact hi hj
  · rw [hcore] at hk
    split at hk
    · cases hk
      exact fun _ => hargs he
    · rintro ⟨x, hx, hlayout⟩
      refine (mendedPlain_iff h.linked).1 hm j k hk hs ⟨x, hx, ?_⟩
      by_cases hxi : x = i
      · rw [hxi, shapeOf_of_core? ((hcore i).trans (if_pos rfl))] at hlayout
        cases hlayout.symm.trans (hasStandardLayout_of_inferShape hop hr.shape)
      · rwa [shapeOf_congr ((hcore x).trans (if_neg hxi))] at hlayout

end Module

namespace Pass
open TensorGraph.Action TensorGraph.Module Contiguous
variable {V : Type} {I : Interpretation V} {params : String → V}
variable {m m' : Module} {v : InstructionId → V} {vs : List V}

private theorem isMended_answers (i : InstructionId) (m : Module) :
    (isMended i).Leaves m
      (fun mended m' => m' = m ∧ hasStandardLayout (m.shapeOf i) = .ok mended) fun _ _ => True := by
  simp only [isMended, leaves_bind, leaves_get, leaves_liftFault, get_eq_ok_iff]
  refine ⟨fun n hn => ⟨fun mended h => ⟨trivial, ?_⟩, fun _ _ => trivial⟩, fun _ _ => trivial⟩
  rwa [shapeOf_of_get? hn]

private theorem allMended_answers (is : List InstructionId) (m : Module) :
    (allMended is).Leaves m
      (fun mended m' => m' = m ∧
        (mended = false → ∃ i ∈ is, hasStandardLayout (m.shapeOf i) = .ok false)) fun _ _ => True := by
  induction is with
  | nil => exact ⟨rfl, fun h => by cases h⟩
  | cons i rest ih =>
    rw [allMended, leaves_bind]
    refine (isMended_answers i m).imp ?_
    rintro mended _ ⟨rfl, hi⟩
    cases mended with
    | true =>
      refine ih.imp ?_
      rintro all _ ⟨rfl, hall⟩
      refine ⟨rfl, fun h => ?_⟩
      obtain ⟨j, hj, hlayout⟩ := hall h
      exact ⟨j, List.mem_cons_of_mem _ hj, hlayout⟩
    | false => exact ⟨rfl, fun _ => ⟨i, List.mem_cons_self, hi⟩⟩

/-- The copies have the values of the inputs they take the place of, and stand before the
instruction they are made for. -/
private theorem mendAll_computes (before : InstructionId) (is : List InstructionId)
    (h : Computes I params m v vs) (hm : MendedPlain m)
    (hlt : ∀ i ∈ is, m.order.idxOf i < m.order.idxOf before) :
    (mendAll before is).Leaves m
      (fun is' m' => ∃ v', Computes I params m' v' vs ∧ MendedPlain m' ∧
        Extends before m v m' v' ∧ is'.map v' = is.map v ∧
          ∀ j ∈ is', m'.order.idxOf j < m'.order.idxOf before) fun _ _ => True := by
  induction is generalizing m v with
  | nil => exact ⟨v, h, hm, Extends.refl .., rfl, by simp⟩
  | cons i rest ih =>
    have hrest : ∀ c m₁, (∃ v', Computes I params m₁ v' vs ∧ MendedPlain m₁ ∧
        Extends before m v m₁ v' ∧ v' c = v i ∧ m₁.order.idxOf c < m₁.order.idxOf before) →
        (mendAll before rest).Leaves m₁ (fun is' m' => ∃ v', Computes I params m' v' vs ∧
          MendedPlain m' ∧ Extends before m v m' v' ∧ (c :: is').map v' = (i :: rest).map v ∧
            ∀ j ∈ c :: is', m'.order.idxOf j < m'.order.idxOf before) fun _ _ => True := by
      rintro c m₁ ⟨v₁, h₁, hm₁, hx₁, hc₁, hlt₁⟩
      refine (ih h₁ hm₁ fun j hj => hx₁.earlier j (hlt j (by simp [hj]))).imp ?_
      rintro is' m₂ ⟨v₂, h₂, hm₂, hx₂, his, hlt₂⟩
      refine ⟨v₂, h₂, hm₂, hx₁.trans hx₂ h.linked h₁.linked, ?_, ?_⟩
      · rw [List.map_cons, List.map_cons, his, hx₂.value c (mem_of_idxOf_lt hlt₁), hc₁]
        refine congrArg _ (List.map_congr_left fun j hj => hx₁.value j ?_)
        exact mem_of_idxOf_lt (hlt j (by simp [hj]))
      · intro j hj
        rcases List.mem_cons.1 hj with rfl | hj
        · exact hx₂.earlier j hlt₁
        · exact hlt₂ j hj
    rw [mendAll, leaves_bind]
    refine (isMended_answers i m).imp ?_
    rintro mended _ ⟨rfl, -⟩
    split <;> simp only [leaves_bind, leaves_pure]
    · exact hrest i _ ⟨v, h, hm, Extends.refl .., rfl, hlt i (by simp)⟩
    · exact (h.copy hm (hlt i (by simp))).imp hrest

/-- Copies for all inputs of an instruction, and the instruction with the copies for inputs. -/
private theorem mend_computes {i : InstructionId} {n : Instruction} (hn : m.get? i = some n)
    (hplain : n.moduleArgs = [] ∨ m.output? = some i)
    (h : Computes I params m v vs) (hm : MendedPlain m) :
    (mendAll i n.inputs).Leaves m
      (fun is' m' => (m.output? = some i → m'.output? = some i) ∧
        (replace i n.op is').Leaves m'
          (fun _ m'' => ∃ v', Computes I params m'' v' vs ∧
            (n.op.requiresStandardInputs → n.moduleArgs = [] → MendedPlain m'')) fun _ _ => True)
      fun _ _ => True := by
  have hlt : ∀ j ∈ n.inputs, m.order.idxOf j < m.order.idxOf i := fun j hj =>
    h.ordered.idxOf_lt h.linked (inputsOf_of_get? hn ▸ hj)
  refine (mendAll_computes i n.inputs h hm hlt).imp ?_
  rintro is' m' ⟨v', h', hm', hx, his, hlt'⟩
  obtain ⟨n', hn', hc⟩ := Option.map_eq_some_iff.1 (hx.core i _ (core?_of_get? hn))
  have hop' : n'.core.op = n.core.op := congrArg Instruction.op hc
  have hin : n'.core.inputs = n.core.inputs := congrArg Instruction.inputs hc
  have hout : m.output? = some i → m'.output? = some i := fun ho => by
    obtain ⟨hlast, k, hk, hko⟩ := output?_eq_some.1 ho
    cases Option.some.inj (hk.symm.trans hn)
    exact output?_eq_some.2 ⟨hx.last.trans hlast, n', hn', (congrArg Operator.isOutput hop').trans hko⟩
  refine ⟨hout, ?_⟩
  have hargs : n'.core.moduleArgs = n.core.moduleArgs := congrArg Instruction.moduleArgs hc
  rw [← show n'.moduleArgs = n.moduleArgs from hargs] at hplain ⊢
  rw [← show n'.op = n.op from hop']
  have hmap : is'.map v' = n'.inputs.map v' := by
    rw [his, show n'.inputs = n.inputs from hin]
    exact List.map_congr_left fun j hj => (hx.value j (mem_of_idxOf_lt (hlt j hj))).symm
  exact h'.replace_inputs hm' hn' (hplain.imp_right hout) hlt' hmap

private theorem mendInputs_computes (i : InstructionId) (h : Computes I params m v vs)
    (hm : MendedPlain m) :
    (mendInputs i).Leaves m (fun _ m' => ∃ v', Computes I params m' v' vs ∧ MendedPlain m')
      fun _ _ => True := by
  simp only [mendInputs, leaves_bind, leaves_get, leaves_liftFault, get_eq_ok_iff]
  refine ⟨fun n hn => ?_, fun _ _ => trivial⟩
  split
  · exact ⟨v, h, hm⟩
  rename_i hop
  replace hop : n.op.requiresStandardInputs := by simpa using hop
  rw [leaves_bind]
  refine (allMended_answers n.inputs m).imp ?_
  rintro mended _ ⟨rfl, hmended⟩
  split
  · exact ⟨v, h, hm⟩
  rename_i hfalse
  have hplain := hm.moduleArgs h.linked hn hop (hmended (by simpa using hfalse))
  simp only [leaves_bind, leaves_pure]
  refine (mend_computes hn (.inl hplain) h hm).imp ?_
  rintro is' m' ⟨-, hr⟩
  refine hr.imp ?_
  rintro _ m'' ⟨v', h', hm'⟩
  exact ⟨v', h', hm' hop hplain⟩

private theorem mendOutputs_computes (h : Computes I params m v vs) (hm : MendedPlain m) :
    mendOutputs.Leaves m (fun _ m' => ∃ v', Computes I params m' v' vs) fun _ _ => True := by
  rw [mendOutputs, leaves_bind, leaves_get]
  split
  · rename_i i hi
    obtain ⟨-, n, hn, hop⟩ := output?_eq_some.1 hi
    rw [inputsOf_of_get? hn, leaves_bind]
    refine (allMended_answers n.inputs m).imp ?_
    rintro mended _ ⟨rfl, -⟩
    split
    · exact ⟨v, h⟩
    simp only [leaves_bind, leaves_pure]
    refine (mend_computes hn (.inr hi) h hm).imp ?_
    rintro is' m' ⟨hout, hr⟩
    rw [Operator.isOutput_iff.1 hop] at hr
    have hstep := hr.imp fun _ _ h' => h'.imp fun _ h' => h'.1
    simpa only [replaceOutput, leaves_bind, leaves_get, hout hi] using hstep
  · rename_i ho
    split
    · rename_i last hlast
      rw [leaves_bind]
      refine (isMended_answers last m).imp ?_
      rintro mended _ ⟨rfl, -⟩
      split
      · exact ⟨v, h⟩
      simp only [leaves_bind, leaves_pure]
      exact h.append_copy ho hlast
    · exact ⟨v, h⟩

theorem contiguous_computes (h : Computes I params m v vs) (hm : MendedPlain m) :
    contiguous.run.Leaves m (fun _ m' => ∃ v', Computes I params m' v' vs) fun _ _ => True := by
  simp only [contiguous, leaves_bind, leaves_get, leaves_pure]
  have hinputs : (anyOf mendInputs m.order).Leaves m
      (fun _ m' => ∃ v', Computes I params m' v' vs ∧ MendedPlain m') fun _ _ => True :=
    leaves_anyOf _ (fun i _ _ h' => h'.elim fun _ h' => mendInputs_computes i h'.1 h'.2) m ⟨v, h, hm⟩
  refine hinputs.imp ?_
  rintro _ m' ⟨v', h', hm'⟩
  exact mendOutputs_computes h' hm'

end Pass
end TensorGraph
