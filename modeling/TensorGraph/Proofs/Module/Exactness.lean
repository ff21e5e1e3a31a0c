import TensorGraph.Proofs.Module.Built
import TensorGraph.Proofs.Module.Validation
import TensorGraph.Proofs.Operator.Refusals
import TensorGraph.Proofs.Operator.Safety

/-! The check of a module is exact. Edits that take no inputs away can still put the order out of
place and leave shapes behind that no longer fit. They keep every shape sound, though, and an
instruction without inputs keeps the shape that its operator gives. So the check misses nothing where
it passes over such an instruction, and it has an answer for every module that is made this way. -/
namespace TensorGraph.Module
open TensorGraph.Action
variable {m : Module} {i old new : InstructionId} {n : Instruction} {op : Operator}

/-- The shapes of an instruction are sound, and one without inputs has the shape of its operator. -/
structure Grounded (n : Instruction) : Prop where
  op : n.op.Aligned
  shape : n.shape.Sound
  outputs : ∀ outs ∈ n.moduleOutputs, ∀ s ∈ outs, s.Sound
  source : n.inputs = [] → n.op.inferShape [] n.moduleOutputs = .ok n.shape

def AllGrounded (m : Module) : Prop :=
  ∀ i n, m.core? i = some n → Grounded n

theorem AllGrounded.of_get? (h : AllGrounded m) (hn : m.get? i = some n) : Grounded n :=
  have hc := h i n.core (core?_of_get? hn)
  ⟨hc.op, hc.shape, hc.outputs, hc.source⟩

theorem AllGrounded.sound (h : AllGrounded m) {is : List InstructionId}
    (hlive : ∀ i ∈ is, (m.get? i).isSome) : ∀ s ∈ is.map m.shapeOf, s.Sound := by
  intro s hs
  obtain ⟨i, hi, rfl⟩ := List.mem_map.1 hs
  obtain ⟨k, hk⟩ := Option.isSome_iff_exists.1 (hlive i hi)
  rw [shapeOf_of_get? hk]
  exact (h.of_get? hk).shape

/-- A shape that has just been inferred is sound. -/
theorem AllGrounded.infer (h : AllGrounded m) (hlive : ∀ i ∈ n.inputs, (m.get? i).isSome)
    (hop : n.op.Aligned) (houts : ∀ outs ∈ n.moduleOutputs, ∀ s ∈ outs, s.Sound)
    (hs : n.op.inferShape (n.inputs.map m.shapeOf) n.moduleOutputs = .ok n.shape) : Grounded n where
  op := hop
  shape := (n.op.safe_inferShape hop (h.sound hlive) houts).ok hs
  outputs := houts
  source hnil := by
    rw [hnil] at hs
    exact hs

private theorem grounded_literal {value : Literal} (h : value.shape.Sound) :
    Grounded { op := .literal value, inputs := [], shape := value.shape } where
  op := h.aligned
  shape := h
  outputs := by simp
  source _ := Operator.inferShape_eq_ok.2 ⟨rfl, h.addressable⟩

theorem AllGrounded.place (h : AllGrounded m) (hn : Grounded n) (p : Nat) :
    AllGrounded (m.place p n) := by
  intro i k hk
  rw [core?_place] at hk
  split at hk
  · cases hk
    exact ⟨hn.op, hn.shape, hn.outputs, hn.source⟩
  · exact h i k hk

theorem AllGrounded.rewire (h : AllGrounded m) (hl : Linked m) {inputs : List InstructionId}
    {before after : Instruction} (hr : Replacement m old op inputs before after) (hop : op.Aligned) :
    AllGrounded (m.rewire old after) := by
  have houts : ∀ outs ∈ after.moduleOutputs, ∀ s ∈ outs, s.Sound := by
    rw [hr.eq]
    intro outs hmem
    dsimp only at hmem
    split at hmem
    · exact (h.of_get? hr.get).outputs outs hmem
    · cases hmem
  have hafter : Grounded after :=
    h.infer (hr.inputs_eq ▸ hr.live) (hr.op_eq ▸ hop) houts (hr.op_eq ▸ hr.inputs_eq ▸ hr.shape)
  intro i k hk
  rw [hr.core?_rewire hl] at hk
  split at hk
  · cases hk
    exact ⟨hafter.op, hafter.shape, hafter.outputs, hafter.source⟩
  · exact h i k hk

theorem AllGrounded.redirect (h : AllGrounded m) (hl : Linked m) {rs : List Redirected}
    (hne : old ≠ new) (hn : (m.get? new).isSome) (hr : Redirection m old new rs) :
    AllGrounded (m.redirect old new rs) := by
  intro i k hk
  rw [core?_redirect hl hne hn hr] at hk
  by_cases hu : i ∈ rs.map Redirected.user
  · obtain ⟨r, hmem, rfl⟩ := List.mem_map.1 hu
    rw [core?_redirectEdges_of_mem (hr.nodup hl) hmem] at hk
    obtain ⟨k, hcore, rfl⟩ := Option.map_eq_some_iff.1 hk
    obtain ⟨a, ha, -, -, hlive, hs⟩ := hr.fits r hmem
    cases hcore.symm.trans (core?_of_get? ha)
    have hbefore := h.of_get? ha
    exact h.infer hlive hbefore.op hbefore.outputs hs
  · rw [core?_redirectEdges_of_notMem hu] at hk
    exact h i k hk

theorem AllGrounded.rename (h : AllGrounded m) (i : InstructionId) (name : String) :
    AllGrounded (m.rename i name) := by
  intro j k hk
  rw [core?, get?_rename] at hk
  split at hk
  · rw [Option.map_map] at hk
    obtain ⟨a, ha, rfl⟩ := Option.map_eq_some_iff.1 hk
    have hbefore := h.of_get? ha
    obtain ⟨op, _, _, _, _, _⟩ := a
    cases op <;> exact ⟨hbefore.op, hbefore.shape, hbefore.outputs, hbefore.source⟩
  · exact h j k hk

theorem AllGrounded.remove (h : AllGrounded m) (i : InstructionId) :
    AllGrounded ((m.detach i).erase i) := by
  intro j k hk
  rw [core?_erase, core?_detach] at hk
  split at hk
  · cases hk
  · exact h j k hk

theorem AllGrounded.insertAt (h : AllGrounded m) (hop : op.Aligned) {outs : List (List Shape)}
    (houts : ∀ o ∈ outs, ∀ s ∈ o, s.Sound) (p : Nat) (inputs : List InstructionId)
    (args : List ModuleId) :
    (Module.insertAt p op inputs args outs).Leaves m (fun _ => AllGrounded) fun _ => AllGrounded := by
  refine (insertAt_leaves p op inputs args outs m).mono ?_ fun _ _ hx => hx.2 ▸ h
  rintro _ _ ⟨-, shape, hs, rfl⟩
  obtain ⟨-, -, hlive, hs⟩ := checkInsert_eq_ok.1 hs
  exact h.place (h.infer hlive hop houts hs) p

theorem AllGrounded.add (h : AllGrounded m) (hop : op.Aligned) (inputs : List InstructionId) :
    (Module.add op inputs).Leaves m (fun _ => AllGrounded) fun _ => AllGrounded := by
  simp only [Module.add, leaves_bind, leaves_get]
  exact h.insertAt hop (by simp) m.order.length inputs []

theorem AllGrounded.insertWithModules (h : AllGrounded m) (hop : op.Aligned)
    {outs : List (List Shape)} (houts : ∀ o ∈ outs, ∀ s ∈ o, s.Sound)
    (before : Option InstructionId) (inputs : List InstructionId) (args : List ModuleId) :
    (Module.insertWithModules before op inputs args outs).Leaves m (fun _ => AllGrounded)
      fun _ => AllGrounded := by
  cases before with
  | none =>
    simp only [Module.insertWithModules, leaves_bind, leaves_get, leaves_pure]
    exact h.insertAt hop houts _ inputs args
  | some i =>
    simp only [Module.insertWithModules, leaves_bind, leaves_get, leaves_lift]
    exact ⟨fun p _ => h.insertAt hop houts p inputs args, fun _ _ => h⟩

theorem AllGrounded.replace (h : AllGrounded m) (hl : Linked m) (hop : op.Aligned)
    (old : InstructionId) (inputs : List InstructionId) :
    (Module.replace old op inputs).Leaves m (fun _ => AllGrounded) fun _ => AllGrounded := by
  refine (replace_leaves old op inputs m).mono ?_ fun _ _ hx => hx.2 ▸ h
  rintro _ _ ⟨-, before, after, hr, rfl⟩
  exact h.rewire hl hr hop

namespace Mutation

/-- The edit takes no inputs away. The shapes that it brings along have a stride for each length, as
all shapes have that can be made, and a constant is addressable. -/
def Proper : Mutation → Prop
  | add op _ | insert _ op _ | replace _ op _ => op.Aligned
  | addParameter _ shape => shape.Aligned
  | addLiteral value => value.shape.Sound
  | removeAfter _ | clearInputs _ => False
  | _ => True

private theorem Proper.allGrounded {e : Mutation} (he : e.Proper) (hl : Linked m)
    (h : AllGrounded m) : AllGrounded (e.apply m) := by
  have houtput : Operator.output.Aligned := trivial
  cases e with
  | add op inputs => exact (h.add he inputs).state
  | insert before op inputs => exact (h.insertWithModules he (by simp) (some before) inputs []).state
  | addParameter name shape =>
    refine Leaves.state (P := AllGrounded) ?_
    simp only [Module.addParameter, leaves_bind, leaves_get]
    exact h.insertAt (show (Operator.parameter name shape).Aligned from he) (by simp) _ [] []
  | addLiteral value => exact h.place (grounded_literal he) 0
  | addOutput outputs => exact (h.add houtput outputs).state
  | replaceOutput outputs =>
    refine Leaves.state (P := AllGrounded) ?_
    simp only [Module.replaceOutput, leaves_bind, leaves_get]
    split
    · exact h.replace hl houtput _ outputs
    · exact h.add houtput outputs
  | renameParameter old new =>
    refine Leaves.state (P := AllGrounded) ?_
    simp only [Module.renameParameter, leaves_bind, leaves_get]
    split
    · exact h
    · split
      · exact h
      · exact h.rename _ new
  | replace old op inputs => exact (h.replace hl he old inputs).state
  | replaceWith old new =>
    refine Leaves.state (P := AllGrounded) ?_
    refine (replaceWith_leaves old new m).mono ?_ fun _ _ hx => hx.1 ▸ h
    rintro _ _ (⟨-, rfl⟩ | ⟨hne, hf⟩)
    · exact h
    · cases hf with
      | replaced _ hr => exact h.rewire hl hr trivial
      | redirected hn _ _ _ hr => exact h.redirect hl hne hn hr
  | remove i =>
    refine Leaves.state (P := AllGrounded) ?_
    simp only [Module.remove, leaves_bind, leaves_get, leaves_lift]
    refine ⟨fun _ _ => ?_, fun _ _ => h⟩
    split
    · exact h.remove i
    · exact h
  | removeAfter last => exact he.elim
  | clearInputs i => exact he.elim
  | moveToEnd i =>
    refine Leaves.state (P := AllGrounded) ?_
    exact (moveToEnd_leaves i m).mono (fun _ _ hx => hx.2 ▸ h) fun _ _ hx => hx.2 ▸ h

end Mutation

/-- A module made from an empty one by edits that take no inputs away, carried out or failing, and by
moves to any place. Instructions may refer to sub-modules, whose outputs are sound. -/
inductive Assembled : Module → Prop
  | empty (name : String) : Assembled (Module.empty name)
  | edit {m : Module} (h : Assembled m) {e : Mutation} (he : e.Proper) : Assembled (e.apply m)
  | move {m : Module} (h : Assembled m) (i before : InstructionId) :
      Assembled (Module.moveBefore i before m).state
  | insert {m : Module} (h : Assembled m) (before : Option InstructionId) {op : Operator}
      (inputs : List InstructionId) (args : List ModuleId) {outs : List (List Shape)}
      (hop : op.Aligned) (houts : ∀ o ∈ outs, ∀ s ∈ o, s.Sound) :
      Assembled (Module.insertWithModules before op inputs args outs m).state

theorem Assembled.built (h : Assembled m) : Built m := by
  induction h with
  | empty name => exact .empty name
  | edit _ _ ih => exact ih.edit _
  | move _ i before ih => exact ih.move i before
  | insert _ before inputs args _ _ ih => exact ih.insert before _ inputs args _

private theorem Assembled.allGrounded (h : Assembled m) : AllGrounded m := by
  induction h with
  | empty name =>
    intro i n hn
    simp [core?, Module.empty, get?, Arena.get?] at hn
  | edit h he ih => exact he.allGrounded h.built.linked ih
  | @move m h i before ih =>
    refine Leaves.state (P := AllGrounded) ((moveBefore_leaves h.built.linked i before).mono ?_ ?_)
    · rintro _ _ ⟨l, -, rfl⟩
      exact ih
    · rintro _ _ ⟨-, rfl⟩
      exact ih
  | insert _ before inputs args hop houts ih =>
    exact (ih.insertWithModules hop houts before inputs args).state

theorem Assembled.applyAll (h : Assembled m) {edits : List Mutation} (he : ∀ e ∈ edits, e.Proper) :
    Assembled (Mutation.applyAll m edits) := by
  induction edits generalizing m with
  | nil => exact h
  | cons e rest ih =>
    obtain ⟨hfirst, hrest⟩ := List.forall_mem_cons.1 he
    exact ih (h.edit hfirst) hrest

/-- A failure is a report of something that is broken in the module. -/
def Reports (m : Module) (x : Except Failure Unit) : Prop :=
  ∀ e, x = .error e → ∃ v, e = .refused (.invalid m.name v)

private theorem reports_ok : Reports m (.ok ()) := by
  intro e he
  cases he

private theorem reports_invalid (v : Violation) : Reports m (refuse (.invalid m.name v)) := by
  intro e he
  cases he
  exact ⟨v, rfl⟩

private theorem reports_seq {x y : Except Failure Unit} (hx : Reports m x) (hy : Reports m y) :
    Reports m (x >>= fun _ => y) := by
  intro e he
  rcases Except.bind_eq_error.1 he with he | ⟨_, -, he⟩
  · exact hx e he
  · exact hy e he

private theorem reports_forM {α : Type} {l : List α} {f : α → Except Failure Unit}
    (h : ∀ a ∈ l, Reports m (f a)) : Reports m (l.forM f) := by
  intro e he
  obtain ⟨a, ha, he⟩ := Except.exists_of_forM_eq_error he
  exact h a ha e he

private theorem reports_if {c : Prop} [Decidable c] {x y : Except Failure Unit} (hx : Reports m x)
    (hy : Reports m y) : Reports m (if c then x else y) := by
  split
  · exact hx
  · exact hy

private theorem reports_checkInstruction (hl : Linked m) (hg : AllGrounded m) (hn : m.get? i = some n)
    (seen : List InstructionId) (isLast : Bool) : Reports m (m.checkInstruction seen isLast i) := by
  have hlive : ∀ j ∈ n.inputs, (m.get? j).isSome := fun j hj =>
    hl.live_input (inputsOf_of_get? hn ▸ hj)
  rw [checkInstruction, hn]
  dsimp only
  refine reports_seq (reports_forM fun j hj => ?_) (reports_seq (reports_forM fun user _ => ?_) ?_)
  · obtain ⟨k, hk⟩ := Option.isSome_iff_exists.1 (hlive j hj)
    rw [Except.bind_of_ok (Except.lift_eq_ok.2 (get_eq_ok_iff.2 hk))]
    exact reports_if (reports_invalid _) (reports_if (reports_invalid _) reports_ok)
  · exact reports_if reports_ok (reports_invalid _)
  · refine reports_if (reports_invalid _) (reports_if reports_ok ?_)
    rw [Except.bind_of_ok (Except.lift_eq_ok.2 (shapesOf_eq_ok_iff.2 ⟨hlive, rfl⟩))]
    have hsafe := n.op.safe_inferShape (hg.of_get? hn).op (hg.sound hlive) (hg.of_get? hn).outputs
    cases hs : n.op.inferShape (n.inputs.map m.shapeOf) n.moduleOutputs with
    | ok shape => exact reports_if reports_ok (reports_invalid _)
    | error e =>
      obtain ⟨error, rfl⟩ := hsafe.refused hs
      obtain ⟨cause, rfl⟩ := Operator.inferShape_refused hs
      exact reports_invalid _

private theorem reports_checkFrom (hl : Linked m) (hg : AllGrounded m) (l seen : List InstructionId)
    (h : ∀ i ∈ l, (m.get? i).isSome) : Reports m (m.checkFrom seen l) := by
  induction l generalizing seen with
  | nil => exact reports_ok
  | cons i rest ih =>
    obtain ⟨hi, hrest⟩ := List.forall_mem_cons.1 h
    obtain ⟨n, hn⟩ := Option.isSome_iff_exists.1 hi
    exact reports_seq (reports_checkInstruction hl hg hn seen _) (ih (i :: seen) hrest)

private theorem reports_validate (hl : Linked m) (hg : AllGrounded m) : Reports m m.validate :=
  reports_if (reports_invalid _) (reports_checkFrom hl hg m.order [] fun i hi => (hl.mem_order i).1 hi)

/-- The order of a linked module is topological when each input stands before its user. -/
theorem ordered_iff (hl : Linked m) :
    Ordered m ↔ ∀ i n, m.get? i = some n → ∀ j ∈ n.inputs,
      ∃ p q, m.position? j = some p ∧ m.position? i = some q ∧ p < q := by
  constructor
  · intro ho i n hn j hj
    have hin : j ∈ m.inputsOf i := inputsOf_of_get? hn ▸ hj
    exact ⟨_, _, position?_of_mem (hl.input_mem_order hin), position?_of_mem (hl.user_mem_order hin),
      ho.idxOf_lt hl hin⟩
  · intro h
    refine .of_idxOf_lt hl fun j i hin => ?_
    obtain ⟨n, hn⟩ := Option.isSome_iff_exists.1 (live_of_mem_inputsOf hin)
    obtain ⟨p, q, hp, hq, hlt⟩ := h i n hn j (inputsOf_of_get? hn ▸ hin)
    rw [position?_of_mem (hl.input_mem_order hin)] at hp
    rw [position?_of_mem (hl.user_mem_order hin)] at hq
    cases hp
    cases hq
    exact hlt

/-- However a module was put together without taking inputs away, the check accepts it exactly when
each input stands before its users, outputs are listed nowhere but at the end, and every cached shape
is the one that the operator gives for the cached shapes of the inputs. It never breaks down: what it
does not accept, it reports as invalid. -/
theorem validate_exact (h : Assembled m) :
    (m.validate = .ok () ↔
      (∀ i n, m.get? i = some n → ∀ j ∈ n.inputs,
        ∃ p q, m.position? j = some p ∧ m.position? i = some q ∧ p < q) ∧
      (∀ i n, m.get? i = some n → n.op.isOutput → m.last? = some i) ∧
      ∀ i n, m.get? i = some n →
        n.op.inferShape (n.inputs.map m.shapeOf) n.moduleOutputs = .ok n.shape) ∧
    ∀ e, m.validate = .error e → ∃ v, e = .refused (.invalid m.name v) := by
  have hl := h.built.linked
  have hg := h.allGrounded
  refine ⟨?_, reports_validate hl hg⟩
  rw [validate_eq_ok hl, ordered_iff hl]
  refine and_congr_right fun _ => and_congr_right fun _ => forall₃_congr fun i n hn => ?_
  refine ⟨fun hfits => ?_, .inr⟩
  rcases hfits with ⟨hnil, -⟩ | hfits
  · have hsource := (hg.of_get? hn).source hnil
    rw [hnil]
    exact hsource
  · exact hfits

/-- A chain of three instructions, of which the last one has been moved to the front. -/
def scattered : Module :=
  (Module.moveBefore ⟨2⟩ ⟨0⟩ (Mutation.applyAll (Module.empty "main")
    [.addParameter "x" (.packedOf .float [2]), .add (.unary .neg) [⟨0⟩],
      .add (.unary .exp) [⟨1⟩]])).state

private theorem assembled_scattered : Assembled scattered := by
  refine .move (Assembled.applyAll (.empty "main") ?_) ⟨2⟩ ⟨0⟩
  simp only [List.forall_mem_cons, List.not_mem_nil, false_implies, implies_true, and_true]
  exact ⟨Shape.aligned_packedOf .float [2], trivial, trivial⟩

/-- The chain is reported while it is out of order, and accepted once its last instruction stands at
the end again. -/
theorem validate_exact_scattered :
    (∃ v, scattered.validate = .error (.refused (.invalid "main" v))) ∧
      (scattered.toEnd ⟨2⟩).validate = .ok () ∧
        ∀ i n, (scattered.toEnd ⟨2⟩).get? i = some n →
          n.op.inferShape (n.inputs.map (scattered.toEnd ⟨2⟩).shapeOf) n.moduleOutputs = .ok n.shape := by
  obtain ⟨hok, hreport⟩ := validate_exact assembled_scattered
  have hback : Assembled (scattered.toEnd ⟨2⟩) :=
    assembled_scattered.edit (e := .moveToEnd ⟨2⟩) trivial
  have haccepted : (scattered.toEnd ⟨2⟩).validate = .ok () := by decide +kernel
  refine ⟨?_, haccepted, ((validate_exact hback).1.1 haccepted).2.2⟩
  cases hv : scattered.validate with
  | error e =>
    obtain ⟨v, rfl⟩ := hreport e hv
    exact ⟨v, rfl⟩
  | ok _ =>
    obtain ⟨p, q, hp, hq, hlt⟩ := (hok.1 hv).1 ⟨2⟩ _ rfl ⟨1⟩ (by decide)
    cases hp
    cases hq
    exact absurd hlt (by decide)

end TensorGraph.Module
