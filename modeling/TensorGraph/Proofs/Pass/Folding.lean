import TensorGraph.Pass.ConstantFolding
import TensorGraph.Proofs.Module.Values
import TensorGraph.Proofs.Operator.Evaluation

/-! Constant folding keeps values. All values to fold in are found on the module as it was, with one
memo for all of them; each is then folded into a module that earlier folds have rewired. What carries
over is the valuation: every instruction that was there keeps its value. -/
namespace TensorGraph.Pass
open TensorGraph.Action TensorGraph.Module
variable {m m' : Module} {value : InstructionId → Option Literal} {i j : InstructionId} {n : Instruction}
  {v : Literal}

namespace ConstantFolding

/-- A value that is folded in: it has the shape of the instruction it comes from. -/
structure Folds (m : Module) (value : InstructionId → Option Literal) (i : InstructionId)
    (v : Literal) : Prop where
  value_eq : value i = some v
  core : ∃ n, m.core? i = some n ∧ n.op.isBuiltin = false ∧ n.shape = v.shape

section Found
variable (hl : Linked m) (ho : Ordered m) (hv : m.Valuation value)
include hl ho hv

private theorem exists_evalMemo (i : InstructionId) {memo : Memo} (hm : m.Agrees memo) :
    ∃ memo', m.Agrees memo' ∧ m.evalMemo i memo = .ok (value i, memo') :=
  (gives_evalMemo hl ho i hm).ok (value i) (hv.eval_eq hl ho trivial)

private theorem exists_anyUnknown (is : List InstructionId) {memo : Memo} (hm : m.Agrees memo) :
    ∃ memo', m.Agrees memo' ∧
      anyUnknown m is memo = .ok (is.any fun i => (value i).isNone, memo') := by
  induction is generalizing memo with
  | nil => exact ⟨memo, hm, rfl⟩
  | cons i rest ih =>
    obtain ⟨memo', hm', he⟩ := exists_evalMemo hl ho hv i hm
    rw [anyUnknown, he, Except.ok_bind, List.any_cons]
    cases value i with
    | none => exact ⟨memo', hm', rfl⟩
    | some v => exact ih hm'

private theorem exists_foldValue (hi : (m.get? i).isSome) {memo : Memo} (hm : m.Agrees memo) :
    ∃ r memo', m.Agrees memo' ∧ foldValue m i memo = .ok (r, memo') ∧
      ∀ v, r = some v → Folds m value i v := by
  obtain ⟨n, hn⟩ := Option.isSome_iff_exists.1 hi
  have hnone : ∀ memo, m.Agrees memo → ∃ r memo', m.Agrees memo' ∧
      (.ok (none, memo) : Except Fault (Option Literal × Memo)) = .ok (r, memo') ∧
      ∀ v, r = some v → Folds m value i v := fun memo hm => ⟨none, memo, hm, rfl, by simp⟩
  rw [foldValue, get_eq_ok_iff.2 hn, Except.ok_bind]
  split
  · exact hnone memo hm
  rename_i hop
  simp only [Bool.or_eq_true, not_or, Bool.not_eq_true] at hop
  dsimp only
  split
  · exact hnone memo hm
  obtain ⟨memo₁, hm₁, he₁⟩ := exists_anyUnknown hl ho hv n.users hm
  rw [he₁, Except.ok_bind]
  dsimp only
  split
  · exact hnone memo₁ hm₁
  obtain ⟨memo₂, hm₂, he₂⟩ := exists_evalMemo hl ho hv i hm₁
  rw [he₂, Except.ok_bind]
  refine ⟨_, memo₂, hm₂, rfl, fun v hr => ?_⟩
  obtain ⟨hvalue, hs⟩ := Option.filter_eq_some_iff.1 hr
  exact ⟨hvalue, n.core, core?_of_get? hn, hop.2, (of_decide_eq_true hs).symm⟩

/-- Each instruction is folded once at most. -/
theorem exists_foldValues {is : List InstructionId} (his : ∀ i ∈ is, (m.get? i).isSome) {memo : Memo}
    (hm : m.Agrees memo) : ∃ folds, foldValues m is memo = .ok folds ∧
      (folds.map Prod.fst).Sublist is ∧ ∀ p ∈ folds, Folds m value p.1 p.2 := by
  induction is generalizing memo with
  | nil => exact ⟨[], rfl, .slnil, by simp⟩
  | cons i rest ih =>
    obtain ⟨hi, hrest⟩ := List.forall_mem_cons.1 his
    obtain ⟨r, memo', hm', he, hr⟩ := exists_foldValue hl ho hv hi hm
    obtain ⟨folds, hfolds, hsub, hall⟩ := ih hrest hm'
    rw [foldValues, he, Except.ok_bind]
    dsimp only
    rw [hfolds]
    cases r with
    | none => exact ⟨folds, rfl, hsub.cons i, hall⟩
    | some v => exact ⟨(i, v) :: folds, rfl, hsub.cons_cons i, List.forall_mem_cons.2 ⟨hr v rfl, hall⟩⟩

end Found

/-- What was folded from an instruction other than a literal has a layout that literals have. -/
theorem Folds.fills (h : Folds m value i v) (hv : m.Valuation value) : v.Fills (m.shapeOf i) := by
  obtain ⟨n, hn, hop, -⟩ := h.core
  have hne : ∀ w, n.op ≠ .literal w := fun w he => by rw [he] at hop; cases hop
  have hvalue := (hv.of_core? trivial hn).trans (congrArg Except.ok h.value_eq)
  rw [shapeOf_of_core? hn]
  exact fills_of_valueFrom hne hvalue

/-- A module in which the instructions of another one keep their shapes and values. -/
structure Keeps (m : Module) (value : InstructionId → Option Literal) (m' : Module)
    (value' : InstructionId → Option Literal) : Prop where
  upholds : Upholds m m'
  valued : m'.Valuation value'
  kept : ∀ i, (m.get? i).isSome → value' i = value i

theorem Keeps.trans {m'' : Module} {value' value'' : InstructionId → Option Literal}
    (h : Keeps m value m' value') (h' : Keeps m' value' m'' value'') : Keeps m value m'' value'' := by
  refine ⟨h.upholds.trans h'.upholds, h'.valued, fun i hi => ?_⟩
  obtain ⟨n, hn⟩ := Option.isSome_iff_exists.1 hi
  obtain ⟨n', hn', -⟩ := h.upholds.kept i n hn
  exact (h'.kept i (by simp [hn'])).trans (h.kept i hi)

/-- What becomes of an instruction does not matter as long as its operator, shape and value stay. -/
theorem Folds.carry {value' : InstructionId → Option Literal} (h : Folds m value i v)
    (hvalue : value' i = value i)
    (hcore : ∀ n, m.core? i = some n → ∃ n', m'.core? i = some n' ∧ n'.op = n.op ∧
      n'.shape = n.shape) : Folds m' value' i v := by
  obtain ⟨n, hn, hop, hs⟩ := h.core
  obtain ⟨n', hn', hop', hs'⟩ := hcore n hn
  exact ⟨hvalue.trans h.value_eq, n', hn', hop' ▸ hop, hs'.trans hs⟩

section Keeps
variable (h : Accepted m) (hv : m.Valuation value)
include h hv

/-- The literal comes before everything that is there. -/
theorem addLiteral_keeps (v : Literal) :
    (addLiteral v).Leaves m
      (fun l m' => ∃ value', Keeps m value m' value' ∧ value' l = some v ∧
        (∃ k, m'.get? l = some k ∧ k.shape = v.shape) ∧
          ∀ i w, Folds m value i w → m'.order.idxOf l < m'.order.idxOf i ∧ Folds m' value' i w)
      fun _ _ => False := by
  simp only [addLiteral, leaves_bind, leaves_get, leaves_set, leaves_pure]
  have hkept : ∀ i, (m.get? i).isSome → Function.update value m.nextId (some v) i = value i := by
    refine fun i hi => Function.update_of_ne ?_ _ _
    rintro rfl
    simp [get?_nextId] at hi
  have hu : Upholds m (m.place 0 { op := .literal v, inputs := [], shape := v.shape }) :=
    h.place (placeable_literal v m) (.inl ⟨rfl, rfl⟩)
      ⟨fun _ hop => by cases hop; rfl, fun _ _ hop => by cases hop⟩
  refine ⟨Function.update value m.nextId (some v), ⟨hu, hv.place h.linked (by simp) (by simp)
    fun _ => ⟨rfl, by simp⟩, hkept⟩, Function.update_self _ _ _, get?_nextId_place m _ _, fun i w hi => ?_⟩
  obtain ⟨n, hn, -⟩ := hi.core
  have hlive := live_of_core? hn
  refine ⟨?_, hi.carry (hkept i hlive) fun k hk => ⟨k, (core?_place_of_live hlive 0 _).trans hk, rfl, rfl⟩⟩
  rw [idxOf_nextId_place h.linked (Nat.zero_le _)]
  exact lt_idxOf_place h.linked ((h.linked.mem_order i).2 hlive) (Nat.zero_le _) _

/-- An instruction is forwarded to a literal with its value. -/
theorem replaceWith_keeps (hi : Folds m value i v) {l : InstructionId} {k : Instruction}
    (hl : value l = some v) (hk : m.get? l = some k) (hs : k.shape = v.shape)
    (hlt : m.order.idxOf l < m.order.idxOf i) :
    (replaceWith i l).Leaves m
      (fun _ m' => Keeps m value m' value ∧
        ∀ j w, j ≠ i → Folds m value j w → Folds m' value j w)
      fun _ _ => False := by
  obtain ⟨_, hn, hop, hshape⟩ := hi.core
  have hfills := hi.fills hv
  have haddr := (Operator.inferShape_eq_ok.1 (h.fits_of_not_builtin hn hop)).2
  have hof := shapeOf_of_core? hn
  obtain ⟨n, hget, rfl⟩ := exists_get?_of_core? hn
  have hout : n.op.isOutput = false := (not_parameter_of_not_builtin hop).2
  have hshapes : m.shapeOf i = m.shapeOf l := by rw [hof, shapeOf_of_get? hk, hshape, hs]
  refine (h.replaceWith_forwards hget hout hk (hs.trans hshape.symm) hlt fun _ => ?_).imp ?_
  · rw [hs, ← hshape]
    exact haddr
  intro _ m' hf
  have hne : i ≠ l := fun he => Nat.lt_irrefl _ (he ▸ hlt)
  have hst := hf.standing h hlt hshapes
  refine ⟨⟨hf.upholds h hlt hshapes, hv.forward h hf hlt hshapes fun _ =>
    ⟨trivial, v, hi.value_eq, hl, hfills⟩, fun _ _ => rfl⟩, fun j w hj hw => hw.carry rfl fun k hk => ?_⟩
  rcases hst.core?_cases h.linked j with ⟨hno, -⟩ | ⟨_, k', hk', hm'⟩
  · cases hk.symm.trans hno
  cases hk.symm.trans hk'
  refine ⟨k', hm', ?_, hst.shape j k k' hk hm'⟩
  rcases hf.core?_cases hne h.linked hm' with he | ⟨a, ha, he, -⟩ | ⟨he, -⟩
  · cases hk.symm.trans he
    rfl
  · cases hk.symm.trans ha
    rw [he]
  · exact absurd he hj

end Keeps

private theorem foldInto_keeps (name : String) {folds : List (InstructionId × Literal)}
    (hnodup : (folds.map Prod.fst).Nodup) (hfolds : ∀ p ∈ folds, Folds m value p.1 p.2)
    (h : Accepted m) (hv : m.Valuation value) :
    (foldInto name folds).Leaves m (fun _ m' => ∃ value', Keeps m value m' value')
      fun _ _ => False := by
  induction folds generalizing m value with
  | nil => exact ⟨value, h.upholds, hv, fun _ _ => rfl⟩
  | cons p rest ih =>
    obtain ⟨i, v⟩ := p
    obtain ⟨hi, hrest⟩ := List.forall_mem_cons.1 hfolds
    obtain ⟨hnew, hnodup⟩ := List.nodup_cons.1 hnodup
    rw [foldInto, leaves_bind, leaves_report]
    refine (addLiteral_keeps h hv v).bind fun l m₁ => ?_
    rintro ⟨value₁, hk₁, hl, ⟨k, hk, hs⟩, hfolds₁⟩
    obtain ⟨hlt, hi₁⟩ := hfolds₁ i v hi
    refine (replaceWith_keeps hk₁.upholds.accepted hk₁.valued hi₁ hl hk hs hlt).bind fun _ m₂ => ?_
    rintro ⟨hk₂, hfolds₂⟩
    refine (ih hnodup (fun p hp => ?_) hk₂.upholds.accepted hk₂.valued).imp ?_
    · have hne : p.1 ≠ i := fun he => hnew (he ▸ List.mem_map.2 ⟨p, hp, rfl⟩)
      exact hfolds₂ p.1 p.2 hne (hfolds₁ p.1 p.2 (hrest p hp)).2
    · rintro _ m' ⟨value', hk'⟩
      exact ⟨value', (hk₁.trans hk₂).trans hk'⟩

end ConstantFolding

open ConstantFolding

private theorem constantFolding_leaves (h : Accepted m) (hv : m.Valuation value) :
    constantFolding.run.Leaves m (fun _ m' => ∃ value', Keeps m value m' value')
      fun _ _ => False := by
  obtain ⟨folds, hfolds, hsub, hall⟩ := exists_foldValues h.linked h.ordered hv
    (fun i hi => (h.linked.mem_order i).1 hi) (agrees_nil m)
  rw [constantFolding, leaves_bind, leaves_get]
  refine (leaves_liftFault_bind hfolds _ _ _ _).2 ?_
  simp only [leaves_bind, leaves_pure]
  exact foldInto_keeps m.name (h.linked.nodup.sublist hsub) hall h hv

/-- On every module that edits build, that passes its check and on which no constant evaluation
breaks down, folding constants succeeds. It keeps the shape of every instruction, the module passes
its check, and every instruction that was there evaluates as before. -/
theorem constantFolding_preserves_eval (hb : Built m) (hv : m.validate = .ok ())
    (he : ∀ i, ∃ r, m.eval i = .ok r) :
    (∃ changed, (constantFolding.run m).result = .ok changed) ∧
      (∀ i n, m.get? i = some n → ∃ n', (constantFolding.run m).state.get? i = some n' ∧
        n'.shape = n.shape) ∧
      (constantFolding.run m).state.validate = .ok () ∧
      ∀ i, (m.get? i).isSome → (constantFolding.run m).state.eval i = m.eval i := by
  have h := hb.accepted hv
  choose value he using he
  have hvalue : m.Valuation value :=
    valued_of_eval h.linked h.ordered (fun i _ => he i) fun _ _ _ _ => trivial
  obtain ⟨changed, hchanged, value', hk⟩ := (constantFolding_leaves h hvalue).exists_ok
  have h' := hk.upholds.accepted
  refine ⟨⟨changed, hchanged⟩, hk.upholds.kept, h'.validate, fun i hi => ?_⟩
  rw [hk.valued.eval_eq h'.linked h'.ordered trivial, he i, hk.kept i hi]

/-- A constant that is used by something unknown and by the last instruction, which is constant. -/
private def sharedConstant : Module :=
  Mutation.applyAll (Module.empty "main")
    [.addParameter "x" (.packedOf .float [2]), .addLiteral Operator.pairLiteral,
      .add (.unary .neg) [⟨1⟩], .add (.binary .add) [⟨0⟩, ⟨2⟩], .add (.binary .mul) [⟨2⟩, ⟨1⟩]]

theorem constantFolding_preserves_eval_shared :
    Built sharedConstant ∧ sharedConstant.validate = .ok () ∧
      (∀ i, ∃ r, sharedConstant.eval i = .ok r) ∧
      foldValues sharedConstant sharedConstant.order [] =
        .ok [(⟨2⟩, ⟨.packedOf .float [2], #[-1, -2], by decide⟩),
          (⟨4⟩, ⟨.packedOf .float [2], #[-1, -4], by decide⟩)] ∧
      (∃ changed, (constantFolding.run sharedConstant).result = .ok changed) ∧
      (constantFolding.run sharedConstant).state.validate = .ok () ∧
      (constantFolding.run sharedConstant).state.eval ⟨3⟩ = .ok none ∧
      (constantFolding.run sharedConstant).state.eval ⟨4⟩ =
        .ok (some ⟨.packedOf .float [2], #[-1, -4], by decide⟩) := by
  have hb : Built sharedConstant := (Built.empty "main").applyAll _
  have hv : sharedConstant.validate = .ok () := by decide +kernel
  have hall : ∀ i ∈ sharedConstant.order, (sharedConstant.eval i).isOk = true := by decide +kernel
  have he := exists_eval_of_order hb.linked hall
  obtain ⟨hok, -, hvalid, heval⟩ := constantFolding_preserves_eval hb hv he
  refine ⟨hb, hv, he, by decide +kernel, hok, hvalid, ?_, ?_⟩
  · rw [heval ⟨3⟩ (by decide +kernel)]
    decide +kernel
  · rw [heval ⟨4⟩ (by decide +kernel)]
    decide +kernel

end TensorGraph.Pass
