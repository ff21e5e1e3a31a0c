import TensorGraph.Proofs.Pipeline.Preservation

/-! What optimizing a loaded program keeps at each level: at the lower two every module shows the
same parameters and outputs as before, and the program can be recorded and loaded again. -/
namespace TensorGraph.Program
variable {p q : Program} {m : ModuleId}

/-- The instructions of the modules that the entry of `p` reaches hold the outputs that their
sub-modules show in `q`, and `q` can be recorded and loaded again. -/
structure Coherent (p q : Program) : Prop where
  current : ∀ m ∈ p.reachable, ∀ module i n, q.get? m = some module → module.get? i = some n →
    n.moduleOutputs = n.moduleArgs.map q.outputsOf
  reloads : ∃ r, q.record = .ok r ∧ r.load.result = .ok ()

/-- An instruction keeps the outputs that its sub-modules showed at first. A program that refers to
nothing new is therefore coherent exactly where these sub-modules show the same outputs still. -/
theorem Related.coherent_iff (h : Related Stems p q) (hp : Loaded p)
    (hvalid : ∀ m ∈ p.reachable, ∀ module, q.get? m = some module → module.Valid) :
    Coherent p q ↔
      ∀ m ∈ p.reachable, ∀ sub, q.Refers m sub → q.outputsOf sub = p.outputsOf sub := by
  constructor
  · intro hq m hm sub hsub
    obtain ⟨module, hget⟩ := live_of_refers hsub
    obtain ⟨i, -, n, hn, hsub⟩ := Module.mem_subModules.1 ((refers_of_get? hget).1 hsub)
    obtain ⟨k, hk, rfl⟩ := Module.exists_get?_of_core? hn
    have hfirst := h.moduleOutputs_eq hp hm hget hn
    have hnow : k.core.moduleOutputs = k.core.moduleArgs.map q.outputsOf :=
      hq.current m hm module i k hget hk
    exact List.map_inj_left.1 (hnow.symm.trans hfirst) sub hsub
  · intro houts
    have hcurrent : ∀ m ∈ p.reachable, ∀ module i n, q.get? m = some module →
        module.core? i = some n → n.moduleOutputs = n.moduleArgs.map q.outputsOf := by
      intro m hm module i n hget hn
      rw [h.moduleOutputs_eq hp hm hget hn]
      refine List.map_congr_left fun sub hsub => (houts m hm sub ?_).symm
      exact refers_of_core? hget (hvalid m hm module hget).linked hn hsub
    refine ⟨fun m hm module i n hget hn => ?_, exists_record_load ⟨h.arranged hp, ?_, ?_⟩⟩
    · exact hcurrent m hm module i n.core hget (Module.core?_of_get? hn)
    · exact fun m hm => hvalid m (h.mem_reachable hp hm)
    · exact fun m hm => hcurrent m (h.mem_reachable hp hm)

/-- What optimizing has kept: the modules that the entry reached pass the check and show the same
outputs and parameters, and the program is coherent. -/
structure Preserved (p q : Program) : Prop extends Coherent p q where
  modules : ∀ m ∈ p.reachable, ∃ module module', p.get? m = some module ∧
    q.get? m = some module' ∧ module'.validate = .ok () ∧
      module'.outputShapes = module.outputShapes ∧ module'.parameterShapes = module.parameterShapes

private theorem Related.outputsOf_eq {R : Module → Module → Prop} (h : Related R p q)
    (hr : ∀ a b, R a b → b.outputShapes = a.outputShapes) (m : ModuleId) :
    q.outputsOf m = p.outputsOf m := by
  cases hm : p.get? m with
  | some module =>
    obtain ⟨module', hm', hrel⟩ := h.get? hm
    rw [outputsOf_of_get? hm', outputsOf_of_get? hm, hr _ _ hrel]
  | none =>
    have hnone : q.get? m = none := by
      by_contra hne
      obtain ⟨module', hm'⟩ := Option.ne_none_iff_exists'.1 hne
      obtain ⟨_, hm', -⟩ := h.get?_of_get? hm'
      cases hm.symm.trans hm'
    rw [outputsOf, outputsOf, hm, hnone]

/-- Modules that are kept as they show themselves keep the program. -/
theorem Related.preserved (h : Related (fun a b => b.Typed ∧ a.Keeps b) p q) (hp : Loaded p) :
    Preserved p q := by
  have hstems : Related Stems p q := h.mono fun _ _ hab => ⟨hab.2.name, hab.2.modules⟩
  have houts := h.outputsOf_eq fun _ _ hab => hab.2.outputs
  refine ⟨(hstems.coherent_iff hp fun m _ module' hget' => ?_).2 fun _ _ sub _ => houts sub,
    fun m hm => ?_⟩
  · obtain ⟨_, -, htyped, -⟩ := h.get?_of_get? hget'
    exact htyped.toValid
  · obtain ⟨module, hget⟩ :=
      Option.isSome_iff_exists.1 ((reachable_extended hp.toArranged).listed.live hm)
    obtain ⟨module', hget', htyped, hkeeps⟩ := h.get? hget
    exact ⟨module, module', hget, hget', htyped.validate, hkeeps.outputs, hkeeps.parameters⟩

end TensorGraph.Program

namespace TensorGraph.Pipeline
open TensorGraph.Action Program
variable {p q : Program} {level : Level}

/-- The passes of the lower levels keep the shapes of a module. -/
theorem schedule_subset_simplifying (h : level ≠ .full) :
    ∀ pass ∈ (ofLevel level).schedule, pass ∈ Pass.simplifying := by
  intro pass hpass
  have hsweep : Pass.deadCode ∈ Pass.simplifying := by simp [Pass.simplifying]
  rcases List.mem_append.1 hpass with hpass | hpass
  · cases level with
    | sweep => cases hpass
    | simplify => exact hpass
    | full => exact absurd rfl h
  · exact List.mem_singleton.1 hpass ▸ hsweep

/-- A pass that keeps the shapes of a module leaves one that passes the check. -/
theorem runPass_keeps {pipeline : Pipeline} {pass : Pass} {m : Module}
    (hpass : pass ∈ Pass.simplifying) (h : m.Typed) :
    (pipeline.runPass pass).Leaves m (fun _ m' => m'.Typed ∧ m.Keeps m')
      (fun e m' => ∃ f, e = .broken f ∧ m'.ConstantFault f) := by
  refine (runPass_leaves (Pass.run_keeps hpass h)).mono (fun _ _ hm' => hm'.1) ?_
  rintro e m' (⟨_, ⟨f, rfl, hf⟩, rfl⟩ | ⟨⟨_, hm', -⟩, cause, hv, -⟩)
  · exact ⟨f, rfl, hf⟩
  · cases hm'.validate.symm.trans hv

/-- The lower levels keep a loaded program, unless an operator breaks down on constant arguments. -/
theorem optimize_leaves {r : ProgramRecord} (hr : r.Made) (hload : r.load.result = .ok ())
    (hlevel : level ≠ .full) :
    (optimize level).Leaves r.load.state (fun _ q => Preserved r.load.state q)
      fun e q => ∃ m ∈ r.load.state.reachable, ∃ module, q.get? m = some module ∧
        ∃ f, e = .broken f ∧ module.ConstantFault f := by
  have hp := ProgramRecord.loaded_of_load hload
  have htyped : ∀ m module, r.load.state.get? m = some module → module.Typed := fun m module hm =>
    ProgramRecord.typed_of_load hr hload hm
  refine (run_leaves (R := fun a b => b.Typed ∧ a.Keeps b) hp.toArranged
    (fun m module hm => ⟨htyped m module hm, .refl module⟩) fun pass hpass m _ module module' _ hkept => ?_).imp
      fun _ q hq => hq.preserved hp
  refine (runPass_keeps (schedule_subset_simplifying hlevel pass hpass) hkept.1).imp fun _ left hleft => ?_
  exact ⟨hleft.1, hkept.2.trans hleft.2⟩

/-- A program that was loaded is optimized at the lower levels unless an operator breaks down on
constant arguments, and it is kept. -/
theorem optimize_preserves {r : ProgramRecord} (hr : r.Made) (hload : r.load.result = .ok ())
    (hlevel : level = .sweep ∨ level = .simplify) :
    let run := (optimize level).run r.load.state
    (∃ changed, run.result = .ok changed) ∧ Preserved r.load.state run.state ∨
      ∃ f, run.result = .error (.broken f) ∧ ∃ m ∈ r.load.state.reachable, ∃ module,
        run.state.get? m = some module ∧ module.ConstantFault f := by
  have hne : level ≠ .full := by rcases hlevel with rfl | rfl <;> decide
  have h := optimize_leaves hr hload hne
  intro run
  cases hrun : run.result with
  | ok changed => exact .inl ⟨⟨changed, rfl⟩, h.ok hrun⟩
  | error e =>
    obtain ⟨m, hm, module, hget, f, rfl, hf⟩ := h.error hrun
    exact .inr ⟨f, rfl, m, hm, module, hget, hf⟩

/-- Two branches with transposed outputs, in which an identity and two negations can go. -/
def branching : ProgramRecord :=
  { modules := [
      { name := "yes"
        instructions := [
          { op := .parameter "x" { elementType := .float, lens := [2, 3], strides := [1, 2] } },
          { op := .identity, inputs := [0] },
          { op := .output, inputs := [1] }] },
      { name := "no"
        instructions := [
          { op := .parameter "x" { elementType := .float, lens := [2, 3], strides := [1, 2] } },
          { op := .unary .neg, inputs := [0] },
          { op := .unary .neg, inputs := [1] }] },
      { name := "main"
        instructions := [
          { op := .parameter "c" (.packedOf .bool [1]) },
          { op := .branch, inputs := [0], modules := ["yes", "no"] },
          { op := .getTupleElem 0, inputs := [1] },
          { op := .output, inputs := [2] }] }] }

private theorem branching_made : branching.Made := by
  rintro op ⟨m, hm, i, hi, rfl⟩
  simp only [branching, List.mem_cons, List.not_mem_nil, or_false] at hm
  rcases hm with rfl | rfl | rfl <;> simp only [List.mem_cons, List.not_mem_nil, or_false] at hi
  all_goals rcases hi with rfl | rfl | rfl | rfl
  all_goals first | trivial | exact Shape.made_of_static rfl rfl rfl

private theorem load_branching : branching.load.result = .ok () := by
  unfold ProgramRecord.load ProgramRecord.build ModuleRecord.buildInto Program.insertWithModules
    Program.checkReferences
  simp only [Program.reaches_eq_getD 8]
  decide +kernel

private theorem optimize_branching :
    ((optimize .simplify).run branching.load.state).result = .ok true := by
  unfold branching ProgramRecord.load ProgramRecord.build ModuleRecord.buildInto
    Program.insertWithModules Program.checkReferences optimize ofLevel run schedule Level.schedule
    Pass.identity Pass.Identity.forward Pass.algebra Pass.Algebra.neutral Pass.Algebra.doubleNegation
    Pass.Algebra.keepOperand Pass.replaceKeepingShape Pass.deadCode Pass.DeadCode.runWith
    Module.replaceWith Module.checkRedirect Module.replace Module.checkReplace
  simp only [Program.reaches_eq_getD 8, Module.dependsOn_eq_getD 8,
    Pass.DeadCode.collectFrom_eq_foldlM, Pass.DeadCode.collect_eq_collectUpTo 8]
  decide +kernel

theorem optimize_preserves_branching :
    branching.Made ∧ branching.load.result = .ok () ∧
      ((optimize .simplify).run branching.load.state).result = .ok true ∧
      Preserved branching.load.state ((optimize .simplify).run branching.load.state).state := by
  refine ⟨branching_made, load_branching, optimize_branching, ?_⟩
  rcases optimize_preserves branching_made load_branching (.inr rfl) with ⟨-, h⟩ | ⟨f, hf, -⟩
  · exact h
  · cases optimize_branching.symm.trans hf

end TensorGraph.Pipeline
