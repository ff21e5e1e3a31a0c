import TensorGraph.Proofs.Pass.Derived
import TensorGraph.Proofs.Pipeline.Levels

/-! Control flow holds the outputs that its sub-modules had when the program was loaded, at every
level. Where optimizing changes the outputs of a sub-module, what refers to it is out of date, and
the program may not be loaded again. -/
namespace TensorGraph.Pipeline
open TensorGraph.Action Program
variable {p q : Program} {level : Level}

private theorem schedule_subset_full (level : Level) :
    ∀ pass ∈ (ofLevel level).schedule, pass ∈ Level.full.schedule := by
  intro pass hpass
  rcases List.mem_append.1 hpass with hpass | hpass
  · cases level with
    | sweep => cases hpass
    | simplify =>
      simp only [ofLevel, Level.schedule, List.mem_cons, List.not_mem_nil, or_false] at hpass ⊢
      tauto
    | full => exact hpass
  · rw [List.mem_singleton.1 hpass]
    simp [Level.schedule]

/-- At every level, a run that ends well leaves valid modules, derived from those that were
loaded. -/
theorem optimize_derived (hp : Loaded p) (level : Level) :
    (optimize level).Leaves p
      (fun _ q => Related (fun a b => a.Derived b ∧ b.Valid) p q) fun _ _ => True := by
  refine (run_leaves (E := fun _ _ => True) hp.toArranged (fun m module hm => ?_)
    fun pass hpass m hm module module' hget hr => ?_).mono (fun _ _ hq => hq) fun _ _ _ => trivial
  · exact ⟨(hp.valid m module hm).derived, hp.valid m module hm⟩
  · refine (runPass_leaves (Pass.run_derived (schedule_subset_full level pass hpass) hr.2 hr.1)).mono
      (fun _ left hleft => ?_) fun _ _ _ => trivial
    exact ⟨hleft.1, hleft.1.valid (hleft.2 rfl)⟩

/-- Where a loaded program is optimized, the instructions of its modules hold the outputs that their
sub-modules had when it was loaded. So they hold the present ones, and the program can be recorded
and loaded again, exactly where no sub-module that is still referred to shows other outputs than
before. The lower levels change no outputs. -/
theorem optimize_coherent_iff {r : ProgramRecord} (hload : r.load.result = .ok ()) {changed : Bool}
    (hrun : ((optimize level).run r.load.state).result = .ok changed) :
    let p := r.load.state
    let q := ((optimize level).run p).state
    (∀ m ∈ p.reachable, ∀ module i n, q.get? m = some module → module.get? i = some n →
      n.moduleOutputs = n.moduleArgs.map p.outputsOf) ∧
    (Coherent p q ↔
      ∀ m ∈ p.reachable, ∀ sub, q.Refers m sub → q.outputsOf sub = p.outputsOf sub) ∧
    (level ≠ .full → r.Made → Coherent p q) := by
  intro p q
  have hp := ProgramRecord.loaded_of_load hload
  have hrel : Related (fun a b => a.Derived b ∧ b.Valid) p q := (optimize_derived hp level).ok hrun
  have hstems : Related Stems p q := hrel.mono fun _ _ hab => ⟨hab.1.name, hab.1.modules⟩
  refine ⟨fun m hm module i n hget hn => ?_, hstems.coherent_iff hp fun m _ module hget => ?_,
    fun hlevel hr => ?_⟩
  · exact hstems.moduleOutputs_eq (n := n.core) hp hm hget (Module.core?_of_get? hn)
  · obtain ⟨_, -, -, hvalid⟩ := hrel.get?_of_get? hget
    exact hvalid
  · exact ((optimize_leaves hr hload hlevel).ok hrun).toCoherent

/-- A loop that hands a tensor of a given shape from one iteration to the next. -/
def carrying (x : Shape) : ProgramRecord :=
  { modules := [
      { name := "body"
        instructions := [
          { op := .parameter "c" (.packedOf .bool [1]) },
          { op := .parameter "x" x },
          { op := .identity, inputs := [1] },
          { op := .output, inputs := [0, 2] }] },
      { name := "main"
        instructions := [
          { op := .parameter "n" (.packedOf .int64 [1]) },
          { op := .parameter "c" (.packedOf .bool [1]) },
          { op := .parameter "x" x },
          { op := .loop 4, inputs := [0, 1, 2], modules := ["body"] }] }] }

def rowMajor : Shape := .packedOf .float [2, 3]

def transposed : Shape := { elementType := .float, lens := [2, 3], strides := [1, 2] }

private theorem load_carrying : ∀ x ∈ [rowMajor, transposed], (carrying x).load.result = .ok () := by
  unfold ProgramRecord.load ProgramRecord.build ModuleRecord.buildInto Program.insertWithModules
    Program.checkReferences
  simp only [Program.reaches_eq_getD 8]
  decide +kernel

/-- The loop, optimized. -/
def carried (x : Shape) : Outcome PipelineFailure Program Bool :=
  (optimize .full).run (carrying x).load.state

/-- The carried tensor stays row-major, or becomes so in the body alone. -/
private theorem carried_spec :
    (∀ x ∈ [rowMajor, transposed], (carried x).result = .ok true) ∧
    (∀ m ∈ (carrying rowMajor).load.state.reachable, ∀ sub ∈ (carried rowMajor).state.subModulesOf m,
      (carried rowMajor).state.outputsOf sub = (carrying rowMajor).load.state.outputsOf sub) ∧
    (((carried transposed).state.get? (carried transposed).state.main).bind (·.get? ⟨3⟩)).map (fun n =>
        (n.moduleOutputs, n.moduleArgs.map (carried transposed).state.outputsOf)) =
      some ([[.packedOf .bool [1], transposed]], [[.packedOf .bool [1], rowMajor]]) ∧
    (do (← (carried transposed).state.record).load.result : Except Failure Unit) =
      .error (.refused (.shape "loop" .carriedMismatch)) := by
  unfold carried ProgramRecord.load ProgramRecord.build ModuleRecord.buildInto
    Program.insertWithModules Program.checkReferences optimize ofLevel run schedule Level.schedule
    Pass.identity Pass.Identity.forward Pass.deadCode Pass.DeadCode.runWith Pass.contiguous
    Pass.Contiguous.mendOutputs Module.replaceOutput Module.replaceWith Module.checkRedirect
    Module.replace Module.checkReplace
  simp only [Program.reaches_eq_getD 8, Module.dependsOn_eq_getD 8,
    Pass.DeadCode.collectFrom_eq_foldlM, Pass.DeadCode.collect_eq_collectUpTo 8]
  decide +kernel

/-- A row-major tensor is handed on as before. -/
theorem optimize_coherent_rowMajor :
    (carrying rowMajor).load.result = .ok () ∧ (carried rowMajor).result = .ok true ∧
      Coherent (carrying rowMajor).load.state (carried rowMajor).state := by
  have hload := load_carrying rowMajor (by simp)
  have hrun := carried_spec.1 rowMajor (by simp)
  exact ⟨hload, hrun, (optimize_coherent_iff hload hrun).2.1.2 carried_spec.2.1⟩

/-- The outputs of the body become row-major. The loop still holds the transposed ones and is given
a transposed tensor, so that the program cannot be loaded again. -/
theorem loop_out_of_date :
    (carrying transposed).load.result = .ok () ∧ (carried transposed).result = .ok true ∧
    (((carried transposed).state.get? (carried transposed).state.main).bind (·.get? ⟨3⟩)).map (fun n =>
        (n.moduleOutputs, n.moduleArgs.map (carried transposed).state.outputsOf)) =
      some ([[.packedOf .bool [1], transposed]], [[.packedOf .bool [1], rowMajor]]) ∧
    (do (← (carried transposed).state.record).load.result : Except Failure Unit) =
      .error (.refused (.shape "loop" .carriedMismatch)) :=
  ⟨load_carrying transposed (by simp), carried_spec.1 transposed (by simp), carried_spec.2.2⟩

end TensorGraph.Pipeline
