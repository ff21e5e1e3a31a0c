import TensorGraph.Proofs.Pass.Derived
import TensorGraph.Proofs.Pipeline.Preservation

/-! A pass that reports no change has left its module as it was, with all that is stored and the
order, and so has a whole schedule with its program. Nothing has to be known about the module. -/
namespace TensorGraph

namespace Rule
open TensorGraph.Action

private theorem applyFirst_truthful {rules : List Rule}
    (h : ∀ rule ∈ rules, ∀ r, (rule.apply r).Truthful)
    (i : InstructionId) : (applyFirst rules i).Truthful := by
  induction rules with
  | nil => exact .pure false
  | cons rule rules ih =>
    obtain ⟨hrule, hrules⟩ := List.forall_mem_cons.1 h
    refine .get fun m => .liftFault fun found => ?_
    cases found with
    | some r => exact hrule r
    | none => exact ih hrules

/-- Where no rule was applied, nothing has changed. -/
theorem sweepOver_zero {rules : List Rule} (h : ∀ rule ∈ rules, ∀ r, (rule.apply r).Truthful)
    (is : List InstructionId) (m : Module) :
    (sweepOver rules is).Leaves m (fun count m' => count = 0 → m' = m) fun _ _ => True := by
  induction is generalizing m with
  | nil => exact fun _ => rfl
  | cons i rest ih =>
    simp only [sweepOver, leaves_bind, leaves_get]
    split
    · simp only [leaves_bind, leaves_pure]
      refine (applyFirst_truthful h i m).imp fun applied m₁ h₁ => (ih m₁).imp fun others m₂ h₂ hz => ?_
      cases applied with
      | false => exact (h₂ hz).trans (h₁ rfl)
      | true => cases hz
    · simp only [leaves_bind, leaves_pure]
      exact ih m

end Rule

namespace Pass
open TensorGraph.Action TensorGraph.Module

private theorem ofRules_truthful {name : String} {rules : List Rule}
    (h : ∀ rule ∈ rules, ∀ r, (rule.apply r).Truthful) : (ofRules name rules).run.Truthful := by
  intro m
  simp only [ofRules, Rule.sweep, leaves_bind, leaves_get, leaves_pure]
  refine (Rule.sweepOver_zero h m.order m).imp fun count m' hm' hfalse => hm' ?_
  simpa using hfalse

private theorem quantize_affirms (r : Match) : (Quantization.quantize.apply r).Affirms := by
  unfold Quantization.quantize
  refine .bind fun _ => .bind fun n => .bind fun _ => .bind fun _ => .bind fun _ => .bind fun _ =>
    .bind fun _ => .bind fun _ => ?_
  extract_lets finish
  have hfinish : ∀ shifted, (finish shifted).Affirms := fun _ =>
    .bind fun _ => .bind fun _ => .bind fun _ => .bind fun _ => .bind fun _ => .pure
  split
  · exact .bind fun _ => .bind hfinish
  · exact .bind hfinish

private theorem dequantize_affirms (r : Match) : (Quantization.dequantize.apply r).Affirms := by
  unfold Quantization.dequantize
  refine .bind fun _ => .bind fun n => .bind fun _ => .bind fun _ => .bind fun _ => .bind fun _ => ?_
  extract_lets finish
  have hfinish : ∀ shifted, (finish shifted).Affirms := fun _ => .bind fun _ => .bind fun _ => .pure
  split
  · exact .bind fun _ => .bind hfinish
  · exact .bind hfinish

private theorem quantization_truthful : quantization.run.Truthful :=
  ofRules_truthful (by simpa using ⟨fun r => (quantize_affirms r).truthful,
    fun r => (dequantize_affirms r).truthful⟩)

private theorem gelu_truthful : gelu.run.Truthful := by
  refine ofRules_truthful (List.forall_mem_singleton.2 fun r => ?_)
  refine .liftFault fun x => .get fun m => .liftFault fun n => .ite ?_ ?_
  · exact .report fun _ => .pure false
  · exact Affirms.truthful <| .bind fun scale => .bind fun k => .bind fun kx => .bind fun sigmoid =>
      .bind fun gelu => .bind fun _ => .pure

private theorem layernorm_truthful : layernorm.run.Truthful := by
  refine ofRules_truthful (List.forall_mem_singleton.2 fun r => ?_)
  refine .get fun m => .liftFault fun x => .liftFault fun n => .liftFault fun mean =>
    .liftFault fun var => .liftFault fun a => .liftFault fun b => .ite ?_ ?_
  · exact .report fun _ => .pure false
  refine .liftFault fun eps => .liftFault fun value => ?_
  split
  · exact .pure false
  · refine .ite (.report fun _ => .pure false) ?_
    exact Affirms.truthful <| .bind fun normalized => .bind fun _ => .pure

private theorem identity_truthful : identity.run.Truthful := by
  refine .get fun m => .anyOf fun i _ => .get fun m => .liftFault fun n => ?_
  split
  · exact .ite (.pure false) (Affirms.truthful <| .bind fun _ => .pure)
  · exact .pure false

private theorem conversion_truthful : conversion.run.Truthful := by
  refine ofRules_truthful (List.forall_mem_cons.2 ⟨fun r => ?_, List.forall_mem_singleton.2 fun r => ?_⟩)
  · refine .get fun m => .liftFault fun source => .liftFault fun n => .liftFault fun k => ?_
    exact .ite (Affirms.truthful <| .bind fun _ => .pure) (Affirms.truthful <| .bind fun _ => .pure)
  · exact .get fun m => .liftFault fun n => .liftFault fun input =>
      Affirms.truthful <| .bind fun _ => .pure

private theorem padding_truthful : padding.run.Truthful := by
  refine .get fun m => .anyOf fun i _ => .get fun m => .liftFault fun r => ?_
  split
  · exact .pure false
  · exact Affirms.truthful <| .bind fun _ => .pure

private theorem keepOperand_truthful (r : Match) : (Algebra.keepOperand r).Truthful :=
  .liftFault fun _ => .get fun _ => .liftFault fun _ => .liftFault fun _ =>
    .ite (Affirms.truthful <| .bind fun _ => .pure) <| .liftFault fun _ =>
      .ite (.pure false) <| .ite (.pure false) <|
        Affirms.truthful <| .bind fun _ => .bind fun _ => .pure

private theorem algebra_truthful : algebra.run.Truthful := by
  refine ofRules_truthful fun rule hrule r => ?_
  simp only [List.mem_cons, List.not_mem_nil, or_false] at hrule
  rcases hrule with rfl | rfl | rfl | rfl | rfl <;> exact keepOperand_truthful r

private theorem constantFolding_truthful : constantFolding.run.Truthful := by
  refine .get fun m => .liftFault fun folds => ?_
  cases folds with
  | nil => exact .bind (fun _ => .pure _) fun _ => .pure _
  | cons p rest => exact Affirms.truthful <| .bind fun _ => .pure

/-- A merge is always reported, whatever looking at the users again says. -/
theorem mergeAll_truthful (again : List InstructionId → Module.Edit Bool)
    (seen : CommonSubexpression.Seen) (is : List InstructionId) :
    (CommonSubexpression.mergeAll again seen is).Truthful := by
  induction is generalizing seen with
  | nil => exact .pure false
  | cons i rest ih =>
    unfold CommonSubexpression.mergeAll
    refine .get fun m => ?_
    split
    · exact ih seen
    refine .ite (ih seen) ?_
    split
    · exact ih _
    · exact Affirms.truthful <| .bind fun _ => .bind fun m => .bind fun _ => .bind fun _ => .pure

private theorem commonSubexpression_truthful : commonSubexpression.run.Truthful :=
  .get fun _ => mergeAll_truthful _ _ _

private theorem contiguous_truthful : contiguous.run.Truthful := by
  have hinputs : ∀ i, (Contiguous.mendInputs i).Truthful := fun i =>
    .get fun m => .liftFault fun n => .ite (.pure false) <|
      .bind (fun _ => allMended_maintains _) fun _ => .ite (.pure false) <|
        Affirms.truthful <| .bind fun inputs => .bind fun _ => .pure
  have houtputs : Contiguous.mendOutputs.Truthful := by
    refine .get fun m => ?_
    split
    · exact .bind (fun _ => allMended_maintains _) fun _ => .ite (.pure false) <|
        Affirms.truthful <| .bind fun mended => .bind fun _ => .pure
    · split
      · exact .bind (fun _ => isMended_maintains _) fun _ => .ite (.pure false) <|
          Affirms.truthful <| .bind fun _ => .pure
      · exact .pure false
  exact .get fun m => .or (.anyOf fun i _ => hinputs i) houtputs

/-- The passes have different names, so that none takes the place of another. -/
theorem builtin_passes : Registry.builtin.passes = [deadCode, contiguous, conversion, padding,
    identity, commonSubexpression, constantFolding, algebra, quantization, gelu, layernorm] :=
  rfl

private theorem builtin_truthful {pass : Pass} (h : pass ∈ Registry.builtin.passes) :
    pass.run.Truthful := by
  simp only [builtin_passes, List.mem_cons, List.not_mem_nil, or_false] at h
  rcases h with rfl | rfl | rfl | rfl | rfl | rfl | rfl | rfl | rfl | rfl | rfl
  · exact DeadCode.runWith_truthful _
  · exact contiguous_truthful
  · exact conversion_truthful
  · exact padding_truthful
  · exact identity_truthful
  · exact commonSubexpression_truthful
  · exact constantFolding_truthful
  · exact algebra_truthful
  · exact quantization_truthful
  · exact gelu_truthful
  · exact layernorm_truthful

end Pass

namespace Pipeline
open TensorGraph.Action
variable {pipeline : Pipeline} {pass : Pass}

private theorem runPass_truthful (h : pass.run.Truthful) :
    (pipeline.runPass pass).Truthful := fun m =>
  (runPass_leaves (h m)).mono (fun _ _ hm' => hm'.1) fun _ _ _ => trivial

private theorem runPassOn_truthful (h : pass.run.Truthful) (m : ModuleId) :
    (pipeline.runPassOn pass m).Truthful := by
  intro p
  cases hget : p.get? m with
  | none =>
    exact (Program.leaves_onModule_of_none hget _ _).mono (fun _ _ hf => hf.elim) fun _ _ _ => trivial
  | some module =>
    rw [runPassOn, Program.leaves_onModule hget]
    refine (runPass_truthful h module).imp fun changed module' hsame hfalse => ?_
    rw [hsame hfalse]
    exact Program.put_eq_self hget

private theorem schedule_truthful (h : ∀ pass ∈ pipeline.passes, pass ∈ Registry.builtin.passes) :
    ∀ pass ∈ pipeline.schedule, pass.run.Truthful := by
  intro pass hpass
  rcases List.mem_append.1 hpass with hpass | hpass
  · exact Pass.builtin_truthful (h pass hpass)
  · have hlast : pass = Pass.deadCode := by
      split at hpass
      · exact List.mem_singleton.1 hpass
      · cases hpass
    exact hlast ▸ Pass.DeadCode.runWith_truthful _

/-- A pass of the library that reports no change has left the module as it was, and a schedule of
such passes that reports none has left the module or the program it ran on as it was. -/
theorem unchanged_of_reported :
    (∀ pass ∈ Registry.builtin.passes, ∀ m : Module,
      (pass.run m).result = .ok false → (pass.run m).state = m) ∧
    ∀ pipeline : Pipeline, (∀ pass ∈ pipeline.passes, pass ∈ Registry.builtin.passes) →
      (∀ m : Module, (pipeline.runModule m).result = .ok false →
        (pipeline.runModule m).state = m) ∧
      ∀ p : Program, (pipeline.run p).result = .ok false → (pipeline.run p).state = p := by
  refine ⟨fun pass hpass m => (Pass.builtin_truthful hpass).unchanged, fun pipeline hp => ?_⟩
  have hpasses := schedule_truthful hp
  refine ⟨fun m => ?_, fun p => ?_⟩
  · have hmodule : pipeline.runModule.Truthful := .anyOf fun pass hpass =>
      runPass_truthful (hpasses pass hpass)
    exact hmodule.unchanged
  · have hprogram : pipeline.run.Truthful := .get fun p => .anyOf fun pass hpass =>
      .anyOf fun m _ => runPassOn_truthful (hpasses pass hpass) m
    exact hprogram.unchanged

/-- A body in which no pass finds anything to do: only a parameter has no use, and the constant is
used together with what varies. -/
def settledBody : ModuleRecord where
  name := "body"
  instructions := [
    { op := .parameter "c" (.packedOf .bool [1]) },
    { op := .parameter "x" (.packedOf .float [2]) },
    { op := .literal Operator.pairLiteral },
    { op := .binary .add, inputs := [1, 2] },
    { op := .parameter "unused" (.packedOf .float [2]) },
    { op := .output, inputs := [0, 3] }]

/-- A loop with that body. -/
def settled : ProgramRecord where
  modules := [settledBody,
    { name := "main"
      instructions := [
        { op := .parameter "n" (.packedOf .int64 [1]) },
        { op := .parameter "c" (.packedOf .bool [1]) },
        { op := .parameter "x" (.packedOf .float [2]) },
        { op := .loop 4, inputs := [0, 1, 2], modules := ["body"] }] }]

private theorem settled_spec :
    settled.load.result = .ok () ∧
      (Pass.deadCode.run settledBody.load.state).result = .ok false ∧
      ((ofLevel .full).runModule settledBody.load.state).result = .ok false ∧
      ((ofLevel .full).run settled.load.state).result = .ok false := by
  unfold ProgramRecord.load ProgramRecord.build ModuleRecord.buildInto
    Program.insertWithModules Program.checkReferences ofLevel run runModule schedule Level.schedule
    Pass.deadCode Pass.DeadCode.runWith
  simp only [Program.reaches_eq_getD 8, Pass.DeadCode.collectFrom_eq_foldlM,
    Pass.DeadCode.collect_eq_collectUpTo 8]
  decide +kernel

/-- All passes go over both modules, and the dead-code pass finds a parameter that it keeps. -/
theorem unchanged_of_reported_settled :
    let body := settledBody.load.state
    let p := settled.load.state
    settled.load.result = .ok () ∧
      ((Pass.deadCode.run body).result = .ok false ∧ (Pass.deadCode.run body).state = body) ∧
      (((ofLevel .full).runModule body).result = .ok false ∧
        ((ofLevel .full).runModule body).state = body) ∧
      ((ofLevel .full).run p).result = .ok false ∧ ((ofLevel .full).run p).state = p := by
  intro body p
  obtain ⟨hload, hpass, hmodule, hprogram⟩ := settled_spec
  have hbuiltin : ∀ pass ∈ (ofLevel .full).passes, pass ∈ Registry.builtin.passes := by
    simp [ofLevel, Level.schedule, Pass.builtin_passes]
  obtain ⟨hmodules, hprograms⟩ := unchanged_of_reported.2 (ofLevel .full) hbuiltin
  refine ⟨hload, ⟨hpass, ?_⟩, ⟨hmodule, hmodules body hmodule⟩, hprogram, hprograms p hprogram⟩
  exact unchanged_of_reported.1 Pass.deadCode (by simp [Pass.builtin_passes]) body hpass

end Pipeline
end TensorGraph
