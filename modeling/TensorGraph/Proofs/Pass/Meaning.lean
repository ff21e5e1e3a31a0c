import TensorGraph.Proofs.Module.Built
import TensorGraph.Proofs.Module.Validation
import TensorGraph.Proofs.Pass.Layout

/-! The passes that keep what a module computes, however edits have built it. -/
namespace TensorGraph.Pass
open TensorGraph.Module

/-- In a valid module, every instruction finds the values of its inputs. Forwarding identities,
merging common subexpressions and removing dead code keep the values of the outputs, and so does
mending layouts where the instructions that get row-major copies refer to no sub-modules. -/
theorem outputValues_run {m : Module} (hb : Built m) (hv : m.validate = .ok ()) {V : Type}
    (I : Interpretation V) (params : String → V) :
    ∃ vs, m.outputValues I params = some vs ∧
      (∀ pass ∈ [identity, commonSubexpression, deadCode], ∀ changed,
        (pass.run m).result = .ok changed → (pass.run m).state.outputValues I params = some vs) ∧
      (MendedPlain m → ∀ changed, (contiguous.run m).result = .ok changed →
        (contiguous.run m).state.outputValues I params = some vs) := by
  obtain ⟨ho, -⟩ := (validate_eq_ok hb.linked).1 hv
  obtain ⟨v, hval⟩ := exists_valuation I params hb.linked ho
  have h : Computes I params m v (m.outputs.map v) := ⟨hb.linked, ho, hval, rfl⟩
  refine ⟨_, h.outputValues, fun pass hp changed hr => ?_, fun hm changed hr => ?_⟩
  · simp only [List.mem_cons, List.not_mem_nil, or_false] at hp
    rcases hp with rfl | rfl | rfl
    · exact ((identity_computes h).ok hr).outputValues
    · exact ((commonSubexpression_computes h).ok hr).outputValues
    · exact ((deadCode_computes h).ok hr).outputValues
  · obtain ⟨v', h'⟩ := (contiguous_computes h hm).ok hr
    exact h'.outputValues

/-- An interpretation that lets single values pass and tells apart lists of sub-modules. -/
def countingModules : Interpretation Nat where
  apply _ subs vs := vs.foldr (· + ·) (if vs.length = 1 then 0 else subs.length)
  apply_congr _ _ _ _ _ := rfl
  apply_identity _ _ := rfl
  apply_contiguous _ _ := rfl

/-- An identity, two equal instructions, a dead one, a product of inputs that are not row-major, and one
of row-major inputs that refers to a sub-module. -/
theorem outputValues_run_transposed :
    let s : Shape := { elementType := .float, lens := [2, 2], strides := [1, 2] }
    let start := Mutation.applyAll (Module.empty "main")
      [.addParameter "x" s, .addParameter "y" (.packedOf .float [2, 2]), .add .identity [⟨0⟩],
        .add (.unary .relu) [⟨2⟩], .add (.unary .relu) [⟨2⟩], .add (.unary .exp) [⟨0⟩],
        .add .dot [⟨3⟩, ⟨4⟩]]
    let m := Mutation.applyAll
      (Module.insertWithModules none .dot [⟨1⟩, ⟨1⟩] [⟨1⟩] [[]] start).state
      [.add (.binary .add) [⟨6⟩, ⟨7⟩]]
    Built m ∧ m.validate = .ok () ∧ MendedPlain m ∧ (contiguous.run m).result = .ok true ∧
      (m.get? ⟨7⟩).map Instruction.moduleArgs = some [⟨1⟩] ∧
      ∃ vs, m.outputValues countingModules (fun _ => 3) = some vs ∧
        (∀ pass ∈ [identity, commonSubexpression, deadCode], ∀ changed,
          (pass.run m).result = .ok changed →
            (pass.run m).state.outputValues countingModules (fun _ => 3) = some vs) ∧
        (MendedPlain m → ∀ changed, (contiguous.run m).result = .ok changed →
          (contiguous.run m).state.outputValues countingModules (fun _ => 3) = some vs) := by
  intro s start m
  have hb : Built m := (Built.insert ((Built.empty "main").applyAll _) ..).applyAll _
  have hv : m.validate = .ok () := by decide +kernel
  refine ⟨hb, hv, by decide +kernel, ?_, by decide +kernel,
    outputValues_run hb hv countingModules fun _ => 3⟩
  unfold contiguous Contiguous.mendInputs Contiguous.mendOutputs replaceOutput replace checkReplace
  simp only [dependsOn_eq_getD 16]
  decide +kernel

/-- A product that refers to a sub-module loses it when its inputs are copied. -/
theorem contiguous_forgets_modules :
    let s : Shape := { elementType := .float, lens := [2, 2], strides := [1, 2] }
    let m := (Module.insertWithModules none .dot [⟨0⟩, ⟨0⟩] [⟨1⟩] [[]]
      (Module.addParameter "x" s (Module.empty "main")).state).state
    Built m ∧ m.validate = .ok () ∧ (contiguous.run m).result = .ok true ∧
      m.outputValues countingModules (fun _ => 3) = some [7] ∧
        (contiguous.run m).state.outputValues countingModules (fun _ => 3) = some [6] := by
  refine ⟨.insert (.edit (.empty "main") (.addParameter "x" _)) .., by decide, ?_, by decide, ?_⟩
  all_goals
    unfold contiguous Contiguous.mendInputs Contiguous.mendOutputs replaceOutput replace checkReplace
    simp only [dependsOn_eq_getD 8]
    decide +kernel

end TensorGraph.Pass
