import TensorGraph.Proofs.Module.Built
import TensorGraph.Proofs.Program.Loading

/-! An edit that fails changes nothing: neither the module it was made on, however that was built, nor
the program. -/
namespace TensorGraph.Module
open TensorGraph.Action
variable {m : Module}

private theorem atomic_of_leaves {α : Type} {x : Edit α} {Q : α → Module → Prop}
    (h : x.Leaves m Q fun _ m' => m' = m) : x.Atomic m :=
  h.atomic fun _ _ he => he

/-- Every edit of the module, with any arguments, is carried out or leaves the module as it is. -/
structure AtomicEdits (m : Module) : Prop where
  add : ∀ op inputs, (Module.add op inputs).Atomic m
  insert : ∀ before op inputs, (Module.insert before op inputs).Atomic m
  addParameter : ∀ name shape, (Module.addParameter name shape).Atomic m
  addOutput : ∀ outputs, (Module.addOutput outputs).Atomic m
  replaceOutput : ∀ outputs, (Module.replaceOutput outputs).Atomic m
  renameParameter : ∀ old new, (Module.renameParameter old new).Atomic m
  replace : ∀ old op inputs, (Module.replace old op inputs).Atomic m
  replaceWith : ∀ old new, (Module.replaceWith old new).Atomic m
  remove : ∀ i, (Module.remove i).Atomic m
  removeAfter : ∀ last, (Module.removeAfter last).Atomic m
  clearInputs : ∀ i, (Module.clearInputs i).Atomic m
  moveBefore : ∀ i before, (Module.moveBefore i before).Atomic m
  moveToEnd : ∀ i, (Module.moveToEnd i).Atomic m

/-- Most edits check everything before they change anything. Removing a tail and moving an instruction
do not, but in a linked module what they look up late is always there. -/
theorem Linked.atomicEdits (hl : Linked m) : AtomicEdits m where
  add op inputs := atomic_of_leaves (add_placed op inputs m)
  insert before op inputs := atomic_of_leaves (insertWithModules_placed (some before) op inputs [] [] m)
  addParameter name shape := atomic_of_leaves (addParameter_placed name shape m)
  addOutput outputs := atomic_of_leaves (add_placed .output outputs m)
  replaceOutput outputs := atomic_of_leaves (replaceOutput_change outputs m)
  renameParameter old new := atomic_of_leaves (renameParameter_change old new m)
  replace old op inputs := atomic_of_leaves (replace_change old op inputs m)
  replaceWith old new := atomic_of_leaves (replaceWith_change old new m)
  remove i := atomic_of_leaves (remove_change i m)
  removeAfter last := atomic_of_leaves (removeAfter_change hl last)
  clearInputs i := atomic_of_leaves (clearInputs_change i m)
  moveBefore i before := (moveBefore_leaves hl i before).atomic fun _ _ h => h.2
  moveToEnd i := (moveToEnd_leaves i m).atomic fun _ _ h => h.2

end TensorGraph.Module

namespace TensorGraph.Program
open TensorGraph.Action
variable {p : Program} {m : ModuleId} {module : Module}

private theorem createModule_atomic (name : String) (p : Program) : (createModule name).Atomic p := by
  have h : (createModule name).Leaves p (fun _ _ => True) fun _ p' => p' = p := by
    rw [createModule, leaves_bind, leaves_get]
    split
    · exact rfl
    · trivial
  exact h.atomic fun _ _ he => he

private theorem removeModule_atomic (m : ModuleId) (p : Program) : (removeModule m).Atomic p := by
  have h : (removeModule m).Leaves p (fun _ _ => True) fun _ p' => p' = p := by
    rw [removeModule, leaves_bind, leaves_get]
    split
    · exact rfl
    · split
      · exact rfl
      · split
        · exact rfl
        · trivial
  exact h.atomic fun _ _ he => he

private theorem insertWithModules_atomic (owner : ModuleId) (before : Option InstructionId)
    (op : Operator) (inputs : List InstructionId) (subs : List ModuleId) (p : Program) :
    (insertWithModules owner before op inputs subs).Atomic p := by
  have h : (insertWithModules owner before op inputs subs).Leaves p (fun _ _ => True)
      fun _ p' => p' = p := by
    rw [insertWithModules, leaves_bind, leaves_get, leaves_bind, leaves_lift]
    refine ⟨fun outs houts => ?_, fun _ _ => rfl⟩
    obtain ⟨module, hm⟩ := Option.isSome_iff_exists.1 (checkReferences_eq_ok.1 houts).1
    rw [editModule, leaves_onModule hm]
    refine (Module.insertWithModules_placed before op inputs subs outs module).mono
      (fun _ _ _ => trivial) ?_
    intro _ module' hm'
    rw [hm']
    exact put_eq_self hm
  exact h.atomic fun _ _ he => he

/-- An edit that fails leaves the module as it was, with all that is stored and the order, and one
that fails on a program leaves the program as it was. -/
theorem failed_edit_changes_nothing :
    (∀ m : Module, m.Built → m.AtomicEdits) ∧
      ∀ p : Program, (∀ name, (createModule name).Atomic p) ∧ (∀ m, (removeModule m).Atomic p) ∧
        ∀ owner before op inputs subs,
          (insertWithModules owner before op inputs subs).Atomic p := by
  refine ⟨fun m hm => hm.linked.atomicEdits, fun p => ⟨fun name => createModule_atomic name p,
    fun m => removeModule_atomic m p, ?_⟩⟩
  intro owner before op inputs subs
  exact insertWithModules_atomic owner before op inputs subs p

/-- Forwarding is refused at the third user, after the first two have been found to fit. -/
theorem failed_edit_changes_nothing_third_user :
    let m := Module.Mutation.applyAll (Module.empty "main")
      [.addParameter "x" (.packedOf .float [2]), .addParameter "y" (.packedOf .float [3]),
        .add (.unary .neg) [⟨0⟩], .add (.unary .exp) [⟨0⟩], .add (.binary .add) [⟨0⟩, ⟨2⟩]]
    let refused : Failure := .refused (.shape "add"
      (.dimensionMismatch (.packedOf .float [3]) (.packedOf .float [2])))
    m.Built ∧ (Module.replaceWith ⟨0⟩ ⟨1⟩ m).result = .error refused ∧
      (Module.replaceWith ⟨0⟩ ⟨1⟩ m).state = m := by
  intro m refused
  have hm : m.Built := (Module.Built.empty "main").applyAll _
  have hx : (Module.replaceWith ⟨0⟩ ⟨1⟩ m).result = .error refused := by
    unfold Module.replaceWith Module.checkRedirect Module.dependsOn
    simp only [Reach.visit_eq_visitUpTo 8]
    decide +kernel
  exact ⟨hm, hx, (failed_edit_changes_nothing.1 m hm).replaceWith ⟨0⟩ ⟨1⟩ refused hx⟩

end TensorGraph.Program
