import TensorGraph.Proofs.Module.Refinement

/-! What edits keep whatever they do to shapes. The check of a module finds everything else that
validity asks for. -/
namespace TensorGraph

/-- An instruction that defines a value without inputs has the shape of that value. The check of a
module passes over such instructions. -/
def Instruction.Grounded (n : Instruction) : Prop :=
  n.inputs = [] → n.op.isBuiltin → n.op.inferShape [] n.moduleOutputs = .ok n.shape

namespace Module
open TensorGraph.Action
variable {m₀ m m' : Module} {n : Instruction} {i j old new : InstructionId}

theorem ShapeFits.grounded (h : m.ShapeFits n) : n.Grounded := by
  intro hin _
  rwa [ShapeFits, hin] at h

/-- A module that edits have made of another one: it is linked, has distinct parameter names and its
old name, and refers to no sub-modules in a new way. -/
structure Derived (m₀ m : Module) : Prop where
  linked : Linked m
  names : DistinctNames m
  name : m.name = m₀.name
  modules : NoNewModules m₀ m
  grounded : ∀ i n, m.core? i = some n → n.Grounded

theorem Valid.derived (h : Valid m) : Derived m m :=
  ⟨h.linked, h.names, rfl, .refl m, fun i n hn => (h.fits i n hn).grounded⟩

/-- What edits keep and what the check finds make a module valid. -/
theorem Derived.valid (h : Derived m₀ m) (hv : m.validate = .ok ()) : Valid m := by
  obtain ⟨ho, hlast, hfits⟩ := (validate_eq_ok h.linked).1 hv
  refine ⟨h.linked, ho, hlast, h.names, fun i n hn => ?_⟩
  obtain ⟨k, hk, rfl⟩ := exists_get?_of_core? hn
  rcases hfits i k hk with ⟨hin, hb⟩ | hfits
  · have hgrounded := h.grounded i k.core hn hin hb
    rw [ShapeFits, show k.core.inputs = [] from hin]
    exact hgrounded
  · exact hfits

/-- What an edit may make of an instruction: the shape is inferred, and there are no sub-modules but
those of an instruction that was there. -/
structure Renewed (m : Module) (n : Instruction) : Prop where
  fits : m.ShapeFits n
  modules : modulesOf n = ([], []) ∨ ∃ j k, m.core? j = some k ∧ modulesOf n = modulesOf k

theorem Derived.change (h : Derived m₀ m) (hc : Change m m') (hname : m'.name = m.name)
    (hcore : ∀ i n, m'.core? i = some n → m.core? i = some n ∨ Renewed m n) : Derived m₀ m' where
  linked := hc.linked h.linked
  names := hc.distinctNames h.linked h.names
  name := hname.trans h.name
  modules := h.modules.trans fun i n hn => by
    rcases hcore i n hn with hold | hnew
    · exact .inr ⟨i, n, hold, rfl⟩
    · exact hnew.modules
  grounded i n hn := by
    rcases hcore i n hn with hold | hnew
    · exact h.grounded i n hold
    · exact hnew.fits.grounded

theorem Derived.place (h : Derived m₀ m) {p : Nat} (hp : Placeable m p n) (hfits : m.ShapeFits n)
    (hmods : modulesOf n = ([], [])) : Derived m₀ (m.place p n) := by
  refine h.change (.place hp) (name_place m p n) fun i k hk => ?_
  rw [core?_place] at hk
  split at hk
  · cases hk
    exact .inr ⟨hfits, .inl hmods⟩
  · exact .inl hk

theorem Derived.insertAt_leaves (h : Derived m₀ m) {p : Nat} (hp : p ≤ m.order.length)
    (op : Operator) (inputs : List InstructionId) :
    (insertAt p op inputs [] []).Leaves m (fun _ => Derived m₀) fun _ _ => True := by
  refine (Module.insertAt_leaves p op inputs [] [] m).mono ?_ fun _ _ _ => trivial
  rintro _ _ ⟨-, shape, hs, rfl⟩
  exact h.place (placeable_of_checkInsert hp hs) (checkInsert_eq_ok.1 hs).2.2.2 rfl

theorem insert_derived (before : InstructionId) (op : Operator) (inputs : List InstructionId) :
    (insert before op inputs).Maintains (Derived m₀) := by
  intro m h
  simp only [insert, insertWithModules, leaves_bind, leaves_get, leaves_lift]
  refine ⟨fun p hp => h.insertAt_leaves ?_ op inputs, fun _ _ => trivial⟩
  exact Nat.le_of_lt (position?_lt (requirePosition_eq_ok.1 hp))

theorem add_derived (op : Operator) (inputs : List InstructionId) :
    (add op inputs).Maintains (Derived m₀) := by
  intro m h
  simp only [add, leaves_bind, leaves_get]
  exact h.insertAt_leaves (Nat.le_refl _) op inputs

theorem addLiteral_derived {value : Literal} (ha : value.shape.addressable = true) :
    (addLiteral value).Maintains (Derived m₀) := by
  intro m h
  have hfits : m.ShapeFits { op := .literal value, inputs := [], shape := value.shape } :=
    Operator.inferShape_eq_ok.2 ⟨rfl, ha⟩
  simp only [addLiteral, leaves_bind, leaves_get, leaves_set, leaves_pure]
  exact h.place (placeable_literal value m) hfits rfl

/-- What is replaced in place keeps its sub-modules or loses them. -/
theorem Replacement.renewed {op : Operator} {inputs : List InstructionId}
    {before after : Instruction} (hr : Replacement m old op inputs before after) :
    Renewed m after.core where
  fits := by
    change after.op.inferShape (after.inputs.map m.shapeOf) after.moduleOutputs = .ok after.shape
    rw [hr.op_eq, hr.inputs_eq]
    exact hr.shape
  modules := by
    change (after.moduleArgs, after.moduleOutputs) = ([], []) ∨ _
    rw [hr.eq]
    cases op.usesModules with
    | false => exact .inl rfl
    | true => exact .inr ⟨old, before.core, core?_of_get? hr.get, by rw [hr.eq]; rfl⟩

theorem replace_derived (old : InstructionId) (op : Operator) (inputs : List InstructionId) :
    (replace old op inputs).Maintains (Derived m₀) := by
  intro m h
  refine (replace_leaves old op inputs m).mono ?_ fun _ _ _ => trivial
  rintro _ _ ⟨-, before, after, hr, rfl⟩
  refine h.change (.rewire hr) (hr.name_rewire h.linked) fun i k hk => ?_
  rw [hr.core?_rewire h.linked] at hk
  split at hk
  · cases hk
    exact .inr hr.renewed
  · exact .inl hk

theorem replaceWith_derived (old new : InstructionId) :
    (replaceWith old new).Maintains (Derived m₀) := by
  intro m h
  refine (replaceWith_leaves old new m).mono ?_ fun _ _ _ => trivial
  rintro _ m' (⟨-, rfl⟩ | ⟨hne, hf⟩)
  · exact h
  refine h.change (hf.change hne) (hf.name_eq hne h.linked) fun i k hk => ?_
  rcases hf.core?_cases hne h.linked hk with hold | ⟨n, hn, he, -, hs⟩ | ⟨-, -, _, _, hr, rfl⟩
  · exact .inl hold
  · have hop : k.op = n.op ∧ k.moduleOutputs = n.moduleOutputs ∧ modulesOf k = modulesOf n := by
      rw [he]
      exact ⟨rfl, rfl, rfl⟩
    refine .inr ⟨?_, .inr ⟨i, n, hn, hop.2.2⟩⟩
    rw [ShapeFits, hop.1, hop.2.1]
    exact hs
  · exact .inr hr.renewed

theorem replaceOutput_derived (outputs : List InstructionId) :
    (replaceOutput outputs).Maintains (Derived m₀) := by
  refine .bind .get fun m => ?_
  split
  · exact replace_derived _ _ _
  · exact add_derived _ _

end Module
end TensorGraph
