import TensorGraph.Proofs.Module.Built
import TensorGraph.Proofs.Module.Derived
import TensorGraph.Proofs.Program.Loading

/-! Programs as edits of every kind build them. Only adding an instruction with sub-modules makes new
references, and it asks that none of them leads back, so references never run in a circle. -/
namespace TensorGraph.Program
open Relation TensorGraph.Action

section Stems
open TensorGraph.Module
variable {m m' m'' : Module} {i old new : InstructionId} {n : Instruction}

theorem Stems.refl (m : Module) : Stems m m := ⟨rfl, .refl m⟩

theorem Stems.trans (h : Stems m m') (h' : Stems m' m'') : Stems m m'' :=
  ⟨h'.name.trans h.name, h.modules.trans h'.modules⟩

/-- Instructions that are kept with their sub-modules make no new references. -/
theorem Stems.of_core? (hname : m'.name = m.name)
    (h : ∀ i n', m'.core? i = some n' → ∃ n, m.core? i = some n ∧ modulesOf n' = modulesOf n) :
    Stems m m' := by
  refine ⟨hname, fun i n' hn' => .inr ?_⟩
  obtain ⟨n, hn, he⟩ := h i n' hn'
  exact ⟨i, n, hn, he⟩

private theorem Stems.of_map {f : Instruction → Instruction} (hname : m'.name = m.name)
    (h : ∀ i, m'.core? i = none ∨ m'.core? i = m.core? i ∨ m'.core? i = (m.core? i).map f)
    (hf : ∀ n, modulesOf (f n) = modulesOf n) : Stems m m' := by
  refine .of_core? hname fun i n' hn' => ?_
  rcases h i with h | h | h <;> rw [h] at hn'
  · cases hn'
  · exact ⟨n', hn', rfl⟩
  · obtain ⟨n, hn, rfl⟩ := Option.map_eq_some_iff.1 hn'
    exact ⟨n, hn, hf n⟩

private theorem stems_of_placed (h : Placed m [] [] m') : Stems m m' := by
  obtain ⟨p, n, -, hargs, houts, rfl⟩ := h
  refine ⟨name_place m p n, fun i n' hn' => ?_⟩
  rw [core?_place] at hn'
  split at hn'
  · cases hn'
    exact .inl (Prod.ext hargs houts)
  · exact .inr ⟨i, n', hn', rfl⟩

private theorem stems_rewire (hl : Linked m) {op : Operator} {inputs : List InstructionId}
    {before after : Instruction} (hr : Replacement m old op inputs before after) :
    Stems m (m.rewire old after) := by
  refine ⟨hr.name_rewire hl, fun i n' hn' => ?_⟩
  rw [hr.core?_rewire hl] at hn'
  split at hn'
  · cases hn'
    exact hr.renewed.modules
  · exact .inr ⟨i, n', hn', rfl⟩

private theorem stems_of_forwarded (hl : Linked m) (hne : old ≠ new) (h : Forwarded m old new m') :
    Stems m m' := by
  refine ⟨h.name_eq hne hl, fun i n' hn' => ?_⟩
  rcases h.core?_cases hne hl hn' with hold | ⟨n, hn, he, -⟩ | ⟨-, -, _, _, hr, rfl⟩
  · exact .inr ⟨i, n', hold, rfl⟩
  · refine .inr ⟨i, n, hn, ?_⟩
    rw [he]
    rfl
  · exact hr.renewed.modules

private theorem stems_rename (m : Module) (i : InstructionId) (name : String) :
    Stems m (m.rename i name) := by
  refine .of_core? (sameFrame_update m i _).name fun j n' hn' => ?_
  rw [core?, get?_rename] at hn'
  split at hn'
  · rw [Option.map_map] at hn'
    obtain ⟨n, hn, rfl⟩ := Option.map_eq_some_iff.1 hn'
    exact ⟨n.core, core?_of_get? hn, rfl⟩
  · exact ⟨n', hn', rfl⟩

private theorem stems_detach (m : Module) (i : InstructionId) : Stems m (m.detach i) := by
  refine .of_map (f := fun n => { n with inputs := [] }) (sameFrame_detach m i).name (fun j => ?_)
    fun _ => rfl
  rw [core?_detach]
  split
  · exact .inr (.inr rfl)
  · exact .inr (.inl rfl)

private theorem stems_erase (m : Module) (i : InstructionId) : Stems m (m.erase i) := by
  refine .of_map (f := id) rfl (fun j => ?_) fun _ => rfl
  rw [core?_erase]
  split
  · exact .inl rfl
  · exact .inr (.inl rfl)

private theorem stems_truncate (hl : Linked m) (length : Nat) : Stems m (m.truncate length) := by
  refine .of_map (f := fun n => { n with inputs := n.inputs.filter (· ∉ m.order.drop length) })
    (name_truncate m length) (fun j => ?_) fun _ => rfl
  rw [core?_truncate hl]
  split
  · exact .inl rfl
  · exact .inr (.inr rfl)

theorem Stems.state {α : Type} {x : Module.Edit α}
    (h : x.Leaves m (fun _ => Stems m) fun _ m' => m' = m) : Stems m (x m).state :=
  Leaves.state (h.mono (fun _ _ hs => hs) fun _ _ he => he ▸ .refl _)

private theorem replace_stems (hl : Linked m) (old : InstructionId) (op : Operator)
    (inputs : List InstructionId) :
    (replace old op inputs).Leaves m (fun _ => Stems m) fun _ m' => m' = m := by
  refine (replace_leaves old op inputs m).mono ?_ fun _ _ h => h.2
  rintro _ _ ⟨-, before, after, hr, rfl⟩
  exact stems_rewire hl hr

/-- No edit that knows the module alone makes it refer to anything new. -/
theorem stems_apply (hl : Linked m) (e : Module.Mutation) : Stems m (e.apply m) := by
  have hplaced : ∀ {α : Type} {x : Module.Edit α},
      x.Leaves m (fun _ => Placed m [] []) (fun _ m' => m' = m) → Stems m (x m).state :=
    fun h => .state (h.imp fun _ _ hp => stems_of_placed hp)
  cases e with
  | add op inputs => exact hplaced (add_placed op inputs m)
  | insert before op inputs => exact hplaced (insertWithModules_placed (some before) op inputs [] [] m)
  | addParameter name shape => exact hplaced (addParameter_placed name shape m)
  | addLiteral value => exact hplaced (addLiteral_placed value m)
  | addOutput outputs => exact hplaced (add_placed .output outputs m)
  | replaceOutput outputs =>
    refine .state ?_
    simp only [replaceOutput, leaves_bind, leaves_get]
    split
    · exact replace_stems hl _ _ _
    · exact (add_placed .output outputs m).imp fun _ _ hp => stems_of_placed hp
  | renameParameter old new =>
    refine .state ?_
    simp only [renameParameter, leaves_bind, leaves_get]
    split
    · exact rfl
    · split
      · exact rfl
      · exact stems_rename m _ new
  | replace old op inputs => exact .state (replace_stems hl old op inputs)
  | replaceWith old new =>
    refine .state ((replaceWith_leaves old new m).mono ?_ fun _ _ h => h.1)
    rintro _ _ (⟨-, rfl⟩ | ⟨hne, hf⟩)
    · exact .refl _
    · exact stems_of_forwarded hl hne hf
  | remove i =>
    refine .state ?_
    simp only [remove, leaves_bind, leaves_get, leaves_lift]
    refine ⟨fun _ _ => ?_, fun _ _ => trivial⟩
    split
    · exact (stems_detach m i).trans (stems_erase _ i)
    · exact rfl
  | removeAfter last =>
    refine .state ((removeAfter_leaves hl last).mono ?_ fun _ _ h => h.2)
    rintro _ _ ⟨p, -, rfl, -⟩
    exact stems_truncate hl _
  | clearInputs i =>
    refine .state ?_
    simp only [clearInputs, leaves_bind, leaves_get, leaves_lift, leaves_set]
    exact ⟨fun _ _ => stems_detach m i, fun _ _ => trivial⟩
  | moveToEnd i =>
    refine .state ((moveToEnd_leaves i m).mono ?_ fun _ _ h => h.2)
    rintro _ _ ⟨-, rfl⟩
    exact ⟨rfl, .refl m⟩

private theorem stems_moveBefore (hl : Linked m) (i before : InstructionId) :
    Stems m (moveBefore i before m).state := by
  refine .state ((moveBefore_leaves hl i before).mono ?_ fun _ _ h => h.2)
  rintro _ _ ⟨l, -, rfl⟩
  exact ⟨rfl, .refl m⟩

end Stems

variable {p : Program} {m k owner sub : ModuleId} {module module' : Module}

private theorem state_editModule {α : Type} (h : p.get? m = some module) (x : Module.Edit α) :
    (editModule m x p).state = p.put m (x module).state := by
  refine Leaves.state (P := fun q => q = p.put m (x module).state) ?_
  rw [editModule, leaves_onModule h]
  exact leaves_of_state (P := fun module' => p.put m module' = p.put m (x module).state) rfl

private theorem state_editModule_of_none {α : Type} (h : p.get? m = none) (x : Module.Edit α) :
    (editModule m x p).state = p := by
  refine Leaves.state (P := fun q => q = p) ?_
  rw [editModule]
  exact (leaves_onModule_of_none h _ x).mono (fun _ _ hf => hf.elim) fun _ _ he => he

/-- The program without a module. -/
def removed (p : Program) (m : ModuleId) (name : String) : Program :=
  { p with
    modules := p.modules.remove m.index
    names := p.names.filter fun e => e.1 ≠ name }

private theorem removeModule_leaves (m : ModuleId) (p : Program) :
    (removeModule m).Leaves p
      (fun module p' => p.get? m = some module ∧ m ≠ p.main ∧ (∀ a, ¬ p.Refers a m) ∧
        p' = p.removed m module.name)
      (fun _ p' => p' = p) := by
  rw [removeModule, leaves_bind, leaves_get]
  cases hm : p.get? m with
  | none => exact rfl
  | some module =>
    dsimp only
    split
    · exact rfl
    rename_i hmain
    split
    · exact rfl
    rename_i hfree
    refine ⟨rfl, hmain, fun a ha => ?_, rfl⟩
    obtain ⟨user, huser⟩ := live_of_refers ha
    have hno := List.find?_eq_none.1 hfree (a.index, user) (Arena.mem_entries.2 huser)
    exact hno (by simpa using (refers_of_get? huser).1 ha)

private theorem get?_removed (p : Program) (m : ModuleId) (name : String) (k : ModuleId) :
    (p.removed m name).get? k = if k = m then none else p.get? k := by
  simp only [removed, get?, Arena.get?_remove, ModuleId.index_inj]

private theorem find?_removed (p : Program) (m : ModuleId) (name name' : String) :
    (p.removed m name).find? name' = if name' = name then none else p.find? name' := by
  simp only [find?, removed]
  induction p.names with
  | nil => simp
  | cons e names ih =>
    obtain ⟨key, value⟩ := e
    by_cases hk : key = name
    · subst hk
      rw [List.filter_cons_of_neg (by simp), ih]
      split
      · rfl
      · rename_i hne
        simp [List.lookup_cons, beq_eq_false_iff_ne.2 hne]
    · rw [List.filter_cons_of_pos (by simpa using hk)]
      by_cases hn : name' = key
      · subst hn
        simp [hk]
      · rw [List.lookup_cons, List.lookup_cons, beq_eq_false_iff_ne.2 hn]
        exact ih

/-- A module that nothing refers to can be removed, unless it is the entry. -/
theorem Arranged.removed (h : Arranged p) (hm : p.get? m = some module) (hmain : m ≠ p.main)
    (hfree : ∀ a, ¬ p.Refers a m) : Arranged (p.removed m module.name) := by
  have hrefers : ∀ a b, (p.removed m module.name).Refers a b → p.Refers a b := by
    intro a b hab
    rw [Refers, subModulesOf, get?_removed] at hab
    split at hab
    · cases hab
    · exact hab
  refine ⟨h.counted.remove _, fun name k => ?_, ?_, fun a b hab => ?_, fun a ha => ?_⟩
  · rw [find?_removed, get?_removed]
    by_cases hk : k = m
    · subst hk
      rw [if_pos rfl]
      constructor
      · intro hfind
        split at hfind
        · cases hfind
        · rename_i hname
          obtain ⟨other, hother, rfl⟩ := (h.find name k).1 hfind
          cases hm.symm.trans hother
          exact absurd rfl hname
      · rintro ⟨_, hnone, -⟩
        cases hnone
    · rw [if_neg hk, ← h.find]
      split
      · rename_i hname
        constructor
        · intro hnone
          cases hnone
        · intro hfind
          obtain ⟨other, hother, he⟩ := (h.find name k).1 hfind
          exact absurd (h.name_inj hother hm (he.trans hname)) hk
      · rfl
  · rw [find?_removed, if_neg, h.main]
    · rfl
    · exact fun hname => hmain (h.eq_main hm hname.symm)
  · have hold := hrefers a b hab
    rw [get?_removed, if_neg]
    · exact h.live a b hold
    · rintro rfl
      exact hfree a hold
  · exact h.acyclic a (TransGen.mono hrefers _ _ ha)

/-- The edits of a program, with any modules and instructions whatever. -/
inductive Mutation where
  | create (name : String)
  | remove (m : ModuleId)
  | insert (owner : ModuleId) (before : Option InstructionId) (op : Operator)
      (inputs : List InstructionId) (subs : List ModuleId)
  | edit (m : ModuleId) (e : Module.Mutation)
  | move (m : ModuleId) (i before : InstructionId)

namespace Mutation

/-- The program that an edit leaves, whether it is carried out or fails. -/
def apply (p : Program) : Mutation → Program
  | create name => (createModule name p).state
  | remove m => (removeModule m p).state
  | insert owner before op inputs subs => (insertWithModules owner before op inputs subs p).state
  | edit m e => (editModule m (Action.modify fun module => e.apply module) p).state
  | move m i before => (editModule m (Module.moveBefore i before) p).state

def applyAll (p : Program) (edits : List Mutation) : Program :=
  edits.foldl apply p

end Mutation

/-- What every edit keeps: the program is arranged, and its modules are made by edits. -/
structure Edited (p : Program) : Prop extends Arranged p where
  built : ∀ m module, p.get? m = some module → module.Built

theorem edited_empty : Edited empty := by
  refine ⟨arranged_empty, fun m module hm => ?_⟩
  rw [get?_empty] at hm
  split at hm
  · cases hm
    exact .empty mainName
  · cases hm

theorem Edited.put (h : Edited p) (hm : p.get? m = some module) (hname : module'.name = module.name)
    (hsubs : ∀ sub ∈ module'.subModules, sub ∈ module.subModules ∨
      (p.get? sub).isSome ∧ ¬ ReflTransGen p.Refers sub m) (hb : module'.Built) :
    Edited (p.put m module') := by
  refine ⟨h.toArranged.put hm hname hsubs, fun k other hk => ?_⟩
  by_cases hkm : k = m
  · subst hkm
    cases (get?_put_self hm).symm.trans hk
    exact hb
  · exact h.built k other (get?_put_of_ne hkm ▸ hk)

/-- An edit that knows one module alone. -/
theorem Edited.editModule {α : Type} (h : Edited p) (m : ModuleId) {x : Module.Edit α}
    (hx : ∀ module : Module, module.Built → Stems module (x module).state ∧ (x module).state.Built) :
    Edited (editModule m x p).state := by
  cases hm : p.get? m with
  | none => rwa [state_editModule_of_none hm]
  | some module =>
    have hb := h.built m module hm
    obtain ⟨hstems, hbuilt⟩ := hx module hb
    rw [state_editModule hm]
    exact h.put hm hstems.name (fun sub hsub => .inl (hstems.mem_subModules hb.linked hsub)) hbuilt

theorem Edited.insertWithModules (h : Edited p) (owner : ModuleId) (before : Option InstructionId)
    (op : Operator) (inputs : List InstructionId) (subs : List ModuleId) :
    Edited (insertWithModules owner before op inputs subs p).state := by
  refine Leaves.state (P := Edited) ?_
  rw [Program.insertWithModules, leaves_bind, leaves_get, leaves_bind, leaves_lift]
  refine ⟨fun outs houts => ?_, fun _ _ => h⟩
  obtain ⟨hlive, hsubs, -⟩ := checkReferences_eq_ok.1 houts
  obtain ⟨module, hm⟩ := Option.isSome_iff_exists.1 hlive
  have hb := h.built owner module hm
  refine leaves_of_state ?_
  rw [state_editModule hm]
  have hplaced := Module.Mutation.state_change
    (Module.insertWithModules_placed before op inputs subs outs module)
  refine h.put hm ?_ (fun sub hsub => ?_) (hb.insert before op inputs subs outs)
  · rcases hplaced with he | ⟨place, n, -, -, -, he⟩ <;> rw [he]
    exact Module.name_place module place n
  · rcases hplaced with he | ⟨place, n, -, rfl, -, he⟩ <;> rw [he] at hsub
    · exact .inl hsub
    · exact (Module.mem_subModules_place hb.linked hsub).imp id (hsubs sub)

theorem Edited.apply (h : Edited p) (e : Mutation) : Edited (e.apply p) := by
  cases e with
  | create name =>
    refine Leaves.state (P := Edited) ((createModule_leaves name p).mono ?_ fun _ _ hn => hn.2.2 ▸ h)
    rintro _ _ ⟨hname, -, rfl⟩
    refine ⟨h.toArranged.created hname, fun k module hk => ?_⟩
    rw [get?_created] at hk
    split at hk
    · cases hk
      exact .empty name
    · exact h.built k module hk
  | remove m =>
    refine Leaves.state (P := Edited) ((removeModule_leaves m p).mono ?_ fun _ _ hn => hn ▸ h)
    rintro module _ ⟨hm, hmain, hfree, rfl⟩
    refine ⟨h.toArranged.removed hm hmain hfree, fun k other hk => ?_⟩
    rw [get?_removed] at hk
    split at hk
    · cases hk
    · exact h.built k other hk
  | insert owner before op inputs subs => exact h.insertWithModules owner before op inputs subs
  | edit m e => exact h.editModule m fun module hb => ⟨stems_apply hb.linked e, hb.edit e⟩
  | move m i before =>
    exact h.editModule m fun module hb => ⟨stems_moveBefore hb.linked i before, hb.move i before⟩

theorem Edited.applyAll (h : Edited p) (edits : List Mutation) :
    Edited (Mutation.applyAll p edits) := by
  induction edits generalizing p with
  | nil => exact h
  | cons e rest ih => exact ih (h.apply e)

/-- What holds of a program however it was edited. Names and modules correspond, sub-modules are
there, following references comes to an end, at a depth that does not matter, and what the entry
reaches is listed in the order of the references. -/
structure Consistent (p : Program) : Prop where
  main_live : (p.get? p.main).isSome
  find_iff : ∀ name m, p.find? name = some m ↔ ∃ module, p.get? m = some module ∧ module.name = name
  args_live : ∀ m module i n sub, p.get? m = some module → module.get? i = some n →
    sub ∈ n.moduleArgs → (p.get? sub).isSome
  refers_iff : ∀ m sub, p.Refers m sub ↔
    ∃ module i n, p.get? m = some module ∧ module.get? i = some n ∧ sub ∈ n.moduleArgs
  acyclic : ∀ m, ¬ TransGen p.Refers m m
  wellFounded : WellFounded fun sub m => p.Refers m sub
  reaches_iff : ∀ m target, p.reaches m target ↔ ReflTransGen p.Refers m target
  depth_irrelevant : ∀ depth, p.modules.size < depth → p.postOrder depth p.main [] = p.reachable
  mem_reachable_iff : ∀ m, m ∈ p.reachable ↔ ReflTransGen p.Refers p.main m
  reachable_nodup : p.reachable.Nodup
  subs_before : ∀ m ∈ p.reachable, ∀ sub, p.Refers m sub →
    sub ∈ p.reachable ∧ p.reachable.idxOf sub < p.reachable.idxOf m
  main_last : p.reachable.getLast? = some p.main

private theorem Edited.refers_iff (h : Edited p) : p.Refers m sub ↔
    ∃ module i n, p.get? m = some module ∧ module.get? i = some n ∧ sub ∈ n.moduleArgs := by
  constructor
  · intro hr
    obtain ⟨module, hm⟩ := live_of_refers hr
    obtain ⟨i, -, n, hn, hsub⟩ := Module.mem_subModules.1 ((refers_of_get? hm).1 hr)
    obtain ⟨k, hk, rfl⟩ := Module.exists_get?_of_core? hn
    exact ⟨module, i, k, hm, hk, hsub⟩
  · rintro ⟨module, i, n, hm, hn, hsub⟩
    exact refers_of_core? hm (h.built m module hm).linked (Module.core?_of_get? hn) hsub

private theorem Edited.consistent (h : Edited p) : Consistent p := by
  have ha := h.toArranged
  have hlisted := (reachable_extended ha).listed
  obtain ⟨module, hmain⟩ := ha.main_live
  obtain ⟨front, hfront, -, -⟩ := reachable_eq ha
  exact {
    main_live := by simp [hmain]
    find_iff := ha.find
    args_live := fun m module i n sub hm hn hsub =>
      ha.live m sub (h.refers_iff.2 ⟨module, i, n, hm, hn, hsub⟩)
    refers_iff := fun _ _ => h.refers_iff
    acyclic := ha.acyclic
    wellFounded := ha.wellFounded
    reaches_iff := fun _ _ => Program.reaches_iff
    depth_irrelevant := fun _ hdepth => postOrder_eq_reachable ha hdepth
    mem_reachable_iff := fun _ => mem_reachable ha
    reachable_nodup := hlisted.nodup
    subs_before := fun _ hm _ hsub => ⟨hlisted.closed hm hsub, hlisted.idxOf_lt hm hsub⟩
    main_last := by rw [hfront, List.getLast?_concat] }

/-- Every sequence of edits from an empty program, carried out or failing, ends in a consistent
program. -/
theorem consistent_of_edits (edits : List Mutation) :
    Consistent (Mutation.applyAll empty edits) :=
  (edited_empty.applyAll edits).consistent

end TensorGraph.Program
