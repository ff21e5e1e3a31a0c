import TensorGraph.Proofs.Module.Edit

/-! Whatever edits are made from an empty module, allowed or refused, it stays consistent: the order
lists what is there and is topological, users mirror inputs, and parameter names are distinct. -/
namespace TensorGraph.Module
variable {m m' : Module} {i j : InstructionId}

private theorem usersOf_rename (m : Module) (i : InstructionId) (name : String) (j : InstructionId) :
    (m.rename i name).usersOf j = m.usersOf j := by
  rw [usersOf, get?_rename, usersOf]
  split <;> simp [Function.comp_def]

private theorem inputsOf_rename (m : Module) (i : InstructionId) (name : String) (j : InstructionId) :
    (m.rename i name).inputsOf j = m.inputsOf j := by
  rw [inputsOf, get?_rename, inputsOf]
  split <;> simp [Function.comp_def]

theorem Change.linked (hc : Change m m') (hl : Linked m) : Linked m' := by
  cases hc with
  | place h =>
    refine linked_place hl h.le h.users fun i hi => ?_
    obtain ⟨q, -, hq⟩ := h.before i hi
    exact mem_order_of_position? hq
  | rewire h =>
    exact linked_rewire hl h.old_live (h.inputs_eq ▸ h.live)
  | redirect hne hn _ _ _ h => exact linked_redirect hl hne hn h
  | @rename i name _ _ =>
    refine hl.of_sameFrame (sameFrame_update m i _) (fun j => ?_) (fun j => ?_) (fun j k => ?_)
    · rw [isSome_core?, isSome_core?, get?_rename]
      split <;> simp
    · rw [usersOf_rename]
      exact hl.users_nodup j
    · rw [usersOf_rename, inputsOf_rename, hl.mem_users]
  | detach => exact linked_detach hl _
  | remove hi hu => exact linked_remove hl hi hu
  | truncate => exact linked_truncate hl _
  | toEnd hi _ => exact linked_toEnd hl hi

theorem Change.ordered (hc : Change m m') (hl : Linked m) (ho : Ordered m) : Ordered m' := by
  cases hc with
  | place h =>
    refine ordered_place hl ho h.le fun i hi => ?_
    obtain ⟨q, hlt, hq⟩ := h.before i hi
    exact mem_take_of_position? hq hlt
  | rewire h =>
    exact ordered_rewire hl ho h.old_live (h.inputs_eq ▸ h.live) (h.inputs_eq ▸ h.acyclic)
  | redirect hne hn _ _ _ h => exact ordered_redirect hl ho hne hn h
  | @rename i name _ _ =>
    refine ho.of_subset (List.Sublist.refl m.order) fun j => ?_
    rw [inputsOf_rename]
    exact List.Subset.refl _
  | detach => exact ordered_detach ho _
  | remove => exact ordered_erase (ordered_detach ho _) _
  | truncate => exact ordered_truncate hl ho _
  | toEnd _ hu => exact ordered_toEnd hl ho hu

/-- No two parameters have the same name. -/
def DistinctNames (m : Module) : Prop :=
  ∀ i j name, m.nameOf? i = some name → m.nameOf? j = some name → i = j

theorem distinctNames_empty (name : String) : DistinctNames (Module.empty name) := by
  intro i j x hi
  simp [nameOf?, core?, Module.empty, get?, Arena.get?] at hi

theorem DistinctNames.of_kept (hd : DistinctNames m)
    (h : ∀ i name, m'.nameOf? i = some name → m.nameOf? i = some name) : DistinctNames m' :=
  fun i j name hi hj => hd i j name (h i name hi) (h j name hj)

theorem parameterName?_eq_some {n : Instruction} {name : String}
    (h : n.parameterName? = some name) : ∃ shape, n.op = .parameter name shape := by
  obtain ⟨op, _, _, _, _, _⟩ := n
  cases op with
  | parameter name' shape =>
    cases h
    exact ⟨shape, rfl⟩
  | _ => cases h

private theorem mem_order_of_nameOf? (hl : Linked m) {name : String} (h : m.nameOf? i = some name) :
    i ∈ m.order := by
  rw [hl.mem_order]
  rw [nameOf?_eq] at h
  cases hg : m.get? i with
  | none => simp [hg] at h
  | some n => rfl

/-- An instruction that takes a free name keeps the names distinct. -/
theorem DistinctNames.of_free (hd : DistinctNames m) (hl : Linked m) {n : Instruction}
    {except : Option InstructionId} (hf : m.requireFreeName except n.op = .ok ())
    (hi : ∀ k, except = some k → k = i)
    (h : ∀ j, m'.nameOf? j = if j = i then n.parameterName? else m.nameOf? j) :
    DistinctNames m' := by
  have hnew : ∀ j name, j ≠ i → n.parameterName? = some name → m.nameOf? j ≠ some name := by
    intro j name hj hn hjn
    obtain ⟨shape, hop⟩ := parameterName?_eq_some hn
    cases hp : m.parameter? name with
    | none => exact parameter?_eq_none hp (mem_order_of_nameOf? hl hjn) hjn
    | some k =>
      have hk := hi k (requireFreeName_eq_ok hf hop hp).symm
      exact hj (hk ▸ hd j k name hjn (parameter?_eq_some hp).2)
  intro a b name ha hb
  rw [h] at ha hb
  by_cases hai : a = i
  · by_cases hbi : b = i
    · exact hai.trans hbi.symm
    · rw [if_pos hai] at ha
      rw [if_neg hbi] at hb
      exact absurd hb (hnew b name hbi ha)
  · by_cases hbi : b = i
    · rw [if_neg hai] at ha
      rw [if_pos hbi] at hb
      exact absurd ha (hnew a name hai hb)
    · rw [if_neg hai] at ha
      rw [if_neg hbi] at hb
      exact hd a b name ha hb

/-- A change that keeps the operator keeps the name. -/
private theorem nameOf?_of_core?_map {f : Instruction → Instruction}
    (h : m'.core? i = (m.core? i).map f) (hf : ∀ n, (f n).op = n.op) :
    m'.nameOf? i = m.nameOf? i := by
  rw [nameOf?, h, nameOf?]
  cases m.core? i with
  | none => rfl
  | some n => simp [Instruction.parameterName?, Instruction.parameter?, hf]

private theorem nameOf?_rename (m : Module) (i : InstructionId) (name : String) (j : InstructionId) :
    (m.rename i name).nameOf? j =
      if j = i then (m.nameOf? j).map fun _ => name else m.nameOf? j := by
  rw [nameOf?_eq, get?_rename, nameOf?_eq]
  split
  · cases m.get? j with
    | none => rfl
    | some n =>
      obtain ⟨op, _, _, _, _, _⟩ := n
      cases op <;> rfl
  · rfl

theorem Change.distinctNames (hc : Change m m') (hl : Linked m) (hd : DistinctNames m) :
    DistinctNames m' := by
  cases hc with
  | @place p n h =>
    refine hd.of_free hl (i := m.nextId) h.free nofun fun j => ?_
    rw [nameOf?, core?_place]
    split <;> rfl
  | @rewire old op inputs before after h =>
    refine hd.of_free hl (n := after) (h.op_eq ▸ h.free) (fun k hk => (Option.some.inj hk).symm)
      fun j => ?_
    rw [nameOf?, h.core?_rewire hl]
    split <;> rfl
  | @redirect old new rs n hne hn _ _ _ h =>
    refine hd.of_kept fun j name hj => ?_
    rw [nameOf?, core?_redirect hl hne hn h] at hj
    change (rs.foldl (redirectOne old new) m).nameOf? j = _ at hj
    by_cases hu : j ∈ rs.map Redirected.user
    · obtain ⟨r, hr, rfl⟩ := List.mem_map.1 hu
      exact nameOf?_of_core?_map (core?_redirectEdges_of_mem (h.nodup hl) hr) (fun _ => rfl) ▸ hj
    · rwa [nameOf?, core?_redirectEdges_of_notMem hu] at hj
  | @rename i name hi hfree =>
    intro a b x ha hb
    have hnew : ∀ j, j ≠ i → m.nameOf? j ≠ some name := fun j hj hjn =>
      hj (hd j i name hjn (hfree j (mem_order_of_nameOf? hl hjn) hjn))
    rw [nameOf?_rename] at ha hb
    by_cases hai : a = i <;> by_cases hbi : b = i
    · exact hai.trans hbi.symm
    · simp only [hai, hbi, if_true, if_false, Option.map_eq_some_iff] at ha hb
      obtain ⟨_, -, rfl⟩ := ha
      exact absurd hb (hnew b hbi)
    · simp only [hai, hbi, if_true, if_false, Option.map_eq_some_iff] at ha hb
      obtain ⟨_, -, rfl⟩ := hb
      exact absurd ha (hnew a hai)
    · rw [if_neg hai] at ha
      rw [if_neg hbi] at hb
      exact hd a b x ha hb
  | @detach i _ =>
    refine hd.of_kept fun j name hj => ?_
    by_cases hji : j = i
    · subst hji
      exact nameOf?_of_core?_map ((core?_detach m j j).trans (if_pos rfl)) (fun _ => rfl) ▸ hj
    · rwa [nameOf?, core?_detach, if_neg hji] at hj
  | remove =>
    refine hd.of_kept fun j name hj => ?_
    rw [nameOf?, core?_erase, core?_detach] at hj
    split at hj
    · cases hj
    · exact hj
  | @truncate i p _ =>
    refine hd.of_kept fun j name hj => ?_
    by_cases hjt : j ∈ m.order.drop (p + 1)
    · rw [nameOf?, core?_truncate hl, if_pos hjt] at hj
      cases hj
    · exact nameOf?_of_core?_map ((core?_truncate hl _ j).trans (if_neg hjt)) (fun _ => rfl) ▸ hj
  | toEnd => exact hd

/-- The edits that keep every instruction behind its inputs. -/
inductive Mutation where
  | add (op : Operator) (inputs : List InstructionId)
  | insert (before : InstructionId) (op : Operator) (inputs : List InstructionId)
  | addParameter (name : String) (shape : Shape)
  | addLiteral (value : Literal)
  | addOutput (outputs : List InstructionId)
  | replaceOutput (outputs : List InstructionId)
  | renameParameter (old new : String)
  | replace (old : InstructionId) (op : Operator) (inputs : List InstructionId)
  | replaceWith (old new : InstructionId)
  | remove (i : InstructionId)
  | removeAfter (last : InstructionId)
  | clearInputs (i : InstructionId)
  | moveToEnd (i : InstructionId)

namespace Mutation

/-- The module that an edit leaves, whether it is carried out or fails. -/
def apply (m : Module) : Mutation → Module
  | add op inputs => (Module.add op inputs m).state
  | insert before op inputs => (Module.insert before op inputs m).state
  | addParameter name shape => (Module.addParameter name shape m).state
  | addLiteral value => (Module.addLiteral value m).state
  | addOutput outputs => (Module.addOutput outputs m).state
  | replaceOutput outputs => (Module.replaceOutput outputs m).state
  | renameParameter old new => (Module.renameParameter old new m).state
  | replace old op inputs => (Module.replace old op inputs m).state
  | replaceWith old new => (Module.replaceWith old new m).state
  | remove i => (Module.remove i m).state
  | removeAfter last => (Module.removeAfter last m).state
  | clearInputs i => (Module.clearInputs i m).state
  | moveToEnd i => (Module.moveToEnd i m).state

/-- Only an instruction without users may be sent to the end; everything else may be tried. -/
def permitted (m : Module) : Mutation → Bool
  | moveToEnd i => (m.usersOf i).isEmpty
  | _ => true

/-- Whether each edit of a sequence may be tried where the ones before it lead. -/
def allPermitted (m : Module) : List Mutation → Bool
  | [] => true
  | e :: rest => e.permitted m && allPermitted (e.apply m) rest

def applyAll (m : Module) (edits : List Mutation) : Module :=
  edits.foldl apply m

theorem state_change {α : Type} {x : Edit α} {R : Module → Prop}
    (h : x.Leaves m (fun _ => R) (fun _ m' => m' = m)) :
    (x m).state = m ∨ R (x m).state := by
  refine Action.Leaves.state (P := fun m' => m' = m ∨ R m') ?_
  exact h.mono (fun _ _ => Or.inr) fun _ _ => Or.inl

theorem apply_change (e : Mutation) (hl : Linked m) (h : e.permitted m) :
    e.apply m = m ∨ Change m (e.apply m) := by
  cases e with
  | add op inputs => exact (state_change (add_placed op inputs m)).imp_right Placed.change
  | insert before op inputs =>
    exact (state_change (insertWithModules_placed (some before) op inputs [] [] m)).imp_right Placed.change
  | addParameter name shape =>
    exact (state_change (addParameter_placed name shape m)).imp_right Placed.change
  | addLiteral value => exact (state_change (addLiteral_placed value m)).imp_right Placed.change
  | addOutput outputs => exact (state_change (add_placed .output outputs m)).imp_right Placed.change
  | replaceOutput outputs => exact state_change (replaceOutput_change outputs m)
  | renameParameter old new => exact state_change (renameParameter_change old new m)
  | replace old op inputs => exact state_change (replace_change old op inputs m)
  | replaceWith old new =>
    refine Action.Leaves.state (P := fun m' => m' = m ∨ Change m m') ?_
    exact (replaceWith_change old new m).mono (fun _ _ hx => hx) fun _ _ => Or.inl
  | remove i => exact state_change (remove_change i m)
  | removeAfter last => exact state_change (removeAfter_change hl last)
  | clearInputs i => exact state_change (clearInputs_change i m)
  | moveToEnd i => exact state_change (moveToEnd_change (List.isEmpty_iff.1 h))

end Mutation

/-- What holds of a module however it was edited. -/
structure Consistent (m : Module) : Prop where
  order_nodup : m.order.Nodup
  mem_order : ∀ i, i ∈ m.order ↔ m.contains i
  inputs_before : ∀ i j n, m.get? j = some n → i ∈ n.inputs →
    ∃ p q, m.position? i = some p ∧ m.position? j = some q ∧ p < q
  users_iff : ∀ i j a b, m.get? i = some a → m.get? j = some b → (j ∈ a.users ↔ i ∈ b.inputs)
  users_nodup : ∀ i n, m.get? i = some n → n.users.Nodup
  names : ∀ i j a b name s t, m.get? i = some a → m.get? j = some b →
    a.op = .parameter name s → b.op = .parameter name t → i = j

private theorem Consistent.of_linked (hl : Linked m) (ho : Ordered m) (hd : DistinctNames m) :
    Consistent m where
  order_nodup := hl.nodup
  mem_order := hl.mem_order
  inputs_before i j n hn hi := by
    have hin : i ∈ m.inputsOf j := inputsOf_of_get? hn ▸ hi
    exact ⟨_, _, position?_of_mem (hl.input_mem_order hin), position?_of_mem (hl.user_mem_order hin),
      ho.idxOf_lt hl hin⟩
  users_iff i j a b ha hb := by
    rw [← usersOf_of_get? ha, ← inputsOf_of_get? hb, hl.mem_users]
  users_nodup i n hn := usersOf_of_get? hn ▸ hl.users_nodup i
  names i j a b name s t ha hb hpa hpb := by
    refine hd i j name ?_ ?_ <;>
      simp [nameOf?_eq, ha, hb, Instruction.parameterName?, Instruction.parameter?, hpa, hpb]

private theorem consistent_applyAll_from (edits : List Mutation) (hl : Linked m) (ho : Ordered m)
    (hd : DistinctNames m) (h : Mutation.allPermitted m edits) :
    Consistent (Mutation.applyAll m edits) := by
  induction edits generalizing m with
  | nil => exact .of_linked hl ho hd
  | cons e rest ih =>
    obtain ⟨he, hrest⟩ := Bool.and_eq_true_iff.1 h
    rcases e.apply_change hl he with heq | hc
    · exact ih (heq.symm ▸ hl) (heq.symm ▸ ho) (heq.symm ▸ hd) hrest
    · exact ih (hc.linked hl) (hc.ordered hl ho) (hc.distinctNames hl hd) hrest

/-- Every sequence of edits from an empty module, carried out or failing, ends in a consistent
module. -/
theorem consistent_applyAll (name : String) (edits : List Mutation)
    (h : Mutation.allPermitted (Module.empty name) edits) :
    Consistent (Mutation.applyAll (Module.empty name) edits) := by
  refine consistent_applyAll_from edits (linked_empty name) (ordered_empty name) ?_ h
  intro i j x hi
  simp [nameOf?, core?, Module.empty, get?, Arena.get?] at hi

/-- A sequence in which an instruction is rewritten to use one that stands later, which moves it
and its user, and in which some edits are refused. -/
theorem consistent_applyAll_sinking :
    let s := Shape.packedOf .float [2]
    let edits : List Mutation :=
      [.addParameter "x" s, .add (.unary .neg) [⟨0⟩], .add (.unary .exp) [⟨1⟩],
        .add (.unary .tanh) [⟨0⟩], .moveToEnd ⟨2⟩, .addParameter "x" s, .remove ⟨0⟩,
        .replace ⟨1⟩ (.unary .neg) [⟨3⟩], .replace ⟨3⟩ (.unary .neg) [⟨2⟩], .addOutput [⟨2⟩, ⟨2⟩],
        .replaceWith ⟨2⟩ ⟨3⟩]
    Mutation.allPermitted (Module.empty "main") edits ∧
      Consistent (Mutation.applyAll (Module.empty "main") edits) :=
  ⟨by decide, consistent_applyAll _ _ (by decide)⟩

end TensorGraph.Module
