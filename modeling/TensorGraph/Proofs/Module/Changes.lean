import TensorGraph.Proofs.Module.Lookup

/-! What a module holds after an instruction is placed, detached, erased, rewired or redirected. -/
namespace TensorGraph.Module

private theorem core?_update (m : Module) (i : InstructionId) (f : Instruction → Instruction)
    (j : InstructionId) :
    (m.update i f).core? j = if j = i then (m.get? j).map fun n => (f n).core else m.core? j := by
  simp only [core?, get?_update]
  split <;> simp [Function.comp_def]

private theorem usersOf_update (m : Module) (i : InstructionId) (f : Instruction → Instruction)
    (j : InstructionId) :
    (m.update i f).usersOf j =
      if j = i then ((m.get? j).map fun n => (f n).users).getD [] else m.usersOf j := by
  simp only [usersOf, get?_update]
  split <;> simp [Function.comp_def]

/-- An update that keeps cores and users changes nothing that is looked at. -/
theorem usersOf_update_of_users (m : Module) (i : InstructionId) {f : Instruction → Instruction}
    (hf : ∀ n, (f n).users = n.users) (j : InstructionId) :
    (m.update i f).usersOf j = m.usersOf j := by
  rw [usersOf_update]
  split
  · simp [hf, usersOf]
  · rfl

@[simp] theorem order_place (m : Module) (p : Nat) (n : Instruction) :
    (m.place p n).order = m.order.insertIdx p m.nextId := rfl

private theorem get?_stored (m : Module) (n : Instruction) (j : InstructionId) :
    ({ m with instructions := m.instructions.append n } : Module).get? j =
      if j = m.nextId then some n else m.get? j := by
  simp only [get?, Arena.get?_append, nextId, ← InstructionId.index_inj]

private theorem get?_place_eq (m : Module) (p : Nat) (n : Instruction) (j : InstructionId) :
    (m.place p n).get? j =
      (({ m with instructions := m.instructions.append n } : Module).link m.nextId n.inputs).get? j :=
  rfl

theorem core?_place (m : Module) (p : Nat) (n : Instruction) (j : InstructionId) :
    (m.place p n).core? j = if j = m.nextId then some n.core else m.core? j := by
  rw [core?, get?_place_eq, ← core?, core?_link, core?, get?_stored]
  split <;> rfl

theorem mem_usersOf_place {m : Module} {p : Nat} {n : Instruction} (hu : n.users = [])
    (hl : ∀ i ∈ n.inputs, (m.get? i).isSome) {j v : InstructionId} :
    v ∈ (m.place p n).usersOf j ↔ v ∈ m.usersOf j ∨ v = m.nextId ∧ j ∈ n.inputs := by
  rw [usersOf, get?_place_eq, ← usersOf, mem_usersOf_link, usersOf, get?_stored]
  by_cases hj : j = m.nextId
  · subst hj
    have hn : m.nextId ∉ n.inputs := fun h => by simpa [get?_nextId] using hl _ h
    simp [hu, hn, usersOf, get?_nextId]
  · rw [if_neg hj, ← usersOf]
    exact or_congr_right (and_congr_right fun _ => ⟨fun h => h.1, fun h => ⟨h, hl j h⟩⟩)

theorem nodup_usersOf_place {m : Module} {p : Nat} {n : Instruction} (hu : n.users = [])
    (h : ∀ i, (m.usersOf i).Nodup) : ∀ j, ((m.place p n).usersOf j).Nodup := by
  refine nodup_usersOf_link m.nextId n.inputs (fun j => ?_)
  rw [usersOf, get?_stored]
  split
  · simp [hu]
  · exact h j

@[simp] theorem name_place (m : Module) (p : Nat) (n : Instruction) : (m.place p n).name = m.name :=
  (sameFrame_link _ _ _).name

@[simp] theorem size_place (m : Module) (p : Nat) (n : Instruction) :
    (m.place p n).instructions.size = m.instructions.size + 1 :=
  (sameFrame_link { m with instructions := m.instructions.append n } _ _).size

theorem sameFrame_detach (m : Module) (i : InstructionId) : SameFrame m (m.detach i) :=
  (sameFrame_update m i _).trans (sameFrame_unlink _ _ _)

theorem core?_detach (m : Module) (i j : InstructionId) :
    (m.detach i).core? j =
      if j = i then (m.core? j).map fun n => { n with inputs := [] } else m.core? j := by
  rw [detach, core?_unlink, core?_update]
  split
  · simp [core?, Function.comp_def, Instruction.core]
  · rfl

theorem mem_usersOf_detach {m : Module} {i j v : InstructionId} :
    v ∈ (m.detach i).usersOf j ↔ v ∈ m.usersOf j ∧ ¬ (v = i ∧ j ∈ m.inputsOf i) := by
  rw [detach, mem_usersOf_unlink, usersOf_update_of_users m i]
  exact fun _ => rfl

theorem nodup_usersOf_detach {m : Module} (i : InstructionId) (h : ∀ j, (m.usersOf j).Nodup) :
    ∀ j, ((m.detach i).usersOf j).Nodup :=
  nodup_usersOf_unlink i _ (nodup_usersOf_update i (fun _ hn => hn) h)

theorem core?_erase (m : Module) (i j : InstructionId) :
    (m.erase i).core? j = if j = i then none else m.core? j := by
  simp only [core?, erase, get?, Arena.get?_remove, InstructionId.index_inj]
  split <;> rfl

theorem usersOf_erase (m : Module) (i j : InstructionId) :
    (m.erase i).usersOf j = if j = i then [] else m.usersOf j := by
  simp only [usersOf, erase, get?, Arena.get?_remove, InstructionId.index_inj]
  split <;> rfl

/-- The edges after an instruction is replaced in place, before anything moves. -/
def relink (m : Module) (old : InstructionId) (n : Instruction) : Module :=
  ((m.unlink old (m.inputsOf old)).link old n.inputs).update old
    fun before => { n with users := before.users }

theorem rewire_eq (m : Module) (old : InstructionId) (n : Instruction) :
    m.rewire old n = match (m.relink old n).latest? n.inputs with
      | some anchor =>
        if (m.relink old n).standsAfter anchor old then (m.relink old n).sinkAfter anchor [old]
        else m.relink old n
      | none => m.relink old n := rfl

theorem sameFrame_relink (m : Module) (old : InstructionId) (n : Instruction) :
    SameFrame m (m.relink old n) :=
  ((sameFrame_unlink m _ _).trans (sameFrame_link _ _ _)).trans (sameFrame_update _ _ _)

theorem core?_relink (m : Module) (old : InstructionId) (n : Instruction) (j : InstructionId) :
    (m.relink old n).core? j = if j = old then (m.core? j).map fun _ => n.core else m.core? j := by
  rw [relink, core?_update]
  split
  · rename_i hj
    subst hj
    have hc : (((m.unlink j (m.inputsOf j)).link j n.inputs).core? j) = m.core? j := by simp
    have hs := congrArg Option.isSome hc
    rw [isSome_core?, isSome_core?] at hs
    simp only [core?]
    cases hl : ((m.unlink j (m.inputsOf j)).link j n.inputs).get? j <;>
      cases hm : m.get? j <;> simp [hl, hm, Instruction.core] at hs ⊢
  · simp

theorem usersOf_relink (m : Module) (old : InstructionId) (n : Instruction) (j : InstructionId) :
    (m.relink old n).usersOf j =
      ((m.unlink old (m.inputsOf old)).link old n.inputs).usersOf j := by
  rw [relink, usersOf_update_of_users]
  exact fun _ => rfl

theorem mem_usersOf_relink {m : Module} {old : InstructionId} {n : Instruction}
    (hl : ∀ i ∈ n.inputs, (m.get? i).isSome) {j v : InstructionId} :
    v ∈ (m.relink old n).usersOf j ↔
      v ∈ m.usersOf j ∧ ¬ (v = old ∧ j ∈ m.inputsOf old) ∨ v = old ∧ j ∈ n.inputs := by
  rw [usersOf_relink, mem_usersOf_link, mem_usersOf_unlink, isSome_get?_unlink]
  exact or_congr_right (and_congr_right fun _ => ⟨fun h => h.1, fun h => ⟨h, hl j h⟩⟩)

theorem nodup_usersOf_relink {m : Module} (old : InstructionId) (n : Instruction)
    (h : ∀ j, (m.usersOf j).Nodup) : ∀ j, ((m.relink old n).usersOf j).Nodup :=
  nodup_usersOf_update old (fun _ hn => hn) (nodup_usersOf_link _ _ (nodup_usersOf_unlink _ _ h))

/-- Makes one user of `old` use `new`. -/
def redirectOne (old new : InstructionId) (m : Module) (r : Redirected) : Module :=
  ((m.update old (·.removeUser r.user)).update new (·.addUser r.user)).update r.user
    fun n => { n with inputs := r.inputs, shape := r.shape }

theorem redirect_eq (m : Module) (old new : InstructionId) (rs : List Redirected) :
    m.redirect old new rs =
      if ((rs.map Redirected.user).filter fun u =>
          (rs.foldl (redirectOne old new) m).standsAfter new u).isEmpty then
        rs.foldl (redirectOne old new) m
      else (rs.foldl (redirectOne old new) m).sinkAfter new
        ((rs.map Redirected.user).filter fun u =>
          (rs.foldl (redirectOne old new) m).standsAfter new u) := rfl

theorem sameFrame_redirectEdges (m : Module) (old new : InstructionId) (rs : List Redirected) :
    SameFrame m (rs.foldl (redirectOne old new) m) := by
  induction rs generalizing m with
  | nil => exact .refl m
  | cons r rs ih =>
    refine SameFrame.trans ?_ (ih _)
    exact ((sameFrame_update m _ _).trans (sameFrame_update _ _ _)).trans (sameFrame_update _ _ _)

private theorem core?_redirectOne (old new : InstructionId) (m : Module) (r : Redirected)
    (j : InstructionId) :
    (redirectOne old new m r).core? j =
      if j = r.user then (m.core? j).map fun n => { n with inputs := r.inputs, shape := r.shape }
      else m.core? j := by
  have hm : ∀ k, ((m.update old (·.removeUser r.user)).update new (·.addUser r.user)).core? k =
      m.core? k := by
    intro k
    rw [core?_update]
    split
    · simp only [Instruction.core_addUser]
      rw [← core?, core?_update]
      split <;> rfl
    · rw [core?_update]
      split <;> rfl
  rw [redirectOne, core?_update]
  split
  · rw [← hm, core?, Option.map_map]
    rfl
  · exact hm j

theorem core?_redirectEdges_of_notMem {old new : InstructionId} {rs : List Redirected} {m : Module}
    {j : InstructionId} (h : j ∉ rs.map Redirected.user) :
    (rs.foldl (redirectOne old new) m).core? j = m.core? j := by
  induction rs generalizing m with
  | nil => rfl
  | cons r rs ih =>
    simp only [List.map_cons, List.mem_cons, not_or] at h
    rw [List.foldl_cons, ih h.2, core?_redirectOne, if_neg h.1]

theorem core?_redirectEdges_of_mem {old new : InstructionId} {rs : List Redirected} {m : Module}
    (hn : (rs.map Redirected.user).Nodup) {r : Redirected} (h : r ∈ rs) :
    (rs.foldl (redirectOne old new) m).core? r.user =
      (m.core? r.user).map fun n => { n with inputs := r.inputs, shape := r.shape } := by
  induction rs generalizing m with
  | nil => cases h
  | cons s rs ih =>
    simp only [List.map_cons, List.nodup_cons] at hn
    rw [List.foldl_cons]
    rcases List.mem_cons.1 h with rfl | h
    · rw [core?_redirectEdges_of_notMem hn.1, core?_redirectOne, if_pos rfl]
    · have hne : r.user ≠ s.user := fun e => hn.1 (e ▸ List.mem_map_of_mem h)
      rw [ih hn.2 h, core?_redirectOne, if_neg hne]

private theorem mem_usersOf_redirectOne {old new : InstructionId} (hne : old ≠ new) {m : Module}
    (hl : (m.get? new).isSome) {r : Redirected} {j v : InstructionId} :
    v ∈ (redirectOne old new m r).usersOf j ↔
      v ∈ m.usersOf j ∧ ¬ (j = old ∧ v = r.user) ∨ j = new ∧ v = r.user := by
  rw [redirectOne, usersOf_update_of_users _ r.user (by exact fun _ => rfl), usersOf_update]
  by_cases hj : j = new
  · subst hj
    obtain ⟨n, hn⟩ := Option.isSome_iff_exists.1 hl
    simp [get?_update, Ne.symm hne, hn, usersOf, Instruction.mem_users_addUser, or_comm]
  · rw [if_neg hj, usersOf_update]
    by_cases ho : j = old
    · subst ho
      cases hg : m.get? j <;> simp [hg, hj, usersOf, Instruction.mem_users_removeUser]
    · simp [ho, hj]

theorem mem_usersOf_redirectEdges {old new : InstructionId} (hne : old ≠ new) {m : Module}
    (hl : (m.get? new).isSome) {rs : List Redirected} {j v : InstructionId} :
    v ∈ (rs.foldl (redirectOne old new) m).usersOf j ↔
      v ∈ m.usersOf j ∧ ¬ (j = old ∧ v ∈ rs.map Redirected.user) ∨
        j = new ∧ v ∈ rs.map Redirected.user := by
  induction rs generalizing m with
  | nil => simp
  | cons r rs ih =>
    have hl' : ((redirectOne old new m r).get? new).isSome := by
      rw [← isSome_core?, core?_redirectOne]
      split <;> simpa [isSome_core?] using hl
    rw [List.foldl_cons, ih hl', mem_usersOf_redirectOne hne hl, List.map_cons, List.mem_cons]
    by_cases hj : j = new
    · simp only [hj, false_and, not_false_eq_true, and_true, true_and, hne.symm, or_assoc]
    · simp only [hj, false_and, or_false, and_assoc]
      exact and_congr_right fun _ => by rw [← not_or, ← and_or_left]

theorem nodup_usersOf_redirectEdges (old new : InstructionId) (rs : List Redirected) {m : Module}
    (h : ∀ i, (m.usersOf i).Nodup) : ∀ j, ((rs.foldl (redirectOne old new) m).usersOf j).Nodup := by
  induction rs generalizing m with
  | nil => exact h
  | cons r rs ih =>
    refine ih (nodup_usersOf_update r.user (fun _ hn => hn) ?_)
    exact nodup_usersOf_update new (fun _ => Instruction.nodup_users_addUser r.user)
      (nodup_usersOf_update old (fun _ => Instruction.nodup_users_removeUser r.user) h)

/-- Removes what stands behind a position, and every use of it. -/
def truncate (m : Module) (length : Nat) : Module :=
  (m.order.drop length).foldl forget
    ((m.order.drop length).foldl detach { m with order := m.order.take length })

theorem sameFrame_detachAll (m : Module) (is : List InstructionId) :
    SameFrame m (is.foldl detach m) := by
  induction is generalizing m with
  | nil => exact .refl m
  | cons i is ih => exact (sameFrame_detach m i).trans (ih _)

theorem core?_detachAll (m : Module) (is : List InstructionId) (j : InstructionId) :
    (is.foldl detach m).core? j =
      if j ∈ is then (m.core? j).map fun n => { n with inputs := [] } else m.core? j := by
  induction is generalizing m with
  | nil => simp
  | cons i is ih =>
    rw [List.foldl_cons, ih, core?_detach]
    by_cases hj : j = i
    · by_cases hm : j ∈ is <;> simp [hj, hj ▸ hm, Function.comp_def]
    · simp [hj]

theorem mem_usersOf_detachAll {m : Module} {is : List InstructionId} {j v : InstructionId} :
    v ∈ (is.foldl detach m).usersOf j ↔ v ∈ m.usersOf j ∧ ¬ (v ∈ is ∧ j ∈ m.inputsOf v) := by
  induction is generalizing m with
  | nil => simp
  | cons i is ih =>
    rw [List.foldl_cons, ih, mem_usersOf_detach, inputsOf_eq_core (m.detach i), core?_detach]
    by_cases hv : v = i
    · subst hv
      cases hc : m.core? v <;> simp [inputsOf_eq_core, hc]
    · simp [hv, inputsOf_eq_core]

theorem nodup_usersOf_detachAll {m : Module} (is : List InstructionId)
    (h : ∀ j, (m.usersOf j).Nodup) : ∀ j, ((is.foldl detach m).usersOf j).Nodup := by
  induction is generalizing m with
  | nil => exact h
  | cons i is ih => exact ih (nodup_usersOf_detach i h)

private theorem get?_forget (m : Module) (i j : InstructionId) :
    (m.forget i).get? j = if j = i then none else
      if j ∈ m.usersOf i then (m.get? j).map fun n => { n with inputs := n.inputs.filter (· ≠ i) }
      else m.get? j := by
  rw [forget, get?, Arena.get?_remove, ← get?, get?_foldl_update _ (fun n => by simp)]
  simp only [InstructionId.index_inj]

private theorem order_forget (m : Module) (i : InstructionId) : (m.forget i).order = m.order :=
  (sameFrame_foldl_update (fun _ n => { n with inputs := n.inputs.filter (· ≠ i) }) _ m).order

private theorem name_forget (m : Module) (i : InstructionId) : (m.forget i).name = m.name :=
  (sameFrame_foldl_update (fun _ n => { n with inputs := n.inputs.filter (· ≠ i) }) _ m).name

private theorem size_forget {m : Module} {i : InstructionId} (h : (m.get? i).isSome) :
    (m.forget i).instructions.size = m.instructions.size - 1 := by
  have hf := sameFrame_foldl_update (fun _ n => { n with inputs := n.inputs.filter (· ≠ i) })
    (m.usersOf i) m
  rw [forget, Arena.size_remove, hf.size]
  refine if_pos ?_
  rw [← get?, get?_foldl_update _ (fun n => by simp)]
  split <;> simpa using h

private theorem usersOf_forget (m : Module) (i j : InstructionId) :
    (m.forget i).usersOf j = if j = i then [] else m.usersOf j := by
  rw [usersOf, get?_forget]
  split
  · rfl
  · split <;> simp [usersOf, Function.comp_def]

private theorem core?_forget (m : Module) (i j : InstructionId) :
    (m.forget i).core? j = if j = i then none else
      (m.core? j).map fun n =>
        { n with inputs := n.inputs.filter fun x => ¬ (x = i ∧ j ∈ m.usersOf i) } := by
  rw [core?, get?_forget, core?]
  split
  · rfl
  · by_cases hu : j ∈ m.usersOf i
    · cases m.get? j <;> simp [hu, Instruction.core]
    · cases m.get? j with
      | none => simp
      | some n => simp [hu, Instruction.core, List.filter_eq_self.2]

theorem order_forgetAll (m : Module) (is : List InstructionId) :
    (is.foldl forget m).order = m.order := by
  induction is generalizing m with
  | nil => rfl
  | cons i is ih => rw [List.foldl_cons, ih, order_forget]

theorem name_forgetAll (m : Module) (is : List InstructionId) :
    (is.foldl forget m).name = m.name := by
  induction is generalizing m with
  | nil => rfl
  | cons i is ih => rw [List.foldl_cons, ih, name_forget]

theorem size_forgetAll {m : Module} {is : List InstructionId} (hn : is.Nodup)
    (h : ∀ i ∈ is, (m.get? i).isSome) :
    (is.foldl forget m).instructions.size = m.instructions.size - is.length := by
  induction is generalizing m with
  | nil => rfl
  | cons i is ih =>
    obtain ⟨hi, hn⟩ := List.nodup_cons.1 hn
    have hs : ∀ j ∈ is, ((m.forget i).get? j).isSome := fun j hj => by
      have hne : j ≠ i := fun e => hi (e ▸ hj)
      rw [← isSome_core?, core?_forget, if_neg hne, Option.isSome_map, isSome_core?]
      exact h j (by simp [hj])
    rw [List.foldl_cons, ih hn hs, size_forget (h i (by simp)), List.length_cons]
    omega

theorem usersOf_forgetAll (m : Module) (is : List InstructionId) (j : InstructionId) :
    (is.foldl forget m).usersOf j = if j ∈ is then [] else m.usersOf j := by
  induction is generalizing m with
  | nil => simp
  | cons i is ih =>
    rw [List.foldl_cons, ih, usersOf_forget]
    by_cases hj : j = i <;> by_cases hm : j ∈ is <;> simp [hj]

theorem core?_forgetAll {m : Module} {is : List InstructionId} (hn : is.Nodup)
    (j : InstructionId) :
    (is.foldl forget m).core? j = if j ∈ is then none else
      (m.core? j).map fun n =>
        { n with inputs := n.inputs.filter fun x => ¬ (x ∈ is ∧ j ∈ m.usersOf x) } := by
  induction is generalizing m with
  | nil => cases hc : m.core? j <;> simp [hc, List.filter_eq_self.2]
  | cons i is ih =>
    obtain ⟨hi, hn⟩ := List.nodup_cons.1 hn
    rw [List.foldl_cons, ih hn, core?_forget]
    by_cases hj : j = i
    · simp [hj]
    · by_cases hm : j ∈ is
      · simp [hm]
      · cases hc : m.core? j with
        | none => simp [hj, hm]
        | some n =>
          simp only [hm, hj, if_false, List.mem_cons, or_self, Option.map_some, List.filter_filter]
          congr 3
          funext x
          by_cases hx : x = i
          · subst hx
            simp [hi]
          · simp [hx, usersOf_forget]

end TensorGraph.Module
