import TensorGraph.Proofs.Module.Edit

/-! Making the users of an instruction use an earlier one moves nothing. -/
namespace TensorGraph.Module
variable {m m' : Module} {i j old new : InstructionId}

/-- An instruction that is replaced by one with earlier inputs stays where it is. -/
theorem rewire_of_earlier (hl : Linked m) (hold : (m.get? old).isSome) {n : Instruction}
    (hi : ∀ i ∈ n.inputs, (m.get? i).isSome)
    (hlt : ∀ i ∈ n.inputs, m.order.idxOf i < m.order.idxOf old) :
    m.rewire old n = m.relink old n := by
  have horder := (sameFrame_relink m old n).order
  have hmem : ∀ i ∈ n.inputs, i ∈ (m.relink old n).order := fun i h =>
    (mem_order_relink hl).2 (hi i h)
  by_cases hne : n.inputs = []
  · rw [rewire_eq, hne]
    rfl
  obtain ⟨a, ha, he, -⟩ := latest?_spec hmem hne
  have hno : ¬ (m.relink old n).standsAfter a old := by
    rw [standsAfter_iff (hmem a ha) ((mem_order_relink hl).2 hold), horder]
    exact Nat.lt_asymm (hlt a ha)
  simp only [rewire_eq, he, if_neg hno]

/-- Users that are redirected to an earlier instruction stay where they are. -/
theorem redirect_of_earlier (hl : Linked m) (ho : Ordered m) {rs : List Redirected}
    (hn : (m.get? new).isSome) (hr : Redirection m old new rs)
    (hlt : m.order.idxOf new < m.order.idxOf old) :
    m.redirect old new rs = rs.foldl (redirectOne old new) m := by
  have horder := (sameFrame_redirectEdges m old new rs).order
  rw [redirect_eq]
  refine if_pos (List.isEmpty_iff.2 (List.filter_eq_nil_iff.2 fun u hu => ?_))
  have hin : old ∈ m.inputsOf u := (hl.mem_users old u).1 (hr.mem_users.1 hu).1
  have hnew : new ∈ (rs.foldl (redirectOne old new) m).order := by rwa [horder, hl.mem_order]
  rw [standsAfter_iff hnew (horder ▸ hl.user_mem_order hin), horder]
  exact Nat.lt_asymm (Nat.lt_trans hlt (ho.idxOf_lt hl hin))

theorem map_forward_of_notMem {is : List InstructionId} (h : old ∉ is) :
    (is.map fun i => if i = old then new else i) = is := by
  refine (List.map_congr_left fun i hi => if_neg ?_).trans (List.map_id is)
  exact fun he => h (he ▸ hi)

theorem Forwarded.order_eq (h : Forwarded m old new m') (hl : Linked m) (ho : Ordered m)
    (hlt : m.order.idxOf new < m.order.idxOf old) : m'.order = m.order := by
  cases h with
  | replaced _ hr =>
    rw [rewire_of_earlier hl hr.old_live (hr.inputs_eq ▸ hr.live)
      (by simpa [hr.inputs_eq] using hlt)]
    exact (sameFrame_relink _ _ _).order
  | redirected hn _ _ _ hr =>
    rw [redirect_of_earlier hl ho hn hr hlt]
    exact (sameFrame_redirectEdges _ _ _ _).order

/-- Where an instruction other than the last is forwarded to an earlier one, everything that used it
uses the earlier one. -/
theorem Forwarded.inputsOf_eq (h : Forwarded m old new m') (hl : Linked m) (ho : Ordered m)
    (hlast : m.last? ≠ some old) (hlt : m.order.idxOf new < m.order.idxOf old) (u : InstructionId) :
    m'.inputsOf u = (m.inputsOf u).map fun i => if i = old then new else i := by
  have hne : old ≠ new := fun he => Nat.lt_irrefl _ (he ▸ hlt)
  cases h with
  | replaced hlast' _ => exact absurd hlast' hlast
  | redirected hn _ _ _ hr =>
    rw [inputsOf_eq_core, core?_redirect hl hne hn hr, ← inputsOf_eq_core,
      inputsOf_redirectEdges hl hr]
    split
    · rfl
    rename_i hu
    refine (map_forward_of_notMem fun hin => hu (hr.mem_users.2 ⟨?_, fun hnew => ?_⟩)).symm
    · exact (hl.mem_users old u).2 hin
    · exact Nat.lt_asymm hlt (hnew ▸ ho.idxOf_lt hl hin)

theorem map_forward {α : Type} {f : InstructionId → α} (h : f old = f new)
    (is : List InstructionId) :
    (is.map fun i => if i = old then new else i).map f = is.map f := by
  rw [List.map_map]
  refine List.map_congr_left fun i _ => ?_
  simp only [Function.comp_apply]
  split
  · rename_i hi
    rw [hi, h]
  · rfl

/-- What a user becomes: it has the new instruction among its inputs, and the shape inferred from
them. -/
theorem Redirection.core?_user {rs : List Redirected} {u : InstructionId}
    (hr : Redirection m old new rs) (hl : Linked m) (hne : old ≠ new) (hn : (m.get? new).isSome)
    (hu : u ∈ m.usersOf old) (hun : u ≠ new) :
    ∃ n n', m.core? u = some n ∧ (m.redirect old new rs).core? u = some n' ∧
      n' = { n with
        inputs := n.inputs.map fun i => if i = old then new else i
        shape := n'.shape } ∧
      n.op.inferShape (n'.inputs.map m.shapeOf) n.moduleOutputs = .ok n'.shape := by
  obtain ⟨r, hrs, rfl⟩ := List.mem_map.1 (hr.mem_users.2 ⟨hu, hun⟩)
  obtain ⟨n, hget, -, hin, -, hs⟩ := hr.fits r hrs
  have hcore := core?_of_get? hget
  refine ⟨n.core, { n.core with inputs := r.inputs, shape := r.shape }, hcore, ?_, ?_, hs⟩
  · rw [core?_redirect hl hne hn hr, core?_redirectEdges_of_mem (hr.nodup hl) hrs, hcore]
    rfl
  · rw [hin]
    rfl

/-- What an instruction becomes when users are made to use another instruction: it stays as it is,
is a user that gets the shape inferred from its new inputs, or is the last one and becomes the
identity. -/
theorem Forwarded.core?_cases (h : Forwarded m old new m') (hne : old ≠ new) (hl : Linked m)
    {n' : Instruction} (hj : m'.core? j = some n') :
    m.core? j = some n' ∨
      (∃ n, m.core? j = some n ∧
        n' = { n with
          inputs := n.inputs.map fun i => if i = old then new else i
          shape := n'.shape } ∧
        old ∈ n.inputs ∧
        n.op.inferShape (n'.inputs.map m.shapeOf) n.moduleOutputs = .ok n'.shape) ∨
      j = old ∧ m.last? = some old ∧
        ∃ before after, Replacement m old .identity [new] before after ∧ n' = after.core := by
  cases h with
  | @replaced before after hlast hr =>
    rw [hr.core?_rewire hl] at hj
    split at hj
    · rename_i hjo
      cases hj
      exact .inr (.inr ⟨hjo, hlast, before, after, hr, rfl⟩)
    · exact .inl hj
  | @redirected rs n hn _ _ _ hr =>
    by_cases hu : j ∈ m.usersOf old ∧ j ≠ new
    · obtain ⟨k, k', hk, hk', he, hs⟩ := hr.core?_user hl hne hn hu.1 hu.2
      cases hj.symm.trans hk'
      have hold : old ∈ k.inputs := by
        have hin := (hl.mem_users old j).1 hu.1
        rwa [inputsOf_eq_core, hk] at hin
      exact .inr (.inl ⟨k, hk, he, hold, hs⟩)
    · rw [core?_redirect hl hne hn hr,
        core?_redirectEdges_of_notMem fun h => hu (hr.mem_users.1 h)] at hj
      exact .inl hj

end TensorGraph.Module
