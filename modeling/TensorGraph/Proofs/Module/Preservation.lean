import TensorGraph.Proofs.Module.Order

/-! The changes that edits are made of keep a module linked, and keep its order topological where
nothing is moved at will. -/
namespace TensorGraph.Module
variable {m m' : Module} {i j old new : InstructionId} {n : Instruction}

theorem Linked.of_sameFrame (hl : Linked m) (hf : SameFrame m m')
    (hc : ∀ i, (m'.core? i).isSome = (m.core? i).isSome) (hn : ∀ i, (m'.usersOf i).Nodup)
    (hu : ∀ i j, j ∈ m'.usersOf i ↔ i ∈ m'.inputsOf j) : Linked m' where
  nodup := hf.order ▸ hl.nodup
  mem_order i := by rw [hf.order, hl.mem_order, ← isSome_core?, ← hc, isSome_core?]
  size := by rw [hf.size, hf.order, hl.size]
  users_nodup := hn
  mem_users := hu

theorem linked_empty (name : String) : Linked (Module.empty name) where
  nodup := by simp [Module.empty]
  mem_order i := by simp [Module.empty, get?, Arena.get?]
  size := rfl
  users_nodup i := by simp [Module.empty, usersOf, get?, Arena.get?]
  mem_users i j := by simp [Module.empty, usersOf, inputsOf, get?, Arena.get?]

theorem ordered_empty (name : String) : Ordered (Module.empty name) where
  pairwise := .nil
  irrefl i := by simp [Module.empty, inputsOf, get?, Arena.get?]

private theorem inputsOf_place (m : Module) (p : Nat) (n : Instruction) (j : InstructionId) :
    (m.place p n).inputsOf j = if j = m.nextId then n.inputs else m.inputsOf j := by
  rw [inputsOf_eq_core, core?_place]
  split
  · rfl
  · rw [inputsOf_eq_core]

theorem nextId_notMem_order (hl : Linked m) : m.nextId ∉ m.order := fun h => by
  simpa [get?_nextId] using (hl.mem_order _).1 h

private theorem inputsOf_place_of_mem (hl : Linked m) (h : i ∈ m.order) (p : Nat) (n : Instruction) :
    (m.place p n).inputsOf i = m.inputsOf i := by
  have hne : i ≠ m.nextId := fun e => nextId_notMem_order hl (e ▸ h)
  rw [inputsOf_place, if_neg hne]

private theorem insertIdx_eq_take_drop {l : List InstructionId} {p : Nat} (h : p ≤ l.length)
    (i : InstructionId) : l.insertIdx p i = l.take p ++ i :: l.drop p := by
  induction l generalizing p with
  | nil => simp_all
  | cons a l ih =>
    cases p with
    | zero => simp
    | succ p => simpa using ih (by simpa using h)

theorem order_place_eq {p : Nat} (h : p ≤ m.order.length) (n : Instruction) :
    (m.place p n).order = m.order.take p ++ m.nextId :: m.order.drop p :=
  insertIdx_eq_take_drop h _

theorem last?_place {p : Nat} (h : p < m.order.length) (n : Instruction) :
    (m.place p n).last? = m.last? := by
  have hne : m.order.drop p ≠ [] := by simpa using h
  rw [last?, last?, order_place_eq (Nat.le_of_lt h), List.getLast?_append_cons,
    List.getLast?_cons_of_ne_nil hne]
  conv_rhs => rw [← List.take_append_drop p m.order, List.getLast?_append_of_ne_nil _ hne]

private theorem order_place_perm {p : Nat} (h : p ≤ m.order.length) (n : Instruction) :
    (m.place p n).order.Perm (m.nextId :: m.order) := by
  rw [order_place_eq h]
  exact List.perm_middle.trans (.cons _ (by rw [List.take_append_drop]))

theorem linked_place (hl : Linked m) {p : Nat} (hp : p ≤ m.order.length) (hu : n.users = [])
    (hi : ∀ i ∈ n.inputs, i ∈ m.order) : Linked (m.place p n) where
  nodup := (order_place_perm hp n).nodup_iff.2 (List.nodup_cons.2 ⟨nextId_notMem_order hl, hl.nodup⟩)
  mem_order i := by
    rw [(order_place_perm hp n).mem_iff, List.mem_cons, hl.mem_order, ← isSome_core?,
      ← isSome_core?, core?_place]
    split <;> simp [*]
  size := by rw [size_place, (order_place_perm hp n).length_eq, List.length_cons, hl.size]
  users_nodup := nodup_usersOf_place hu hl.users_nodup
  mem_users i j := by
    rw [mem_usersOf_place hu fun k hk => (hl.mem_order k).1 (hi k hk), inputsOf_place, hl.mem_users]
    split
    · rename_i hj
      simp [hj, inputsOf, get?_nextId]
    · rename_i hj
      simp [hj]

theorem ordered_place (hl : Linked m) (ho : Ordered m) {p : Nat} (hp : p ≤ m.order.length)
    (hi : ∀ i ∈ n.inputs, i ∈ m.order.take p) : Ordered (m.place p n) where
  pairwise := by
    have hnew := nextId_notMem_order hl
    have hpw : m.order.Pairwise fun a b => b ∉ (m.place p n).inputsOf a :=
      ho.pairwise.imp_of_mem fun ha _ h => by rwa [inputsOf_place_of_mem hl ha]
    rw [← List.take_append_drop p m.order] at hpw
    obtain ⟨htake, hdrop, hcross⟩ := List.pairwise_append.1 hpw
    have hn := hl.nodup
    rw [← List.take_append_drop p m.order] at hn
    rw [order_place_eq hp]
    refine List.pairwise_append.2 ⟨htake, List.pairwise_cons.2 ⟨?_, hdrop⟩, ?_⟩
    · intro b hb h
      rw [inputsOf_place, if_pos rfl] at h
      exact (List.nodup_append.1 hn).2.2 b (hi b h) b hb rfl
    · intro a ha b hb
      rcases List.mem_cons.1 hb with rfl | hb
      · rw [inputsOf_place_of_mem hl (List.mem_of_mem_take ha)]
        exact fun h => hnew (hl.input_mem_order h)
      · exact hcross a ha b hb
  irrefl i := by
    rw [inputsOf_place]
    split
    · rintro h
      exact nextId_notMem_order hl (List.mem_of_mem_take (‹i = m.nextId› ▸ hi i h))
    · exact ho.irrefl i

private theorem inputsOf_detach (m : Module) (i j : InstructionId) :
    (m.detach i).inputsOf j = if j = i then [] else m.inputsOf j := by
  rw [inputsOf_eq_core, core?_detach, inputsOf_eq_core]
  split
  · cases m.core? j <;> rfl
  · rfl

theorem linked_detach (hl : Linked m) (i : InstructionId) : Linked (m.detach i) := by
  refine hl.of_sameFrame (sameFrame_detach m i) (fun j => ?_)
    (nodup_usersOf_detach i hl.users_nodup) (fun j k => ?_)
  · rw [core?_detach]
    split <;> simp
  · rw [mem_usersOf_detach, inputsOf_detach, hl.mem_users]
    split
    · rename_i hk
      simp [hk]
    · rename_i hk
      simp [hk]

theorem Ordered.of_subset (ho : Ordered m) (h : m'.order.Sublist m.order)
    (hs : ∀ i, m'.inputsOf i ⊆ m.inputsOf i) : Ordered m' where
  pairwise := (ho.pairwise.sublist h).imp fun ha hb => ha (hs _ hb)
  irrefl i hi := ho.irrefl i (hs i hi)

private theorem inputsOf_detach_subset (m : Module) (i j : InstructionId) :
    (m.detach i).inputsOf j ⊆ m.inputsOf j := by
  rw [inputsOf_detach]
  split
  · exact List.nil_subset _
  · exact List.Subset.refl _

theorem ordered_detach (ho : Ordered m) (i : InstructionId) : Ordered (m.detach i) :=
  ho.of_subset ((sameFrame_detach m i).order ▸ List.Sublist.refl _) (inputsOf_detach_subset m i)

private theorem inputsOf_erase (m : Module) (i j : InstructionId) :
    (m.erase i).inputsOf j = if j = i then [] else m.inputsOf j := by
  rw [inputsOf_eq_core, core?_erase, inputsOf_eq_core]
  split <;> rfl

private theorem size_erase (h : (m.get? i).isSome) :
    (m.erase i).instructions.size = m.instructions.size - 1 := by
  rw [erase, Arena.size_remove]
  exact if_pos h

theorem filter_ne_eq_erase (hl : Linked m) (i : InstructionId) :
    m.order.filter (· ≠ i) = m.order.erase i := by
  rw [hl.nodup.erase_eq_filter]
  exact List.filter_congr fun x _ => by by_cases h : x = i <;> simp [h]

/-- An instruction that nothing is linked to can be erased. -/
theorem linked_erase (hl : Linked m) (hi : (m.get? i).isSome) (hu : m.usersOf i = [])
    (hn : m.inputsOf i = []) : Linked (m.erase i) where
  nodup := hl.nodup.filter _
  mem_order j := by
    rw [erase, List.mem_filter, hl.mem_order, ← isSome_core?, ← isSome_core?, ← erase, core?_erase]
    split <;> simp [*]
  size := by
    have hm := (hl.mem_order i).2 hi
    rw [size_erase hi, hl.size, erase, filter_ne_eq_erase hl, List.length_erase_of_mem hm]
  users_nodup j := by
    rw [usersOf_erase]
    split
    · exact List.nodup_nil
    · exact hl.users_nodup j
  mem_users j k := by
    rw [usersOf_erase, inputsOf_erase]
    by_cases hj : j = i
    · by_cases hk : k = i
      · simp [hj, hk]
      · have : i ∉ m.inputsOf k := fun h => by simpa [hu] using (hl.mem_users i k).2 h
        simp [hj, hk, this]
    · by_cases hk : k = i
      · have : i ∉ m.usersOf j := fun h => by simpa [hn] using (hl.mem_users j i).1 h
        simp [hj, hk, this]
      · simp [hj, hk, hl.mem_users]

theorem ordered_erase (ho : Ordered m) (i : InstructionId) : Ordered (m.erase i) := by
  refine ho.of_subset List.filter_sublist fun j => ?_
  rw [inputsOf_erase]
  split
  · exact List.nil_subset _
  · exact List.Subset.refl _

/-- An instruction without users is removed once its inputs are taken away. -/
theorem linked_remove (hl : Linked m) (hi : (m.get? i).isSome) (hu : m.usersOf i = []) :
    Linked ((m.detach i).erase i) := by
  refine linked_erase (linked_detach hl i) ?_ ?_ ?_
  · rw [← isSome_core?, core?_detach, if_pos rfl, Option.isSome_map, isSome_core?]
    exact hi
  · refine List.eq_nil_iff_forall_not_mem.2 fun v hv => ?_
    simpa [hu] using (mem_usersOf_detach.1 hv).1
  · rw [inputsOf_detach, if_pos rfl]

theorem order_toEnd_perm (hl : Linked m) (hi : (m.get? i).isSome) :
    (m.toEnd i).order.Perm m.order := by
  have hm := (hl.mem_order i).2 hi
  rw [toEnd, filter_ne_eq_erase hl]
  exact (List.perm_append_singleton i _).trans (List.perm_cons_erase hm).symm

theorem linked_toEnd (hl : Linked m) (hi : (m.get? i).isSome) : Linked (m.toEnd i) :=
  hl.reorder (order_toEnd_perm hl hi)

/-- An instruction without users can go to the end. -/
theorem ordered_toEnd (hl : Linked m) (ho : Ordered m) (hu : m.usersOf i = []) :
    Ordered (m.toEnd i) where
  pairwise := by
    refine List.pairwise_append.2 ⟨ho.pairwise.sublist List.filter_sublist, by simp, ?_⟩
    intro a _ b hb h
    rw [List.mem_singleton.1 hb] at h
    have := (hl.mem_users i a).2 h
    simp [hu] at this
  irrefl := ho.irrefl

theorem inputsOf_relink (h : (m.get? old).isSome) (n : Instruction) (j : InstructionId) :
    (m.relink old n).inputsOf j = if j = old then n.inputs else m.inputsOf j := by
  rw [inputsOf_eq_core, core?_relink, inputsOf_eq_core]
  split
  · rename_i hj
    obtain ⟨k, hk⟩ := Option.isSome_iff_exists.1 (hj ▸ h)
    simp [core?, hk, Instruction.core]
  · rfl

theorem mem_order_relink (hl : Linked m) :
    i ∈ (m.relink old n).order ↔ (m.get? i).isSome := by
  rw [(sameFrame_relink m old n).order, hl.mem_order]

theorem linked_relink (hl : Linked m) (h : (m.get? old).isSome)
    (hi : ∀ i ∈ n.inputs, (m.get? i).isSome) : Linked (m.relink old n) := by
  refine hl.of_sameFrame (sameFrame_relink m old n) (fun j => ?_)
    (nodup_usersOf_relink old n hl.users_nodup) (fun j k => ?_)
  · rw [core?_relink]
    split <;> simp
  · rw [mem_usersOf_relink hi, inputsOf_relink h, hl.mem_users]
    split
    · rename_i hk
      simp [hk]
    · rename_i hk
      simp [hk]

/-- What replacing in place leaves: the new edges, and an order that only moves. -/
theorem rewire_reorder (hl : Linked m) (h : (m.get? old).isSome)
    (hi : ∀ i ∈ n.inputs, (m.get? i).isSome) :
    ∃ l, l.Perm m.order ∧ m.rewire old n = { m.relink old n with order := l } := by
  have hl' := linked_relink hl h hi
  have horder := (sameFrame_relink m old n).order
  have hsame : ∃ l, l.Perm m.order ∧ m.relink old n = { m.relink old n with order := l } :=
    ⟨_, .refl _, by rw [← horder]⟩
  rw [rewire_eq]
  split
  · split
    · rename_i hs
      obtain ⟨l, hp, he⟩ := sinkAfter_perm hl' (mem_order_of_standsAfter hs) [old]
      exact ⟨l, horder ▸ hp, he⟩
    · exact hsame
  · exact hsame

theorem linked_rewire (hl : Linked m) (h : (m.get? old).isSome)
    (hi : ∀ i ∈ n.inputs, (m.get? i).isSome) : Linked (m.rewire old n) := by
  obtain ⟨l, hp, he⟩ := rewire_reorder hl h hi
  rw [he]
  exact (linked_relink hl h hi).reorder ((sameFrame_relink m old n).order ▸ hp)

/-- New inputs that do not depend on the instruction can be put behind it, and it moves. -/
theorem ordered_rewire (hl : Linked m) (ho : Ordered m) (h : (m.get? old).isSome)
    (hi : ∀ i ∈ n.inputs, (m.get? i).isSome) (hd : ∀ i ∈ n.inputs, ¬ m.Depends i old) :
    Ordered (m.rewire old n) := by
  have hl' := linked_relink hl h hi
  have horder := (sameFrame_relink m old n).order
  have hin := inputsOf_relink h n
  have hmem : ∀ i ∈ n.inputs, i ∈ (m.relink old n).order := fun i hx =>
    (mem_order_relink hl).2 (hi i hx)
  have hold : old ∈ (m.relink old n).order := (mem_order_relink hl).2 h
  have hirrefl : ∀ i, i ∉ (m.relink old n).inputsOf i := by
    intro i
    rw [hin]
    split
    · rename_i he
      exact fun hx => hd i hx (he ▸ .refl)
    · exact ho.irrefl i
  have hdep : ∀ i ∈ n.inputs, ¬ (m.relink old n).Depends i old := by
    intro i hx hdi
    obtain ⟨r, hr, hdr⟩ := exists_depends_of_inputs_eq (m := m) (s := [old])
      (fun a ha => by rw [hin, if_neg (by simpa using ha)]) (by simp) hdi
    exact hd i hx (List.mem_singleton.1 hr ▸ hdr)
  have hbad : (m.relink old n).order.Pairwise fun x y =>
      y ∈ (m.relink old n).inputsOf x → x = old ∧ y ∈ n.inputs := by
    rw [horder]
    refine ho.pairwise.imp fun hxy hy => ?_
    rw [hin] at hy
    split at hy
    · exact ⟨‹_›, hy⟩
    · exact absurd hy hxy
  by_cases hne : n.inputs = []
  · rw [rewire_eq, hne]
    exact ⟨hbad.imp fun hxy hy => by simpa [hne] using (hxy hy).2, hirrefl⟩
  obtain ⟨a, ha, he, hmax⟩ := latest?_spec hmem hne
  have hafter := standsAfter_iff (hmem a ha) hold
  simp only [rewire_eq, he]
  split
  · rename_i hlt
    rw [hafter] at hlt
    obtain ⟨l, r, hs⟩ := List.append_of_mem (hmem a ha)
    have hbefore : ∀ x, _ ↔ x ∈ l := fun x => idxOf_lt_of_split hs hl'.nodup
    refine ordered_sinkAfter hl' hs (by simpa using (hbefore old).1 hlt) hirrefl
      (by simpa using hdep a ha) (hbad.imp fun hxy hy => ?_)
    obtain ⟨rfl, hyn⟩ := hxy hy
    refine ⟨by simp, ?_⟩
    rcases Nat.lt_or_eq_of_le (hmax _ hyn) with hlt | heq
    · exact .inr ⟨(hbefore _).1 hlt, by simpa using hdep _ hyn⟩
    · exact .inl (List.idxOf_inj (hmem _ hyn) |>.1 heq)
  · rename_i hle
    rw [hafter] at hle
    refine ⟨(hbad.and (pairwise_idxOf_lt hl'.nodup)).imp fun ⟨hxy, hlt⟩ hy => ?_, hirrefl⟩
    obtain ⟨rfl, hyn⟩ := hxy hy
    have := hmax _ hyn
    omega

/-- A user with `new` in the place of `old` among its inputs, and the shape inferred from them. -/
def Redirected.Fits (m : Module) (old new : InstructionId) (r : Redirected) : Prop :=
  ∃ n, m.get? r.user = some n ∧ ¬ m.Depends new r.user ∧
    r.inputs = n.inputs.map (fun i => if i = old then new else i) ∧
    (∀ i ∈ r.inputs, (m.get? i).isSome) ∧
    n.op.inferShape (r.inputs.map m.shapeOf) n.moduleOutputs = .ok r.shape

/-- A redirection that is allowed concerns every user of `old` but `new`. -/
structure Redirection (m : Module) (old new : InstructionId) (rs : List Redirected) : Prop where
  users : rs.map Redirected.user = (m.usersOf old).filter (· ≠ new)
  fits : ∀ r ∈ rs, r.Fits m old new

private theorem redirection_of_forall₂ {rs : List Redirected} {us : List InstructionId}
    (h : List.Forall₂ (fun u r => r.user = u ∧ Redirected.Fits m old new r) us rs) :
    rs.map Redirected.user = us ∧ ∀ r ∈ rs, Redirected.Fits m old new r := by
  induction h with
  | nil => simp
  | cons hr _ ih => exact ⟨by simp [hr.1, ih.1], List.forall_mem_cons.2 ⟨hr.2, ih.2⟩⟩

theorem redirection_of_checkRedirect {rs : List Redirected}
    (h : m.checkRedirect old new = .ok rs) : Redirection m old new rs := by
  rw [checkRedirect, Except.mapM_eq_ok] at h
  obtain ⟨hu, hf⟩ := redirection_of_forall₂ (h.imp fun u r hr => by
    split at hr
    · cases hr
    · rename_i hd
      simp only [Except.bind_eq_ok, Except.lift_eq_ok, get_eq_ok_iff, shapesOf_eq_ok_iff,
        Except.pure_eq_ok] at hr
      obtain ⟨n, hn, _, ⟨hl, rfl⟩, shape, hs, rfl⟩ := hr
      exact ⟨rfl, n, hn, fun h => hd (dependsOn_iff.2 h), rfl, hl, hs⟩)
  exact ⟨hu, hf⟩

section Redirect
variable {rs : List Redirected}

theorem Redirection.mem_users (hr : Redirection m old new rs) {v : InstructionId} :
    v ∈ rs.map Redirected.user ↔ v ∈ m.usersOf old ∧ v ≠ new := by
  rw [hr.users]
  simp

theorem Redirection.nodup (hl : Linked m) (hr : Redirection m old new rs) :
    (rs.map Redirected.user).Nodup :=
  hr.users ▸ (hl.users_nodup old).filter _

theorem inputsOf_redirectEdges (hl : Linked m) (hr : Redirection m old new rs) (j : InstructionId) :
    (rs.foldl (redirectOne old new) m).inputsOf j =
      if j ∈ rs.map Redirected.user then
        (m.inputsOf j).map fun i => if i = old then new else i
      else m.inputsOf j := by
  rw [inputsOf_eq_core]
  split
  · rename_i hj
    obtain ⟨r, hrs, rfl⟩ := List.mem_map.1 hj
    obtain ⟨n, hn, -, hi, -⟩ := hr.fits r hrs
    rw [core?_redirectEdges_of_mem (hr.nodup hl) hrs, core?_of_get? hn, inputsOf_of_get? hn, ← hi]
    rfl
  · rename_i hj
    rw [core?_redirectEdges_of_notMem hj, inputsOf_eq_core]

private theorem isSome_core?_redirectEdges (hl : Linked m) (hr : Redirection m old new rs)
    (j : InstructionId) :
    ((rs.foldl (redirectOne old new) m).core? j).isSome = (m.core? j).isSome := by
  by_cases hj : j ∈ rs.map Redirected.user
  · obtain ⟨r, hrs, rfl⟩ := List.mem_map.1 hj
    simp [core?_redirectEdges_of_mem (hr.nodup hl) hrs]
  · rw [core?_redirectEdges_of_notMem hj]

theorem linked_redirectEdges (hl : Linked m) (hne : old ≠ new) (hn : (m.get? new).isSome)
    (hr : Redirection m old new rs) : Linked (rs.foldl (redirectOne old new) m) := by
  refine hl.of_sameFrame (sameFrame_redirectEdges m old new rs) (isSome_core?_redirectEdges hl hr)
    (nodup_usersOf_redirectEdges old new rs hl.users_nodup) (fun j v => ?_)
  rw [mem_usersOf_redirectEdges hne hn, inputsOf_redirectEdges hl hr, hl.mem_users]
  split
  · rename_i hv
    have hold := (hl.mem_users old v).1 (hr.mem_users.1 hv).1
    simp only [hv, and_true, List.mem_map]
    constructor
    · rintro (⟨hj, hjo⟩ | rfl)
      · exact ⟨j, hj, if_neg hjo⟩
      · exact ⟨old, hold, if_pos rfl⟩
    · rintro ⟨x, hx, rfl⟩
      split
      · exact .inr rfl
      · exact .inl ⟨hx, ‹_›⟩
  · rename_i hv
    simp [hv]

private theorem redirect_reorder (hl : Linked m) (hne : old ≠ new) (hn : (m.get? new).isSome)
    (hr : Redirection m old new rs) :
    ∃ l, l.Perm m.order ∧
      m.redirect old new rs = { rs.foldl (redirectOne old new) m with order := l } := by
  have horder := (sameFrame_redirectEdges m old new rs).order
  rw [redirect_eq]
  split
  · exact ⟨_, .refl _, by rw [← horder]⟩
  · have hmem : new ∈ (rs.foldl (redirectOne old new) m).order := by rwa [horder, hl.mem_order]
    obtain ⟨l, hp, he⟩ := sinkAfter_perm (linked_redirectEdges hl hne hn hr) hmem _
    exact ⟨l, horder ▸ hp, he⟩

theorem core?_redirect (hl : Linked m) (hne : old ≠ new) (hn : (m.get? new).isSome)
    (hr : Redirection m old new rs) (j : InstructionId) :
    (m.redirect old new rs).core? j = (rs.foldl (redirectOne old new) m).core? j := by
  obtain ⟨l, -, he⟩ := redirect_reorder hl hne hn hr
  rw [he]
  rfl

theorem name_redirect (hl : Linked m) (hne : old ≠ new) (hn : (m.get? new).isSome)
    (hr : Redirection m old new rs) : (m.redirect old new rs).name = m.name := by
  obtain ⟨l, -, he⟩ := redirect_reorder hl hne hn hr
  rw [he]
  exact (sameFrame_redirectEdges m old new rs).name

theorem linked_redirect (hl : Linked m) (hne : old ≠ new) (hn : (m.get? new).isSome)
    (hr : Redirection m old new rs) : Linked (m.redirect old new rs) := by
  obtain ⟨l, hp, he⟩ := redirect_reorder hl hne hn hr
  rw [he]
  exact (linked_redirectEdges hl hne hn hr).reorder
    ((sameFrame_redirectEdges m old new rs).order ▸ hp)

/-- Users that the new input does not depend on move behind it. -/
theorem ordered_redirect (hl : Linked m) (ho : Ordered m) (hne : old ≠ new)
    (hn : (m.get? new).isSome) (hr : Redirection m old new rs) : Ordered (m.redirect old new rs) := by
  let g := rs.foldl (redirectOne old new) m
  have hl' : Linked g := linked_redirectEdges hl hne hn hr
  have horder : g.order = m.order := (sameFrame_redirectEdges m old new rs).order
  have hin := inputsOf_redirectEdges hl hr
  have hnew : new ∈ g.order := by rwa [horder, hl.mem_order]
  have hmem : ∀ u ∈ rs.map Redirected.user, u ∈ g.order := fun u hu => by
    rw [horder]
    exact hl.user_mem_order ((hl.mem_users old u).1 (hr.mem_users.1 hu).1)
  have hirrefl : ∀ i, i ∉ g.inputsOf i := by
    intro i
    rw [hin]
    split
    · rename_i hi
      intro h
      obtain ⟨x, hx, hxi⟩ := List.mem_map.1 h
      split at hxi
      · exact (hr.mem_users.1 hi).2 hxi.symm
      · exact ho.irrefl i (hxi ▸ hx)
    · exact ho.irrefl i
  have hdep : ∀ u ∈ rs.map Redirected.user, ¬ g.Depends new u := by
    intro u hu hd
    obtain ⟨r, hru, hd⟩ := exists_depends_of_inputs_eq (m := m)
      (fun a ha => by rw [hin, if_neg ha]) hu hd
    obtain ⟨r, hrs, rfl⟩ := List.mem_map.1 hru
    obtain ⟨_, _, hno, _⟩ := hr.fits r hrs
    exact hno hd
  -- a redirected user may stand before its new input, and nothing else is out of order
  have hbad : g.order.Pairwise fun x y => y ∈ g.inputsOf x → x ∈ rs.map Redirected.user ∧ y = new := by
    rw [horder]
    refine ho.pairwise.imp fun hxy hy => ?_
    rw [hin] at hy
    split at hy
    · refine ⟨‹_›, ?_⟩
      obtain ⟨z, hz, hzy⟩ := List.mem_map.1 hy
      split at hzy
      · exact hzy.symm
      · exact absurd (hzy ▸ hz) hxy
    · exact absurd hy hxy
  have hearly : ∀ u, u ∈ (rs.map Redirected.user).filter (g.standsAfter new) ↔
      u ∈ rs.map Redirected.user ∧ g.order.idxOf u < g.order.idxOf new := fun u => by
    rw [List.mem_filter]
    exact and_congr_right fun hu => standsAfter_iff hnew (hmem u hu)
  have hbad' := hbad.and (pairwise_idxOf_lt hl'.nodup)
  rw [redirect_eq]
  split
  · rename_i he
    refine ⟨hbad'.imp fun ⟨hxy, hlt⟩ hy => ?_, hirrefl⟩
    obtain ⟨hx, rfl⟩ := hxy hy
    exact List.ne_nil_of_mem ((hearly _).2 ⟨hx, hlt⟩) (List.isEmpty_iff.1 he)
  · obtain ⟨l, r, hs⟩ := List.append_of_mem hnew
    refine ordered_sinkAfter hl' hs ?_ hirrefl ?_ (hbad'.imp fun ⟨hxy, hlt⟩ hy => ?_)
    · exact fun u hu => (idxOf_lt_of_split hs hl'.nodup).1 ((hearly u).1 hu).2
    · exact fun u hu => hdep u ((hearly u).1 hu).1
    · obtain ⟨hx, rfl⟩ := hxy hy
      exact ⟨(hearly _).2 ⟨hx, hlt⟩, .inl rfl⟩

end Redirect

section Truncate
variable {length : Nat}

private theorem mem_usersOf_detached {v : InstructionId} (hl : Linked m) :
    v ∈ ((m.order.drop length).foldl detach { m with order := m.order.take length }).usersOf j ↔
      j ∈ m.inputsOf v ∧ v ∉ m.order.drop length := by
  rw [mem_usersOf_detachAll]
  change v ∈ m.usersOf j ∧ ¬ (_ ∧ j ∈ m.inputsOf v) ↔ _
  rw [hl.mem_users]
  exact and_congr_right fun h => by simp [h]

theorem order_truncate (m : Module) (length : Nat) :
    (m.truncate length).order = m.order.take length := by
  rw [truncate, order_forgetAll]
  exact (sameFrame_detachAll _ _).order

theorem name_truncate (m : Module) (length : Nat) : (m.truncate length).name = m.name := by
  rw [truncate, name_forgetAll]
  exact (sameFrame_detachAll _ _).name

private theorem mem_usersOf_truncate {v : InstructionId} (hl : Linked m) :
    v ∈ (m.truncate length).usersOf j ↔
      j ∈ m.inputsOf v ∧ j ∉ m.order.drop length ∧ v ∉ m.order.drop length := by
  rw [truncate, usersOf_forgetAll]
  split
  · simp [*]
  · simp [*, mem_usersOf_detached hl]

theorem core?_truncate (hl : Linked m) (length : Nat) (j : InstructionId) :
    (m.truncate length).core? j = if j ∈ m.order.drop length then none else
      (m.core? j).map fun n =>
        { n with inputs := n.inputs.filter (· ∉ m.order.drop length) } := by
  have hnd : (m.order.drop length).Nodup := hl.nodup.sublist (List.drop_sublist _ _)
  rw [truncate, core?_forgetAll hnd, core?_detachAll]
  split
  · rfl
  · rename_i hj
    change Option.map _ (m.core? j) = _
    cases hc : m.core? j with
    | none => rfl
    | some n =>
      have hin : m.inputsOf j = n.inputs := by rw [inputsOf_eq_core, hc]; rfl
      simp only [Option.map_some, mem_usersOf_detached hl, hj, not_false_eq_true, and_true]
      congr 2
      refine List.filter_congr fun x hx => ?_
      simp [hin, hx]

private theorem inputsOf_truncate (hl : Linked m) (length : Nat) (j : InstructionId) :
    (m.truncate length).inputsOf j = if j ∈ m.order.drop length then [] else
      (m.inputsOf j).filter (· ∉ m.order.drop length) := by
  rw [inputsOf_eq_core, core?_truncate hl, inputsOf_eq_core]
  split
  · rfl
  · cases m.core? j <;> rfl

theorem linked_truncate (hl : Linked m) (length : Nat) : Linked (m.truncate length) := by
  have hn := hl.nodup
  rw [← List.take_append_drop length m.order] at hn
  obtain ⟨hnt, hnd, hdis⟩ := List.nodup_append.1 hn
  refine ⟨?_, fun i => ?_, ?_, fun i => ?_, fun i k => ?_⟩
  · rwa [order_truncate]
  · have hsplit : i ∈ m.order ↔ i ∈ m.order.take length ∨ i ∈ m.order.drop length := by
      rw [← List.mem_append, List.take_append_drop]
    rw [order_truncate, ← isSome_core?, core?_truncate hl]
    split
    · rename_i hi
      simpa using fun h => hdis i h i hi rfl
    · rename_i hi
      rw [Option.isSome_map, isSome_core?, ← hl.mem_order, hsplit]
      simp [hi]
  · have hlive : ∀ i ∈ m.order.drop length, (((m.order.drop length).foldl detach
        { m with order := m.order.take length }).get? i).isSome := fun i hi => by
      rw [← isSome_core?, core?_detachAll, if_pos hi, Option.isSome_map, isSome_core?]
      exact (hl.mem_order i).1 (List.mem_of_mem_drop hi)
    rw [order_truncate, truncate, size_forgetAll hnd hlive, (sameFrame_detachAll _ _).size]
    change m.instructions.size - _ = _
    rw [hl.size, List.length_drop, List.length_take]
    omega
  · rw [truncate, usersOf_forgetAll]
    split
    · exact List.nodup_nil
    · exact nodup_usersOf_detachAll (m := { m with order := m.order.take length }) _ hl.users_nodup _
  · rw [mem_usersOf_truncate hl, inputsOf_truncate hl]
    split
    · simp [*]
    · simp [*]

theorem ordered_truncate (hl : Linked m) (ho : Ordered m) (length : Nat) :
    Ordered (m.truncate length) := by
  refine ho.of_subset (order_truncate m length ▸ List.take_sublist _ _) fun j => ?_
  rw [inputsOf_truncate hl]
  split
  · exact List.nil_subset _
  · exact List.filter_sublist.subset

end Truncate

end TensorGraph.Module
