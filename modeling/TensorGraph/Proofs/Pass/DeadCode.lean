import TensorGraph.Pass.DeadCode
import TensorGraph.Proofs.Action
import TensorGraph.Proofs.Module.Edit

/-! What the removal of dead code leaves: some of the instructions, among them the last one, every
parameter and all inputs of what is left, as they were and in the same order. -/
namespace TensorGraph.Pass.DeadCode
open TensorGraph.Module TensorGraph.Action
variable {m : Module} {last i : InstructionId} {s : Sweep}

/-- A collection under way: what is no longer alive has lost its inputs and stands at the end. -/
structure Collecting (m : Module) (last : InstructionId) (s : Sweep) : Prop where
  linked : Linked s.module
  name : s.module.name = m.name
  nodup : s.alive.Nodup
  core : ∀ j, s.module.core? j =
    if j ∈ s.alive then m.core? j else (m.core? j).map fun n => { n with inputs := [] }
  order : ∃ dead, s.module.order = m.order.filter (· ∈ s.alive) ++ dead ∧ ∀ j ∈ dead, j ∉ s.alive
  last : last ∈ s.alive
  parameters : ∀ j n, m.get? j = some n → n.parameter?.isSome → j ∈ s.alive
  closed : ∀ j ∈ s.alive, ∀ x ∈ m.inputsOf j, x ∈ s.alive

theorem Collecting.inputsOf_eq (h : Collecting m last s) {j : InstructionId} (hj : j ∈ s.alive) :
    s.module.inputsOf j = m.inputsOf j := by
  rw [inputsOf_eq_core, h.core, if_pos hj, inputsOf_eq_core]

theorem collecting_start (hl : Linked m) (hlast : m.last? = some last) :
    Collecting m last ⟨m, m.ids⟩ where
  linked := hl
  name := rfl
  nodup := m.nodup_ids
  core j := by
    split
    · rfl
    · rename_i hj
      rw [mem_ids, ← isSome_core?, Option.not_isSome_iff_eq_none] at hj
      simp [hj]
  order := by
    refine ⟨[], ?_, by simp⟩
    rw [List.append_nil, List.filter_eq_self.2]
    exact fun j hj => decide_eq_true (mem_ids.2 ((hl.mem_order j).1 hj))
  last := mem_ids.2 ((hl.mem_order last).1 (List.mem_of_getLast? hlast))
  parameters j n hn _ := mem_ids.2 (by simp [hn])
  closed j _ x hx := mem_ids.2 (hl.live_input hx)

/-- One dead instruction is unlinked. -/
theorem Collecting.unlink (h : Collecting m last s) (hi : i ∈ s.alive)
    (hd : isDead s.module last i) :
    Collecting m last ⟨(s.module.detach i).toEnd i, s.alive.erase i⟩ := by
  obtain ⟨hne, hdead⟩ := Bool.and_eq_true_iff.1 hd
  have hne : i ≠ last := by simpa using hne
  obtain ⟨n, hn, hdead⟩ := (Option.any_eq_true _ _).1 hdead
  obtain ⟨husers, hparam⟩ := Bool.and_eq_true_iff.1 hdead
  have husers : s.module.usersOf i = [] := by
    rw [usersOf_of_get? hn]
    exact List.isEmpty_iff.1 husers
  have hmem : ∀ j, j ∈ s.alive.erase i ↔ j ≠ i ∧ j ∈ s.alive := fun j => h.nodup.mem_erase_iff
  have hlive : ((s.module.detach i).get? i).isSome := by
    rw [← isSome_core?, core?_detach, if_pos rfl, Option.isSome_map, isSome_core?, hn]
    rfl
  refine ⟨linked_toEnd (linked_detach h.linked i) hlive, ?_, h.nodup.erase i, fun j => ?_, ?_,
    (hmem last).2 ⟨hne.symm, h.last⟩, fun j k hk hp => ?_, fun j hj x hx => ?_⟩
  · exact ((sameFrame_detach _ _).name).trans h.name
  · change (s.module.detach i).core? j = _
    rw [core?_detach, h.core]
    by_cases hj : j = i
    · subst hj
      simp [hmem, hi]
    · simp [hmem, hj]
  · obtain ⟨dead, horder, hout⟩ := h.order
    refine ⟨dead.filter (· ≠ i) ++ [i], ?_, fun j hj => ?_⟩
    · change (s.module.detach i).order.filter (· ≠ i) ++ [i] = _
      rw [(sameFrame_detach _ _).order, horder, List.filter_append, List.filter_filter,
        List.append_assoc]
      congr 1
      exact List.filter_congr fun j _ => by simp [hmem]
    · rw [hmem]
      rcases List.mem_append.1 hj with hj | hj
      · exact fun h => hout j (List.mem_filter.1 hj).1 h.2
      · exact fun h => h.1 (List.mem_singleton.1 hj)
  · refine (hmem j).2 ⟨?_, h.parameters j k hk hp⟩
    rintro rfl
    have hcore := h.core j
    rw [if_pos hi, core?_of_get? hn, core?_of_get? hk] at hcore
    rw [Instruction.parameter?_eq_of_core (Option.some.inj hcore)] at hparam
    simp_all
  · have hja := ((hmem j).1 hj).2
    refine (hmem x).2 ⟨?_, h.closed j hja x hx⟩
    rintro rfl
    have huser := (h.linked.mem_users x j).2 (h.inputsOf_eq hja ▸ hx)
    simp [husers] at huser

theorem Collecting.collect (h : Collecting m last s) (pending : List InstructionId) :
    Collecting m last (collect last s pending) := by
  fun_induction DeadCode.collect last s pending with
  | case1 s => exact h
  | case2 s i rest hi hd ih => exact ih (h.unlink hi hd)
  | case3 s i rest _ _ ih => exact ih h
  | case4 s i rest _ ih => exact ih h

/-- The collection fails only where the test that protects instructions does. -/
theorem Collecting.collectFrom (h : Collecting m last s) (keep : Instruction → Except Fault Bool)
    (candidates : List InstructionId) :
    (∃ t, collectFrom keep last s candidates = .ok t ∧ Collecting m last t) ∨
      ∃ f i n k, collectFrom keep last s candidates = .error f ∧ m.get? i = some n ∧
        k.core = n.core ∧ keep k = .error f := by
  induction candidates generalizing s with
  | nil => exact .inl ⟨s, rfl, h⟩
  | cons i rest ih =>
    have hstep : ∀ start : Bool, Collecting m last (if start then DeadCode.collect last s [i] else s) :=
      fun start => by cases start <;> simp [h, h.collect]
    rw [DeadCode.collectFrom]
    cases hg : s.module.get? i with
    | none => exact ih (hstep false)
    | some k =>
      by_cases hi : i ∈ s.alive
      · simp only [hi, if_true]
        cases hk : keep k with
        | ok b => exact ih (hstep !b)
        | error f =>
          have hcore := h.core i
          rw [if_pos hi, core?_of_get? hg, eq_comm] at hcore
          obtain ⟨n, hn, hc⟩ := Option.map_eq_some_iff.1 hcore
          exact .inr ⟨f, i, n, k, rfl, hn, hc.symm, hk⟩
      · simp only [hi, if_false]
        exact ih (hstep false)

/-- What is left of a module: the instructions in `alive`. -/
structure Swept (m m' : Module) (alive : List InstructionId) : Prop where
  linked : Linked m'
  name : m'.name = m.name
  order : m'.order = m.order.filter (· ∈ alive)
  core : ∀ j, m'.core? j = if j ∈ alive then m.core? j else none
  last : ∀ i, m.last? = some i → i ∈ alive
  parameters : ∀ j n, m.get? j = some n → n.parameter?.isSome → j ∈ alive
  closed : ∀ j ∈ alive, ∀ x ∈ m.inputsOf j, x ∈ alive

/-- Cutting the order behind the last instruction removes exactly what is no longer alive. -/
theorem Collecting.swept (h : Collecting m last s) (hlast : m.last? = some last) :
    ∃ p, s.module.position? last = some p ∧ Swept m (s.module.truncate (p + 1)) s.alive ∧
      ∀ j ∈ s.module.order.drop (p + 1), j ∉ s.alive := by
  obtain ⟨dead, horder, hout⟩ := h.order
  obtain ⟨front, hm⟩ := List.getLast?_eq_some_iff.1 hlast
  have hkept : m.order.filter (· ∈ s.alive) = front.filter (· ∈ s.alive) ++ [last] := by
    rw [hm, List.filter_append]
    simp [h.last]
  have hsplit : s.module.order = front.filter (· ∈ s.alive) ++ last :: dead := by
    rw [horder, hkept]
    simp
  have hnd := h.linked.nodup
  rw [hsplit] at hnd
  have hnot : last ∉ front.filter (· ∈ s.alive) := fun hm =>
    (List.nodup_append.1 hnd).2.2 last hm last (by simp) rfl
  refine ⟨(front.filter (· ∈ s.alive)).length, ?_, ?_⟩
  · rw [position?, hsplit, idxOf?_append_cons hnot]
  have htake : s.module.order.take ((front.filter (· ∈ s.alive)).length + 1) =
      m.order.filter (· ∈ s.alive) := by
    rw [hsplit, List.take_length_add_append, hkept]
    simp
  have hdrop : s.module.order.drop ((front.filter (· ∈ s.alive)).length + 1) = dead := by
    rw [hsplit, List.drop_length_add_append]
    simp
  refine ⟨⟨linked_truncate h.linked _, ?_, ?_, fun j => ?_, ?_, h.parameters, h.closed⟩, hdrop ▸ hout⟩
  · rw [name_truncate, h.name]
  · rw [order_truncate, htake]
  · rw [core?_truncate h.linked, hdrop]
    by_cases hj : j ∈ s.alive
    · rw [if_neg fun hd => hout j hd hj, h.core, if_pos hj, if_pos hj]
      cases hc : m.core? j with
      | none => rfl
      | some n =>
        have hin : m.inputsOf j = n.inputs := by
          rw [inputsOf_eq_core, hc]
          rfl
        have hall : ∀ x ∈ n.inputs, decide (x ∉ dead) = true := fun x hx =>
          decide_eq_true fun hd => hout x hd (h.closed j hj x (hin ▸ hx))
        rw [Option.map_some, List.filter_eq_self.2 hall]
    · rw [if_neg hj]
      split
      · rfl
      · rename_i hjd
        have hno : j ∉ s.module.order := by
          rw [horder]
          simp [hj, hjd]
        rw [h.linked.mem_order, ← isSome_core?, Option.not_isSome_iff_eq_none] at hno
        rw [hno]
        rfl
  · intro i hi
    rw [hlast] at hi
    exact Option.some.inj hi ▸ h.last

theorem swept_self (hl : Linked m) : Swept m m m.ids where
  linked := hl
  name := rfl
  order := by
    rw [List.filter_eq_self.2]
    exact fun j hj => decide_eq_true (mem_ids.2 ((hl.mem_order j).1 hj))
  core j := by
    split
    · rfl
    · rename_i hj
      rwa [mem_ids, ← isSome_core?, Option.not_isSome_iff_eq_none] at hj
  last i hi := mem_ids.2 ((hl.mem_order i).1 (List.mem_of_getLast? hi))
  parameters j n hn _ := mem_ids.2 (by simp [hn])
  closed j _ x hx := mem_ids.2 (hl.live_input hx)

theorem Swept.ordered {alive : List InstructionId} (h : Swept m m' alive) (ho : Ordered m) :
    Ordered m' := by
  refine ho.of_subset (h.order ▸ List.filter_sublist) fun i => ?_
  rw [inputsOf_eq_core, inputsOf_eq_core, h.core i]
  split
  · exact fun _ hx => hx
  · exact fun _ hx => (nomatch hx)

theorem Swept.last?_eq {alive : List InstructionId} (h : Swept m m' alive) :
    m'.last? = m.last? := by
  cases hi : m.last? with
  | none =>
    rw [last?, List.getLast?_eq_none_iff] at hi
    simp [last?, h.order, hi]
  | some i =>
    obtain ⟨front, hs⟩ := List.getLast?_eq_some_iff.1 hi
    simp [last?, h.order, hs, h.last i hi]

/-- After a collection the module is swept, and what is reported as a change is that something is no
longer alive. -/
theorem runWith_collected {keep : Instruction → Except Fault Bool} (hlast : m.last? = some last)
    (hs : collectFrom keep last ⟨m, m.ids⟩ (m.order.reverse.drop 1) = .ok s)
    (hc : Collecting m last s) :
    (runWith keep).Leaves m
      (fun changed m' => Swept m m' s.alive ∧ (changed → ∃ j, (m.get? j).isSome ∧ j ∉ s.alive))
      fun _ _ => False := by
  obtain ⟨p, hp, hsw, hout⟩ := hc.swept hlast
  have hpos : s.module.requirePosition last = .ok p := by rw [requirePosition, hp]
  rw [runWith, leaves_bind, leaves_get]
  simp only [hlast, leaves_liftFault_bind hs, leaves_bind, leaves_set]
  refine (removeAfter_leaves hc.linked last).mono ?_ fun e _ he =>
    absurd (hpos.symm.trans he.1) (by simp)
  rintro removed _ ⟨q, hq, rfl, hcount⟩
  cases hp.symm.trans hq
  have hdead : 0 < removed → ∃ j, (m.get? j).isSome ∧ j ∉ s.alive := by
    intro hpos
    obtain ⟨j, hj⟩ := List.exists_mem_of_length_pos (hcount ▸ hpos)
    have hlive := (hc.linked.mem_order j).1 (List.mem_of_mem_drop hj)
    refine ⟨j, ?_, hout j hj⟩
    rw [← isSome_core?, hc.core, if_neg (hout j hj), Option.isSome_map, isSome_core?] at hlive
    exact hlive
  split <;> simp only [leaves_bind, leaves_report, leaves_pure] <;>
    exact ⟨hsw, fun hchanged => hdead (of_decide_eq_true hchanged)⟩

/-- Removing dead code sweeps the module, or fails with the test that protects instructions and
leaves the module alone. -/
theorem runWith_leaves (keep : Instruction → Except Fault Bool) (hl : Linked m) :
    (runWith keep).Leaves m (fun _ m' => ∃ alive, Swept m m' alive)
      (fun e m' => m' = m ∧ ∃ f i n k, e = .broken f ∧ m.get? i = some n ∧ k.core = n.core ∧
        keep k = .error f) := by
  cases hlast : m.last? with
  | none =>
    rw [runWith, leaves_bind, leaves_get, hlast]
    exact ⟨m.ids, swept_self hl⟩
  | some last =>
    rcases (collecting_start hl hlast).collectFrom keep (m.order.reverse.drop 1) with
      ⟨s, hs, hc⟩ | ⟨f, i, n, k, hs, hn, hk, hf⟩
    · exact (runWith_collected hlast hs hc).mono (fun _ m' hm' => ⟨s.alive, hm'.1⟩) fun _ _ hf => hf.elim
    · rw [runWith, leaves_bind, leaves_get, hlast]
      dsimp only
      rw [leaves_bind, leaves_liftFault]
      refine ⟨fun t ht => absurd (hs.symm.trans ht) (by simp), fun g hg => ⟨rfl, ?_⟩⟩
      cases hs.symm.trans hg
      exact ⟨f, i, n, k, rfl, hn, hk, hf⟩

/-- Either nothing has been collected, or what was collected last stands at the end. -/
def Idle (m : Module) (last : InstructionId) (m' : Module) : Prop :=
  m' = m ∨ ∃ i, m'.last? = some i ∧ i ≠ last

private theorem idle_collect {s : Sweep} (h : Idle m last s.module) (pending : List InstructionId) :
    Idle m last (collect last s pending).module := by
  fun_induction collect last s pending with
  | case1 s => exact h
  | case2 s i rest _ hdead ih =>
    refine ih (.inr ⟨i, List.getLast?_concat, ?_⟩)
    simpa using (Bool.and_eq_true_iff.1 hdead).1
  | case3 s i rest _ _ ih => exact ih h
  | case4 s i rest _ ih => exact ih h

private theorem idle_collectFrom {s t : Sweep} {keep : Instruction → Except Fault Bool}
    {candidates : List InstructionId} (h : Idle m last s.module)
    (ht : collectFrom keep last s candidates = .ok t) : Idle m last t.module := by
  induction candidates generalizing s with
  | nil => cases ht; exact h
  | cons i rest ih =>
    have hnext : ∀ start : Bool, Idle m last (if start then collect last s [i] else s).module :=
      fun start => by cases start <;> simp [h, idle_collect]
    rw [collectFrom] at ht
    split at ht
    · split at ht
      · obtain ⟨kept, -, ht⟩ := Except.bind_eq_ok.1 ht
        exact ih (hnext !kept) ht
      · exact ih (hnext false) ht
    · exact ih (hnext false) ht

/-- Where nothing stands after the instruction, it is the last one, and nothing is removed. -/
theorem removeAfter_zero (last : InstructionId) (m : Module) :
    (removeAfter last).Leaves m (fun count m' => count = 0 → m' = m ∧ m.last? = some last)
      fun _ _ => True := by
  simp only [removeAfter, leaves_bind, leaves_get, leaves_lift, leaves_set]
  refine ⟨fun p hp => ?_, fun _ _ => trivial⟩
  obtain ⟨hlt, hat, -⟩ := List.idxOf?_eq_some_iff.1 (requirePosition_eq_ok.1 hp)
  by_cases htail : m.order.drop (p + 1) = []
  · have hle := List.drop_eq_nil_iff.1 htail
    have hp : m.order.length - 1 = p := by omega
    have hend : m.last? = some last := by
      rw [last?, List.getLast?_eq_getElem?, hp]
      exact List.getElem?_eq_some_iff.2 ⟨hlt, hat⟩
    rw [htail, List.take_of_length_le hle]
    exact fun _ => ⟨rfl, hend⟩
  · refine leaves_of_forall (fun _ _ => ?_) fun _ _ => trivial
    rw [leaves_modify, leaves_pure]
    exact fun hz => absurd (List.eq_nil_of_length_eq_zero hz) htail

theorem runWith_truthful (keep : Instruction → Except Fault Bool) : (runWith keep).Truthful := by
  intro m
  rw [runWith, leaves_bind, leaves_get]
  split
  · exact fun _ => rfl
  rename_i last hlast
  simp only [leaves_bind, leaves_liftFault, leaves_set]
  refine ⟨fun s hs => ?_, fun _ _ => trivial⟩
  have hidle : Idle m last s.module := idle_collectFrom (.inl rfl) hs
  refine (removeAfter_zero last s.module).imp fun removed m' hzero => ?_
  have hsame : removed = 0 → m' = m := fun hz => by
    obtain ⟨hm', hend⟩ := hzero hz
    rcases hidle with hs | ⟨i, hi, hne⟩
    · exact hm'.trans hs
    · exact absurd (Option.some.inj (hi.symm.trans hend)) hne
  split <;> exact fun hfalse => hsame (by simpa using hfalse)

/-- The collection in at most the given number of steps, if that is all of it. -/
def collectWithin (last : InstructionId) : Nat → Sweep → List InstructionId → Option Sweep
  | _, s, [] => some s
  | 0, _, _ :: _ => none
  | steps + 1, s, i :: rest =>
    if i ∈ s.alive then
      if isDead s.module last i then
        collectWithin last steps ⟨(s.module.detach i).toEnd i, s.alive.erase i⟩
          ((s.module.inputsOf i).reverse ++ rest)
      else collectWithin last steps s rest
    else collectWithin last steps s rest

private theorem collect_eq_of_within {steps : Nat} {pending : List InstructionId} {t : Sweep}
    (h : collectWithin last steps s pending = some t) : collect last s pending = t := by
  fun_induction collectWithin last steps s pending with
  | case1 =>
    rw [collect]
    exact Option.some.inj h
  | case2 => cases h
  | case3 steps s i rest hi hd ih => rw [collect, if_pos hi, if_pos hd, ih h]
  | case4 steps s i rest hi hd ih => rw [collect, if_pos hi, if_neg hd, ih h]
  | case5 steps s i rest hi ih => rw [collect, if_neg hi, ih h]

/-- The collection, found in the given number of steps where these are enough. -/
def collectUpTo (steps : Nat) (last : InstructionId) (s : Sweep) (pending : List InstructionId) :
    Sweep :=
  (collectWithin last steps s pending).getD (collect last s pending)

theorem collect_eq_collectUpTo (steps : Nat) (last : InstructionId) (s : Sweep)
    (pending : List InstructionId) : collect last s pending = collectUpTo steps last s pending := by
  unfold collectUpTo
  cases h : collectWithin last steps s pending with
  | none => rfl
  | some t => exact collect_eq_of_within h

/-- The collections one after another, in a form in which each can be evaluated. -/
theorem collectFrom_eq_foldlM (keep : Instruction → Except Fault Bool) (last : InstructionId)
    (s : Sweep) (candidates : List InstructionId) :
    collectFrom keep last s candidates = candidates.foldlM (fun s i => do
      let start ← match s.module.get? i with
        | some n => if i ∈ s.alive then do pure !(← keep n) else pure false
        | none => pure false
      return if start then collect last s [i] else s) s := by
  induction candidates generalizing s with
  | nil => rfl
  | cons i rest ih =>
    rw [collectFrom, List.foldlM_cons]
    simp only [ih]
    cases s.module.get? i with
    | none => rfl
    | some n =>
      by_cases hi : i ∈ s.alive
      · simp only [hi, if_true]
        cases keep n <;> rfl
      · simp only [hi, if_false]
        rfl

end TensorGraph.Pass.DeadCode
