import TensorGraph.Proofs.Module.Built
import TensorGraph.Proofs.Pass.Simplification

/-! The removal of dead code is exact. The instructions that go are the least set that nothing else
uses, in whatever order the work list comes upon them, and a second run finds nothing to remove. -/
namespace TensorGraph
namespace Pass.DeadCode
open TensorGraph.Module TensorGraph.Action
variable {keep : Instruction → Except Fault Bool} {m m' : Module} {last i j : InstructionId}
  {s : Sweep} {n : Instruction} {pending : List InstructionId}

/-- Dead code is the least set of instructions, neither the last one nor parameters, whose users are
all in the set; one that never had a user must not be protected. -/
inductive Dead (keep : Instruction → Except Fault Bool) (m : Module) : InstructionId → Prop
  | mk {i : InstructionId} {n : Instruction} (get : m.get? i = some n) (last : m.last? ≠ some i)
      (parameter : n.parameter? = none) (users : ∀ u ∈ n.users, Dead keep m u)
      (start : keep n = .ok false ∨ n.users ≠ []) : Dead keep m i

/-- The test that protects instructions has an answer for each of them, whoever uses it. -/
def Decides (keep : Instruction → Except Fault Bool) (m : Module) : Prop :=
  ∀ i n k, m.get? i = some n → k.core = n.core → ∃ kept, keep n = .ok kept ∧ keep k = .ok kept

theorem Collecting.live_iff (h : Collecting m last s) (j : InstructionId) :
    (s.module.get? j).isSome ↔ (m.get? j).isSome := by
  rw [← isSome_core?, h.core, ← isSome_core?]
  split
  · exact Iff.rfl
  · rw [Option.isSome_map]

private theorem Collecting.exists_get? (h : Collecting m last s) (hi : i ∈ s.alive)
    (hn : m.get? i = some n) : ∃ k, s.module.get? i = some k ∧ k.core = n.core := by
  have hcore := h.core i
  rw [if_pos hi, core?_of_get? hn] at hcore
  obtain ⟨k, hk, he⟩ := exists_get?_of_core? hcore
  exact ⟨k, hk, he.symm⟩

/-- The users that are left are those that are alive. -/
theorem Collecting.mem_usersOf (h : Collecting m last s) (hl : Linked m) {u : InstructionId} :
    u ∈ s.module.usersOf j ↔ u ∈ s.alive ∧ u ∈ m.usersOf j := by
  rw [h.linked.mem_users, hl.mem_users]
  by_cases hu : u ∈ s.alive
  · rw [h.inputsOf_eq hu]
    exact (and_iff_right hu).symm
  · have hnone : s.module.inputsOf u = [] := by
      rw [inputsOf_eq_core, h.core, if_neg hu]
      cases m.core? u <;> rfl
    simp [hnone, hu]

private theorem Collecting.isDead_iff (h : Collecting m last s) (hl : Linked m) (hi : i ∈ s.alive)
    (hn : m.get? i = some n) :
    isDead s.module last i = true ↔
      i ≠ last ∧ n.parameter? = none ∧ ∀ u ∈ n.users, u ∉ s.alive := by
  obtain ⟨k, hk, hcore⟩ := h.exists_get? hi hn
  have husers : k.users = [] ↔ ∀ u ∈ n.users, u ∉ s.alive := by
    rw [← usersOf_of_get? hk, ← usersOf_of_get? hn, List.eq_nil_iff_forall_not_mem]
    refine forall_congr' fun u => ?_
    rw [h.mem_usersOf hl, not_and]
    exact ⟨fun hno hu ha => hno ha hu, fun hno ha hu => hno hu ha⟩
  simp [isDead, hk, husers, Instruction.parameter?_eq_of_core hcore, and_comm]

/-- A collection that has unlinked dead code only. What has lost its last user is pending, and what is
pending may go as soon as it has no user. -/
structure Accounted (keep : Instruction → Except Fault Bool) (m : Module) (final : InstructionId)
    (s : Sweep) (pending : List InstructionId) : Prop extends Collecting m final s where
  dead : ∀ j, (m.get? j).isSome → j ∉ s.alive → Dead keep m j
  started : ∀ j ∈ pending, ∀ n, m.get? j = some n → keep n = .ok false ∨ n.users ≠ []
  freed : ∀ j n, m.get? j = some n → j ∈ s.alive → j ≠ final → n.parameter? = none → n.users ≠ [] →
    (∀ u ∈ n.users, u ∉ s.alive) → j ∈ pending

/-- Unlinking a dead instruction frees those of its inputs that nothing else uses. -/
theorem Accounted.unlink (h : Accounted keep m last s (i :: pending)) (hl : Linked m)
    (hlast : m.last? = some last) (hi : i ∈ s.alive) (hd : isDead s.module last i) :
    Accounted keep m last ⟨(s.module.detach i).toEnd i, s.alive.erase i⟩
      ((s.module.inputsOf i).reverse ++ pending) := by
  have hmem : ∀ j, j ∈ s.alive.erase i ↔ j ≠ i ∧ j ∈ s.alive := fun j => h.nodup.mem_erase_iff
  obtain ⟨n, hn⟩ : ∃ n, m.get? i = some n := by
    obtain ⟨-, hany⟩ := Bool.and_eq_true_iff.1 hd
    obtain ⟨k, hk, -⟩ := (Option.any_eq_true _ _).1 hany
    exact Option.isSome_iff_exists.1 ((h.live_iff i).1 (by simp [hk]))
  obtain ⟨hne, hparam, husers⟩ := (h.isDead_iff hl hi hn).1 hd
  have hdead : Dead keep m i := by
    refine .mk hn (fun he => hne (Option.some.inj (he.symm.trans hlast))) hparam (fun u hu => ?_)
      (h.started i List.mem_cons_self n hn)
    have hlive : (m.get? u).isSome :=
      live_of_mem_inputsOf ((hl.mem_users i u).1 (usersOf_of_get? hn ▸ hu))
    exact h.dead u hlive (husers u hu)
  refine ⟨h.toCollecting.unlink hi hd, fun j hj hout => ?_, fun j hj k hk => ?_,
    fun j k hk hj hjlast hjparam hjusers hall => ?_⟩
  · by_cases hji : j = i
    · exact hji ▸ hdead
    · exact h.dead j hj fun ha => hout ((hmem j).2 ⟨hji, ha⟩)
  · rcases List.mem_append.1 hj with hj | hj
    · have hin : j ∈ m.inputsOf i := by
        rw [← h.inputsOf_eq hi]
        exact List.mem_reverse.1 hj
      have huser := (hl.mem_users j i).2 hin
      rw [usersOf_of_get? hk] at huser
      exact .inr (List.ne_nil_of_mem huser)
    · exact h.started j (List.mem_cons_of_mem i hj) k hk
  · obtain ⟨hji, hja⟩ := (hmem j).1 hj
    by_cases hbefore : ∀ u ∈ k.users, u ∉ s.alive
    · have hpending := h.freed j k hk hja hjlast hjparam hjusers hbefore
      exact List.mem_append_right _ ((List.mem_cons.1 hpending).resolve_left hji)
    · push Not at hbefore
      obtain ⟨u, hu, hua⟩ := hbefore
      have hui : u = i := by
        by_contra hui
        exact hall u hu ((hmem u).2 ⟨hui, hua⟩)
      subst hui
      have hin : j ∈ m.inputsOf u := (hl.mem_users j u).1 (usersOf_of_get? hk ▸ hu)
      rw [← h.inputsOf_eq hi] at hin
      exact List.mem_append_left _ (List.mem_reverse.2 hin)

/-- What is alive and not dead by now need not be pending. -/
theorem Accounted.skip (h : Accounted keep m last s (i :: pending)) (hl : Linked m)
    (hd : ¬ (i ∈ s.alive ∧ isDead s.module last i = true)) : Accounted keep m last s pending := by
  refine ⟨h.toCollecting, h.dead, fun j hj => h.started j (List.mem_cons_of_mem i hj), ?_⟩
  intro j k hk hj hjlast hjparam hjusers hall
  rcases List.mem_cons.1 (h.freed j k hk hj hjlast hjparam hjusers hall) with rfl | hrest
  · exact absurd ⟨hj, (h.isDead_iff hl hj hk).2 ⟨hjlast, hjparam, hall⟩⟩ hd
  · exact hrest

theorem Accounted.collect (h : Accounted keep m last s pending) (hl : Linked m)
    (hlast : m.last? = some last) : Accounted keep m last (collect last s pending) [] := by
  fun_induction DeadCode.collect last s pending with
  | case1 s => exact h
  | case2 s i rest hi hd ih => exact ih (h.unlink hl hlast hi hd)
  | case3 s i rest hi hd ih => exact ih (h.skip hl fun hboth => hd hboth.2)
  | case4 s i rest hi ih => exact ih (h.skip hl fun hboth => hi hboth.1)

private theorem alive_collect_subset (last : InstructionId) (s : Sweep)
    (pending : List InstructionId) : (collect last s pending).alive ⊆ s.alive := by
  fun_induction DeadCode.collect last s pending with
  | case1 s => exact List.Subset.refl _
  | case2 s i rest _ _ ih => exact List.Subset.trans ih List.erase_subset
  | case3 s i rest _ _ ih => exact ih
  | case4 s i rest _ ih => exact ih

/-- A collection that starts at a dead instruction removes it. -/
theorem notMem_alive_collect (hnd : s.alive.Nodup) (hd : isDead s.module last i = true) :
    i ∉ (collect last s [i]).alive := by
  by_cases hi : i ∈ s.alive
  · rw [DeadCode.collect, if_pos hi, if_pos hd]
    exact fun ha => hnd.not_mem_erase (alive_collect_subset _ _ _ ha)
  · exact fun ha => hi (alive_collect_subset _ _ _ ha)

/-- What nothing uses and nothing protects. -/
def Unused (keep : Instruction → Except Fault Bool) (m : Module) (last j : InstructionId) : Prop :=
  ∃ n, m.get? j = some n ∧ j ≠ last ∧ n.parameter? = none ∧ n.users = [] ∧ keep n = .ok false

/-- The collections from all candidates leave no candidate that was unused from the start. -/
theorem Accounted.collectFrom (hl : Linked m) (hlast : m.last? = some last) (hk : Decides keep m)
    (h : Accounted keep m last s []) (candidates : List InstructionId) :
    ∃ t, collectFrom keep last s candidates = .ok t ∧ Accounted keep m last t [] ∧
      t.alive ⊆ s.alive ∧ ∀ j ∈ candidates, Unused keep m last j → j ∉ t.alive := by
  induction candidates generalizing s with
  | nil => exact ⟨s, rfl, h, List.Subset.refl _, nofun⟩
  | cons i rest ih =>
    -- One more candidate is done with when the next state has lost it wherever it was unused.
    have hnext : ∀ s', Accounted keep m last s' [] → s'.alive ⊆ s.alive →
        (Unused keep m last i → i ∉ s'.alive) →
        ∃ t, DeadCode.collectFrom keep last s' rest = .ok t ∧ Accounted keep m last t [] ∧
          t.alive ⊆ s.alive ∧ ∀ j ∈ i :: rest, Unused keep m last j → j ∉ t.alive := by
      intro s' hs' hsub hi
      obtain ⟨t, ht, hacc, hsub', hdone⟩ := ih hs'
      refine ⟨t, ht, hacc, List.Subset.trans hsub' hsub,
        List.forall_mem_cons.2 ⟨fun hu ha => ?_, hdone⟩⟩
      exact hi hu (hsub' ha)
    rw [DeadCode.collectFrom]
    cases hg : s.module.get? i with
    | none =>
      refine hnext s h (List.Subset.refl _) ?_
      rintro ⟨n, hn, -⟩
      have hlive := (h.live_iff i).2 (by simp [hn])
      simp [hg] at hlive
    | some k =>
      by_cases hi : i ∈ s.alive
      · obtain ⟨n, hn⟩ := Option.isSome_iff_exists.1 ((h.live_iff i).1 (by simp [hg]))
        obtain ⟨k', hk', hcore⟩ := h.exists_get? hi hn
        cases hg.symm.trans hk'
        obtain ⟨kept, hkn, hkk⟩ := hk i n k hn hcore
        simp only [hi, if_true, hkk]
        cases kept with
        | true =>
          refine hnext s h (List.Subset.refl _) ?_
          rintro ⟨n', hn', -, -, -, hfalse⟩
          cases hn.symm.trans hn'
          cases hkn.symm.trans hfalse
        | false =>
          have hstart : Accounted keep m last s [i] := by
            refine ⟨h.toCollecting, h.dead, fun j hj n' hn' => ?_, fun j n' hn' hj hjl hp hu hall =>
              absurd (h.freed j n' hn' hj hjl hp hu hall) List.not_mem_nil⟩
            cases List.mem_singleton.1 hj
            cases hn.symm.trans hn'
            exact .inl hkn
          refine hnext (DeadCode.collect last s [i]) (hstart.collect hl hlast)
            (alive_collect_subset _ _ _) ?_
          rintro ⟨n', hn', hne, hp, hu, -⟩
          exact notMem_alive_collect h.nodup ((h.isDead_iff hl hi hn').2 ⟨hne, hp, by simp [hu]⟩)
      · simp only [hi, if_false]
        exact hnext s h (List.Subset.refl _) fun _ => hi

/-- At the end, exactly the dead code is gone. -/
theorem Accounted.notMem_alive_iff (h : Accounted keep m last s []) (hlast : m.last? = some last)
    (hl : Linked m) (hdone : ∀ j ∈ m.order.reverse.drop 1, Unused keep m last j → j ∉ s.alive)
    (hj : (m.get? j).isSome) : j ∉ s.alive ↔ Dead keep m j := by
  refine ⟨h.dead j hj, fun hdead => ?_⟩
  induction hdead with
  | @mk j n hn hjl hp _ hstart ih =>
    have hne : j ≠ last := fun he => hjl (he ▸ hlast)
    have husers : ∀ u ∈ n.users, u ∉ s.alive := fun u hu =>
      ih u hu (live_of_mem_inputsOf ((hl.mem_users j u).1 (usersOf_of_get? hn ▸ hu)))
    by_cases hu : n.users = []
    · refine hdone j ?_ ⟨n, hn, hne, hp, hu, hstart.resolve_right fun hno => hno hu⟩
      obtain ⟨front, horder⟩ := List.getLast?_eq_some_iff.1 hlast
      have hmem : j ∈ m.order := (hl.mem_order j).2 hj
      rw [horder] at hmem ⊢
      simpa [hne] using hmem
    · exact fun ha => absurd (h.freed j n hn ha hne hp hu husers) List.not_mem_nil

/-- Removing dead code succeeds, takes out exactly the dead code, and reports a change only where
there was some. -/
theorem runWith_exact (hl : Linked m) (hk : Decides keep m) :
    (runWith keep).Leaves m
      (fun changed m' => (changed → ∃ j, Dead keep m j) ∧ ∃ alive, Swept m m' alive ∧
        ∀ j, (m.get? j).isSome → (j ∉ alive ↔ Dead keep m j))
      fun _ _ => False := by
  cases hlast : m.last? with
  | none =>
    have hempty : ∀ j, ¬ (m.get? j).isSome := by
      intro j hj
      have hmem := (hl.mem_order j).2 hj
      rw [List.getLast?_eq_none_iff.1 hlast] at hmem
      cases hmem
    rw [runWith, leaves_bind, leaves_get, hlast]
    exact ⟨by simp, m.ids, swept_self hl, fun j hj => absurd hj (hempty j)⟩
  | some last =>
    have hstart : Accounted keep m last ⟨m, m.ids⟩ [] := by
      refine ⟨collecting_start hl hlast, fun j hj hout => absurd (mem_ids.2 hj) hout, by simp, ?_⟩
      intro j n hn _ _ _ husers hall
      obtain ⟨u, hu⟩ := List.exists_mem_of_ne_nil _ husers
      have hlive := live_of_mem_inputsOf ((hl.mem_users j u).1 (usersOf_of_get? hn ▸ hu))
      exact absurd (mem_ids.2 hlive) (hall u hu)
    obtain ⟨t, ht, hacc, -, hdone⟩ := hstart.collectFrom hl hlast hk (m.order.reverse.drop 1)
    have hexact := fun j => hacc.notMem_alive_iff hlast hl hdone (j := j)
    refine (runWith_collected hlast ht hacc.toCollecting).imp fun changed m' hm' => ?_
    refine ⟨fun hc => ?_, t.alive, hm'.1, hexact⟩
    obtain ⟨j, hj, hout⟩ := hm'.2 hc
    exact ⟨j, (hexact j hj).1 hout⟩

section Swept
variable {alive : List InstructionId}

private theorem Swept.contains_iff (h : Swept m m' alive) (hj : (m.get? j).isSome) :
    m'.contains j ↔ j ∈ alive := by
  rw [contains_eq_isSome, ← isSome_core?, h.core]
  split
  · rename_i ha
    rw [isSome_core?]
    exact iff_of_true hj ha
  · rename_i ha
    exact iff_of_false (by simp) ha

/-- What is left differs from what was there in its users only. -/
theorem Swept.eq_of_get? (h : Swept m m' alive) {k : Instruction} (hk : m'.get? j = some k) :
    ∃ n, m.get? j = some n ∧ n.core = k.core := by
  obtain ⟨-, hcore⟩ := core?_of_swept h (core?_of_get? hk)
  obtain ⟨n, hn, he⟩ := exists_get?_of_core? hcore
  exact ⟨n, hn, he.symm⟩

theorem Swept.order_eq (h : Swept m m' alive) (hl : Linked m) :
    m'.order = m.order.filter fun j => m'.contains j := by
  rw [h.order]
  refine List.filter_congr fun j hj => ?_
  rw [← Bool.eq_iff_iff.2 (h.contains_iff ((hl.mem_order j).1 hj) |>.trans decide_eq_true_iff.symm)]

theorem Swept.validate (h : Swept m m' alive) (hl : Linked m) (hv : m.validate = .ok ()) :
    m'.validate = .ok () := by
  obtain ⟨ho, hout, hfits⟩ := (validate_eq_ok hl).1 hv
  refine (validate_eq_ok h.linked).2 ⟨h.ordered ho, fun i k hk hop => ?_, fun i k hk => ?_⟩
  · obtain ⟨n, hn, he⟩ := h.eq_of_get? hk
    rw [h.last?_eq]
    exact hout i n hn (Instruction.op_eq_of_core he ▸ hop)
  · obtain ⟨n, hn, he⟩ := h.eq_of_get? hk
    obtain ⟨hi, -⟩ := core?_of_swept h (core?_of_get? hk)
    have hfit := hfits i n hn
    have hmap := map_shapeOf_of_swept h hi (core?_of_get? hn)
    change n.core.inputs = [] ∧ n.core.op.isBuiltin ∨
      n.core.op.inferShape (n.core.inputs.map m.shapeOf) n.core.moduleOutputs = .ok n.core.shape at hfit
    rw [← hmap, he] at hfit
    exact hfit

/-- Where exactly the dead code is gone, nothing is dead. -/
theorem Swept.not_dead (h : Swept m m' alive) (hl : Linked m) (hk : Decides keep m)
    (hexact : ∀ j, (m.get? j).isSome → (j ∉ alive ↔ Dead keep m j)) (j : InstructionId) :
    ¬ Dead keep m' j := by
  intro hdead
  induction hdead with
  | @mk j k hget hlast hparam _ hstart ih =>
    obtain ⟨n, hn, he⟩ := h.eq_of_get? hget
    obtain ⟨hja, -⟩ := core?_of_swept h (core?_of_get? hget)
    have hnone : k.users = [] := List.eq_nil_iff_forall_not_mem.2 ih
    have hjlive : (m.get? j).isSome := by simp [hn]
    refine absurd hja ((hexact j hjlive).2 (.mk hn ?_ ?_ (fun u hu => ?_) (.inl ?_)))
    · rwa [← h.last?_eq]
    · rwa [Instruction.parameter?_eq_of_core he]
    · have hin : j ∈ m.inputsOf u := (hl.mem_users j u).1 (usersOf_of_get? hn ▸ hu)
      refine (hexact u (live_of_mem_inputsOf hin)).1 fun hua => ?_
      have hin' : j ∈ m'.inputsOf u := by rwa [inputsOf_eq_core, h.core, if_pos hua, ← inputsOf_eq_core]
      have huser := (h.linked.mem_users j u).2 hin'
      rw [usersOf_of_get? hget, hnone] at huser
      cases huser
    · obtain ⟨kept, hkn, hkk⟩ := hk j n k hn he.symm
      rw [hkn, ← hkk]
      exact hstart.resolve_right fun hno => hno hnone

end Swept

/-- Whether an empty result is protected depends on its shape and its operator. -/
theorem decides_keepWhenEmpty (hl : Linked m) (hs : Sized m) : Decides keepWhenEmpty m := by
  intro i n k hn hcore
  have hsame : keepWhenEmpty k = keepWhenEmpty n := by
    have hk := congrArg keepWhenEmpty hcore
    exact hk
  have hcount : ∃ count, n.shape.elements = .ok count := by
    have hok := hs i ((hl.mem_order i).2 (by simp [hn])) n hn
    cases he : n.shape.elements with
    | ok count => exact ⟨count, rfl⟩
    | error f =>
      rw [he] at hok
      cases hok
  obtain ⟨count, hc⟩ := hcount
  rw [hsame, keepWhenEmpty, hc]
  split
  · exact ⟨false, rfl, rfl⟩
  · exact ⟨_, rfl, rfl⟩

theorem Swept.sized {alive : List InstructionId} (h : Swept m m' alive) (hl : Linked m)
    (hs : Sized m) : Sized m' := by
  intro i _ k hk
  obtain ⟨n, hn, he⟩ := h.eq_of_get? hk
  have hshape : n.shape = k.shape := by
    have hshape := congrArg Instruction.shape he
    exact hshape
  exact hshape ▸ hs i ((hl.mem_order i).2 (by simp [hn])) n hn

end Pass.DeadCode

namespace Pass
open TensorGraph.Module DeadCode
variable {m : Module}

/-- What the pass makes of a linked module, where exactly the dead code goes. -/
theorem deadCode_swept (hl : Linked m) (hs : Sized m) :
    (∃ changed, (deadCode.run m).result = .ok changed ∧
      (changed → ∃ j, Dead keepWhenEmpty m j)) ∧
    ∃ alive, Swept m (deadCode.run m).state alive ∧
      ∀ j, (m.get? j).isSome → (j ∉ alive ↔ Dead keepWhenEmpty m j) := by
  have hrun := runWith_exact hl (decides_keepWhenEmpty hl hs)
  cases hr : (deadCode.run m).result with
  | error e => exact (hrun.error hr).elim
  | ok changed =>
    obtain ⟨hc, hswept⟩ := hrun.ok hr
    exact ⟨⟨changed, rfl, hc⟩, hswept⟩

/-- The pass succeeds and removes the dead code and nothing else. What is left is as it was, but for
its users, and in the same order; and a module that passed the check passes it still. -/
theorem deadCode_exact (hl : Linked m) (hs : Sized m) :
    let m' := (deadCode.run m).state
    (∃ changed, (deadCode.run m).result = .ok changed) ∧
      (∀ i, m.contains i → (m'.contains i = false ↔ Dead keepWhenEmpty m i)) ∧
      (∀ i n', m'.get? i = some n' → ∃ n, m.get? i = some n ∧ n' = { n with users := n'.users }) ∧
      m'.order = m.order.filter (fun i => m'.contains i) ∧
      (m.validate = .ok () → m'.validate = .ok ()) := by
  obtain ⟨⟨changed, hr, -⟩, alive, hswept, hexact⟩ := deadCode_swept hl hs
  refine ⟨⟨changed, hr⟩, fun i hi => ?_, fun i n' hn' => ?_, hswept.order_eq hl, hswept.validate hl⟩
  · rw [← hexact i hi, ← hswept.contains_iff hi, Bool.not_eq_true]
  · obtain ⟨n, hn, he⟩ := hswept.eq_of_get? hn'
    have husers := congrArg (fun k : Instruction => { k with users := n'.users }) he
    exact ⟨n, hn, husers.symm⟩

/-- A chain with an operand that is used three times, an empty result that nothing uses, and another
one that only a dead border uses. -/
def overgrown : Module :=
  Mutation.applyAll (Module.empty "main")
    [.addParameter "x" (.packedOf .float [2]), .addParameter "e" (.packedOf .float [0]),
      .add (.unary .neg) [⟨0⟩], .add (.binary .mul) [⟨2⟩, ⟨2⟩], .add (.binary .add) [⟨3⟩, ⟨2⟩],
      .add (.unary .relu) [⟨1⟩], .add (.unary .exp) [⟨1⟩], .add (.pad [1, 1] .constant 0) [⟨6⟩],
      .add (.unary .tanh) [⟨0⟩]]

private theorem linked_overgrown : Linked overgrown :=
  ((Built.empty "main").applyAll _).linked

private theorem sized_overgrown : Sized overgrown :=
  ((Built.empty "main").applyAll _).sized (by decide +kernel)

private theorem deadCode_overgrown :
    (deadCode.run overgrown).result = .ok true ∧
      (deadCode.run overgrown).state.order = [⟨0⟩, ⟨1⟩, ⟨5⟩, ⟨8⟩] ∧
      overgrown.validate = .ok () := by
  unfold deadCode runWith
  simp only [collectFrom_eq_foldlM, collect_eq_collectUpTo 8]
  decide +kernel

/-- The empty result that nothing uses stays, and the one that a dead instruction used goes. -/
theorem deadCode_exact_overgrown :
    let m' := (deadCode.run overgrown).state
    Linked overgrown ∧ Sized overgrown ∧ m'.order = [⟨0⟩, ⟨1⟩, ⟨5⟩, ⟨8⟩] ∧
      Dead keepWhenEmpty overgrown ⟨2⟩ ∧ Dead keepWhenEmpty overgrown ⟨6⟩ ∧
      ¬ Dead keepWhenEmpty overgrown ⟨5⟩ ∧ m'.validate = .ok () := by
  obtain ⟨-, horder, hvalid⟩ := deadCode_overgrown
  obtain ⟨-, hdead, -, hkept, hvalidate⟩ := deadCode_exact linked_overgrown sized_overgrown
  have hout : ∀ i, overgrown.contains i → (Dead keepWhenEmpty overgrown i ↔
      i ∉ [⟨0⟩, ⟨1⟩, ⟨5⟩, ⟨8⟩]) := by
    intro i hi
    have hmem : i ∈ overgrown.order := (linked_overgrown.mem_order i).2 hi
    rw [← hdead i hi, ← horder, hkept]
    simp [hmem]
  refine ⟨linked_overgrown, sized_overgrown, horder, ?_, ?_, ?_, hvalidate hvalid⟩
  all_goals rw [hout _ (by decide +kernel)]; decide

/-- A second run finds no dead code, reports no change and leaves the module as the first run
left it. -/
theorem deadCode_idempotent (hl : Linked m) (hs : Sized m) :
    let m' := (deadCode.run m).state
    (∃ changed, (deadCode.run m).result = .ok changed) ∧
      (deadCode.run m').result = .ok false ∧ (deadCode.run m').state = m' := by
  intro m'
  obtain ⟨⟨changed, hr, -⟩, alive, hswept, hexact⟩ := deadCode_swept hl hs
  obtain ⟨⟨again, hr', hdead⟩, -⟩ := deadCode_swept hswept.linked (hswept.sized hl hs)
  have hnone := hswept.not_dead hl (decides_keepWhenEmpty hl hs) hexact
  have hfalse : again = false := by
    by_contra htrue
    obtain ⟨j, hj⟩ := hdead (by simpa using htrue)
    exact hnone j hj
  rw [hfalse] at hr'
  exact ⟨⟨changed, hr⟩, hr', (runWith_truthful keepWhenEmpty).unchanged hr'⟩

/-- The first run removes five instructions and keeps an empty one that it would start from. -/
theorem deadCode_idempotent_overgrown :
    let m' := (deadCode.run overgrown).state
    (deadCode.run overgrown).result = .ok true ∧ (deadCode.run m').result = .ok false ∧
      (deadCode.run m').state = m' :=
  ⟨deadCode_overgrown.1, (deadCode_idempotent linked_overgrown sized_overgrown).2⟩

end Pass
end TensorGraph
