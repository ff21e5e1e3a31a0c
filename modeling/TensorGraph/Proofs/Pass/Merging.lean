import TensorGraph.Proofs.Module.Accepted
import TensorGraph.Proofs.Operator.Equality
import TensorGraph.Proofs.Pass.Computes

/-! Merging common subexpressions is complete. Looking at the users of a merged instruction again
comes to an end, because users stand after what they use; every merge keeps the places and shapes of
the instructions; and in the end no two instructions in use compute the same. The last point rests
on an invariant of the front of the order: once the instructions of a front are told apart, later
merges leave them and whether they are in use as they are. -/
namespace TensorGraph.Pass
open TensorGraph.Action TensorGraph.Module
variable {m m' m'' : Module}

namespace CommonSubexpression
variable {i j : InstructionId} {n a b : Instruction} {seen : Seen} {is : List InstructionId} {q : Nat}

theorem fingerprint_eq (h : equivalent a b) : fingerprint a = fingerprint b := by
  simp only [equivalent, Bool.and_eq_true, beq_iff_eq] at h
  obtain ⟨⟨hop, hin⟩, hargs⟩ := h
  rw [fingerprint, fingerprint, (Operator.alike_of_beq hop).feed_eq, hin, hargs]

private theorem equivalent_symm (h : equivalent a b) : equivalent b a := by
  simp only [equivalent, Bool.and_eq_true, beq_iff_eq] at h ⊢
  exact ⟨⟨Operator.beq_symm h.1.1, h.1.2.symm⟩, h.2.symm⟩

/-- What was met under the same fingerprint is found, if it is still equivalent. -/
theorem not_equivalent_of_earlier? (h : earlier? m seen n = none)
    (hj : (fingerprint n, j) ∈ seen) (ha : m.get? j = some a) : ¬ equivalent a n := by
  intro he
  rw [earlier?, Option.map_eq_none_iff] at h
  have hno := List.find?_eq_none.1 h _ hj
  simp [ha, he] at hno

/-- Instructions with the same operator and sub-modules have taken over the same outputs. -/
def Agree (m : Module) : Prop :=
  ∀ i j a b, m.get? i = some a → m.get? j = some b → (a.op == b.op) = true →
    a.moduleArgs = b.moduleArgs → a.moduleOutputs = b.moduleOutputs

/-- Equivalent instructions have the same shape, unless they list outputs. -/
theorem shape_eq_of_equivalent (h : Accepted m) (hagree : Agree m) (ha : m.get? j = some a)
    (hb : m.get? i = some b) (ho : b.op.isOutput = false) (he : equivalent a b) :
    a.shape = b.shape := by
  have hca := core?_of_get? ha
  have hcb := core?_of_get? hb
  simp only [equivalent, Bool.and_eq_true, beq_iff_eq] at he
  obtain ⟨⟨hop, hin⟩, hargs⟩ := he
  have halike := Operator.alike_of_beq hop
  cases hbuiltin : b.op.isBuiltin with
  | true =>
    rcases halike.of_builtin hbuiltin ho with ⟨v, w, hv, hw, hs⟩ | ⟨name, shape, hv, hw⟩
    · exact ((h.own j _ hca).literal v hv).trans (hs.trans ((h.own i _ hcb).literal w hw).symm)
    · exact ((h.own j _ hca).parameter name shape hv).trans ((h.own i _ hcb).parameter name shape hw).symm
  | false =>
    have hfa : m.ShapeFits a := h.fits_of_not_builtin (n := a.core) hca (halike.isBuiltin_eq.trans hbuiltin)
    have hfb : m.ShapeFits b := h.fits_of_not_builtin (n := b.core) hcb hbuiltin
    rw [ShapeFits, halike.inferShape_eq, hin, hagree j i a b ha hb hop hargs] at hfa
    exact Except.ok.inj (hfa.symm.trans hfb)

/-- The same instructions in the same places, which may read from others of the same shapes. -/
structure Rerouted (m m' : Module) : Prop where
  accepted : Accepted m'
  order : m'.order = m.order
  core : ∀ i, ∃ inputs, m'.core? i = (m.core? i).map fun n => { n with inputs }

theorem Rerouted.refl (h : Accepted m) : Rerouted m m := by
  refine ⟨h, rfl, fun i => ⟨m.inputsOf i, ?_⟩⟩
  cases hn : m.core? i with
  | none => rfl
  | some n =>
    rw [inputsOf_of_core? hn]
    rfl

theorem Rerouted.trans (h : Rerouted m m') (h' : Rerouted m' m'') : Rerouted m m'' := by
  refine ⟨h'.accepted, h'.order.trans h.order, fun i => ?_⟩
  obtain ⟨_, hi⟩ := h.core i
  obtain ⟨inputs, hi'⟩ := h'.core i
  exact ⟨inputs, by rw [hi', hi, Option.map_map]; rfl⟩

theorem Rerouted.agree (h : Rerouted m m') (hagree : Agree m) : Agree m' := by
  have hget : ∀ i a', m'.get? i = some a' → ∃ a inputs, m.get? i = some a ∧
      a'.core = { a.core with inputs } := by
    intro i a' ha'
    obtain ⟨inputs, hi⟩ := h.core i
    obtain ⟨a, ha, he⟩ := Option.map_eq_some_iff.1 (hi.symm.trans (core?_of_get? ha'))
    obtain ⟨k, hk, rfl⟩ := exists_get?_of_core? ha
    exact ⟨k, inputs, hk, he.symm⟩
  intro i j a' b' ha' hb' hop hargs
  obtain ⟨a, _, ha, hea⟩ := hget i a' ha'
  obtain ⟨b, _, hb, heb⟩ := hget j b' hb'
  have hagree' := hagree i j a b ha hb
  simp only [Instruction.core, Instruction.mk.injEq] at hea heb
  rw [hea.1, heb.1] at hop
  rw [hea.2.2.2.2.1, heb.2.2.2.2.1] at hargs
  rw [hea.2.2.2.2.2, heb.2.2.2.2.2]
  exact hagree' hop hargs

/-- The users of `i` have been made to use `j`, which stands before it. -/
structure Merged (m : Module) (i j : InstructionId) (m' : Module) : Prop where
  rerouted : Rerouted m m'
  lt : m.order.idxOf j < m.order.idxOf i
  inputs : ∀ u, m'.inputsOf u = (m.inputsOf u).map fun x => if x = i then j else x

/-- An instruction in use can be merged into an equivalent one before it. -/
theorem exists_merged (h : Accepted m) (hagree : Agree m) (hn : m.get? i = some n)
    (hu : n.users ≠ []) (ha : m.get? j = some a) (he : equivalent a n)
    (hlt : m.order.idxOf j < m.order.idxOf i) :
    ∃ r, (replaceWith i j m).result = .ok r ∧ Merged m i j (replaceWith i j m).state := by
  obtain ⟨u, hu⟩ := List.exists_mem_of_ne_nil _ hu
  rw [← usersOf_of_get? hn] at hu
  have hlast := h.last?_ne_of_user hu
  have ho := h.not_output_of_user hn hu
  have hs : a.shape = n.shape := shape_eq_of_equivalent h hagree ha hn ho he
  have hshape : m.shapeOf i = m.shapeOf j := by rw [shapeOf_of_get? hn, shapeOf_of_get? ha, hs]
  obtain ⟨r, hr, hf⟩ := (h.replaceWith_forwards hn ho ha hs hlt fun hl => absurd hl hlast).exists_ok
  refine ⟨r, hr, ⟨?_, ?_, fun x => ?_⟩, hlt, hf.inputsOf_eq h.linked h.ordered hlast hlt⟩
  · exact (hf.upholds h hlt hshape).accepted
  · exact (hf.standing h hlt hshape).order
  · refine ⟨(replaceWith i j m).state.inputsOf x, ?_⟩
    rcases (hf.standing h hlt hshape).core?_cases h.linked x with ⟨hk, hk'⟩ | ⟨k, k', hk, hk'⟩
    · rw [hk, hk']
      rfl
    · rw [hk, hk', inputsOf_of_core? hk']
      have hshape' := (hf.standing h hlt hshape).shape x k k' hk hk'
      have hne : i ≠ j := fun he => Nat.lt_irrefl _ (he ▸ hlt)
      rcases hf.core?_cases hne h.linked hk' with hold | ⟨b, hb, he', -, -⟩ | ⟨-, hl, -⟩
      · cases hk.symm.trans hold
        rfl
      · cases hk.symm.trans hb
        rw [hshape'] at he'
        rw [he']
        rfl
      · exact absurd hl hlast

section Merged
variable (h : Merged m i j m') (hm : Accepted m)
include h hm

theorem Merged.mem_usersOf (x u : InstructionId) :
    u ∈ m'.usersOf x ↔ x ≠ i ∧ u ∈ m.usersOf x ∨ x = j ∧ u ∈ m.usersOf i := by
  have hne : j ≠ i := fun he => Nat.lt_irrefl _ (he ▸ h.lt)
  rw [h.rerouted.accepted.linked.mem_users, h.inputs, List.mem_map, hm.linked.mem_users,
    hm.linked.mem_users]
  constructor
  · rintro ⟨y, hy, he⟩
    split at he
    · rename_i hyi
      exact .inr ⟨he.symm, hyi ▸ hy⟩
    · rename_i hyi
      exact .inl ⟨he ▸ hyi, he ▸ hy⟩
  · rintro (⟨hx, hmem⟩ | ⟨rfl, hmem⟩)
    · exact ⟨x, hmem, if_neg hx⟩
    · exact ⟨i, hmem, if_pos rfl⟩

private theorem Merged.usersOf_eq_nil : m'.usersOf i = [] := by
  refine List.eq_nil_iff_forall_not_mem.2 fun u hu => ?_
  rcases (h.mem_usersOf hm i u).1 hu with ⟨hne, -⟩ | ⟨he, -⟩
  · exact hne rfl
  · exact Nat.lt_irrefl _ (he ▸ h.lt)

end Merged

/-- Instructions of a list are merged in turn, and after each merge the users of what it was merged
into. There is no bound on the depth, so a merging that would go on for ever is not described. -/
inductive Merges : Seen → List InstructionId → Module → Bool → Module → Prop
  | nil (seen : Seen) (m : Module) : Merges seen [] m false m
  | gone {seen : Seen} {i : InstructionId} {is : List InstructionId} {m m' : Module} {c : Bool}
      (h : m.get? i = none) (hrest : Merges seen is m c m') : Merges seen (i :: is) m c m'
  | unused {seen : Seen} {i : InstructionId} {is : List InstructionId} {m m' : Module} {c : Bool}
      {n : Instruction} (h : m.get? i = some n) (hu : n.users = [])
      (hrest : Merges seen is m c m') : Merges seen (i :: is) m c m'
  | fresh {seen : Seen} {i : InstructionId} {is : List InstructionId} {m m' : Module} {c : Bool}
      {n : Instruction} (h : m.get? i = some n) (hu : n.users ≠ [])
      (he : earlier? m seen n = none)
      (hrest : Merges (seen ++ [(fingerprint n, i)]) is m c m') : Merges seen (i :: is) m c m'
  | merged {seen : Seen} {i j r : InstructionId} {is : List InstructionId} {m m₁ m₂ m₃ : Module}
      {c₁ c₂ : Bool} {n : Instruction} (h : m.get? i = some n) (hu : n.users ≠ [])
      (he : earlier? m seen n = some j) (hok : (replaceWith i j m).result = .ok r)
      (hstate : (replaceWith i j m).state = m₁)
      (hagain : Merges [] (inOrder m₁ (m₁.usersOf j)) m₁ c₁ m₂)
      (hrest : Merges seen is m₂ c₂ m₃) : Merges seen (i :: is) m true m₃

/-- Instructions in order, which stand after those met before. -/
structure Listed (order : List InstructionId) (seen : Seen) (is : List InstructionId) : Prop where
  sorted : is.Pairwise fun i j => order.idxOf i < order.idxOf j
  seen : ∀ k j, (k, j) ∈ seen → ∀ i ∈ is, order.idxOf j < order.idxOf i

section Listed
variable {order : List InstructionId}

theorem Listed.tail (h : Listed order seen (i :: is)) : Listed order seen is :=
  ⟨(List.pairwise_cons.1 h.sorted).2, fun k j hk x hx => h.seen k j hk x (List.mem_cons_of_mem _ hx)⟩

theorem Listed.meet (h : Listed order seen (i :: is)) (key : List Feed) :
    Listed order (seen ++ [(key, i)]) is := by
  refine ⟨h.tail.sorted, fun k j hk x hx => ?_⟩
  rcases List.mem_append.1 hk with hk | hk
  · exact h.tail.seen k j hk x hx
  · cases List.mem_singleton.1 hk
    exact (List.pairwise_cons.1 h.sorted).1 x hx

private theorem listed_order (h : order.Nodup) : Listed order [] order :=
  ⟨pairwise_idxOf_lt h, by simp⟩

private theorem listed_usersOf (hl : Linked m) (j : InstructionId) :
    Listed m.order [] (inOrder m (m.usersOf j)) := by
  refine ⟨?_, by simp⟩
  have hnodup : (inOrder m (m.usersOf j)).Nodup :=
    (List.mergeSort_perm _ _).nodup_iff.2 (hl.users_nodup j)
  refine ((inOrder_usersOf hl j).and hnodup).imp_of_mem fun {a b} ha hb hab => ?_
  have hmem : a ∈ m.order := hl.user_mem_order ((hl.mem_users j a).1 (List.mem_mergeSort.1 ha))
  exact Nat.lt_of_le_of_ne hab.1 fun he => hab.2 ((List.idxOf_inj hmem).1 he)

end Listed

/-- The step of a merge, from what the list says of the places. -/
theorem exists_merged_of_earlier? (h : Accepted m) (hagree : Agree m)
    (hlist : Listed m.order seen (i :: is)) (hn : m.get? i = some n) (hu : n.users ≠ [])
    (he : earlier? m seen n = some j) :
    ∃ r, (replaceWith i j m).result = .ok r ∧ Merged m i j (replaceWith i j m).state := by
  obtain ⟨hj, a, ha, heq⟩ := earlier?_spec he
  exact exists_merged h hagree hn hu ha heq (hlist.seen _ j hj i (List.mem_cons_self ..))

/-- However deep it goes, merging leaves the same instructions in the same places. -/
theorem Merges.rerouted {c : Bool} (h : Merges seen is m c m') (hm : Accepted m) (hagree : Agree m)
    (hlist : Listed m.order seen is) : Rerouted m m' := by
  induction h with
  | nil => exact .refl hm
  | gone _ _ ih => exact ih hm hagree hlist.tail
  | unused _ _ _ ih => exact ih hm hagree hlist.tail
  | fresh _ _ _ _ ih => exact ih hm hagree (hlist.meet _)
  | merged hn hu he _ hstate _ _ ih₁ ih₂ =>
    obtain ⟨_, -, h₁⟩ := exists_merged_of_earlier? hm hagree hlist hn hu he
    rw [hstate] at h₁
    have hr₁ := h₁.rerouted
    have hr₂ := ih₁ hr₁.accepted (hr₁.agree hagree) (listed_usersOf hr₁.accepted.linked _)
    have hr := hr₁.trans hr₂
    exact hr.trans (ih₂ hr.accepted (hr.agree hagree) (hr.order ▸ hlist.tail))

/-- The depth that is left and the place of an instruction together exceed the number of
instructions, so that the users of the instruction can still be looked at. -/
def Reachable (order : List InstructionId) (depth : Nat) (i : InstructionId) : Prop :=
  order.length < depth + order.idxOf i

private theorem mergeAll_merges {depth : Nat}
    (hagain : ∀ is m, Accepted m → Agree m → Listed m.order [] is →
      (∀ i ∈ is, Reachable m.order depth i) →
        (mergeDepth depth is).Leaves m (fun c m' => Merges [] is m c m') fun _ _ => False)
    (is : List InstructionId) (seen : Seen) (m : Module) (hm : Accepted m) (hagree : Agree m)
    (hlist : Listed m.order seen is) (his : ∀ i ∈ is, Reachable m.order (depth + 1) i)
    (hseen : ∀ k j, (k, j) ∈ seen → Reachable m.order (depth + 1) j) :
    (mergeAll (mergeDepth depth) seen is).Leaves m (fun c m' => Merges seen is m c m')
      fun _ _ => False := by
  induction is generalizing seen m with
  | nil => exact .nil seen m
  | cons i rest ih =>
    have hrest : ∀ x ∈ rest, Reachable m.order (depth + 1) x := fun x hx =>
      his x (List.mem_cons_of_mem _ hx)
    simp only [mergeAll, leaves_bind, leaves_get]
    split
    · rename_i hn
      exact (ih seen m hm hagree hlist.tail hrest hseen).imp fun _ _ h => .gone hn h
    rename_i n hn
    split
    · rename_i hu
      exact (ih seen m hm hagree hlist.tail hrest hseen).imp fun _ _ h =>
        .unused hn (List.isEmpty_iff.1 hu) h
    rename_i hu
    replace hu : n.users ≠ [] := fun he => hu (List.isEmpty_iff.2 he)
    split
    · rename_i he
      refine (ih _ m hm hagree (hlist.meet _) hrest fun k j hk => ?_).imp fun _ _ h =>
        .fresh hn hu he h
      rcases List.mem_append.1 hk with hk | hk
      · exact hseen k j hk
      · cases List.mem_singleton.1 hk
        exact his i (List.mem_cons_self ..)
    rename_i j he
    simp only [leaves_bind, leaves_get, leaves_pure]
    obtain ⟨r, hr, hmerged⟩ := exists_merged_of_earlier? hm hagree hlist hn hu he
    refine leaves_of_result hr ?_
    have hr₁ := hmerged.rerouted
    have hlist₁ := listed_usersOf hr₁.accepted.linked j
    refine (hagain _ _ hr₁.accepted (hr₁.agree hagree) hlist₁ fun u hu => ?_).imp fun c₁ m₂ h₁ => ?_
    · have huse := (hr₁.accepted.linked.mem_users j u).1 (List.mem_mergeSort.1 hu)
      have hlt := hr₁.accepted.ordered.idxOf_lt hr₁.accepted.linked huse
      have hj := hseen _ j (earlier?_spec he).1
      rw [Reachable, hr₁.order]
      rw [hr₁.order] at hlt
      rw [Reachable] at hj
      omega
    · have hr₂ := hr₁.trans (h₁.rerouted hr₁.accepted (hr₁.agree hagree) hlist₁)
      rw [← hr₂.order] at hrest hseen
      exact (ih seen m₂ hr₂.accepted (hr₂.agree hagree) (hr₂.order ▸ hlist.tail) hrest hseen).imp
        fun _ _ h => .merged hn hu he hr rfl h₁ h

/-- Merging to a depth does all of the merging, when the depth suffices for what is listed. -/
theorem mergeDepth_merges (depth : Nat) : ∀ is m, Accepted m → Agree m → Listed m.order [] is →
    (∀ i ∈ is, Reachable m.order depth i) →
      (mergeDepth depth is).Leaves m (fun c m' => Merges [] is m c m') fun _ _ => False := by
  induction depth with
  | zero =>
    intro is m _ _ _ his
    have hnone : is = [] := List.eq_nil_iff_forall_not_mem.2 fun i hi => by
      have hlt := his i hi
      have hle : m.order.idxOf i ≤ m.order.length := List.idxOf_le_length
      rw [Reachable] at hlt
      omega
    subst hnone
    exact .nil [] m
  | succ depth ih =>
    exact fun is m hm hagree hlist his => mergeAll_merges ih is [] m hm hagree hlist his (by simp)

/-- Instructions in use that stand before a place are told apart. -/
def Distinct (q : Nat) (m : Module) : Prop :=
  ∀ x y a b, m.core? x = some a → m.core? y = some b → m.order.idxOf x < m.order.idxOf y →
    m.order.idxOf y < q → m.usersOf x ≠ [] → m.usersOf y ≠ [] → ¬ equivalent a b

/-- Instructions that stand before a place are what they were, and so is whether they are in use. -/
structure Frozen (q : Nat) (m m' : Module) : Prop where
  order : m'.order = m.order
  core : ∀ x, m.order.idxOf x < q → m'.core? x = m.core? x
  used : ∀ x, m.order.idxOf x < q → (m'.usersOf x = [] ↔ m.usersOf x = [])

theorem Frozen.refl (q : Nat) (m : Module) : Frozen q m m :=
  ⟨rfl, fun _ _ => rfl, fun _ _ => .rfl⟩

theorem Frozen.trans (h : Frozen q m m') (h' : Frozen q m' m'') : Frozen q m m'' :=
  ⟨h'.order.trans h.order, fun x hx => (h'.core x (h.order ▸ hx)).trans (h.core x hx),
    fun x hx => (h'.used x (h.order ▸ hx)).trans (h.used x hx)⟩

private theorem Frozen.distinct (h : Frozen q m m') (hd : Distinct q m) : Distinct q m' := by
  intro x y a b hx hy hlt hq hux huy
  rw [h.order] at hlt hq
  rw [h.core x (Nat.lt_trans hlt hq)] at hx
  rw [h.core y hq] at hy
  rw [Ne, h.used x (Nat.lt_trans hlt hq)] at hux
  rw [Ne, h.used y hq] at huy
  exact hd x y a b hx hy hlt hq hux huy

/-- A merge of an instruction beyond a place changes nothing before the place. -/
theorem Merged.frozen (h : Merged m i j m') (hm : Accepted m) (hi : q ≤ m.order.idxOf i)
    (hj : m.order.idxOf j < q → m.usersOf j ≠ []) : Frozen q m m' := by
  refine ⟨h.rerouted.order, fun x hx => ?_, fun x hx => ?_⟩
  · have hnot : ∀ y ∈ m.inputsOf x, y ≠ i := by
      rintro y hy rfl
      have := hm.ordered.idxOf_lt hm.linked hy
      omega
    obtain ⟨inputs, hcore⟩ := h.rerouted.core x
    cases hn : m.core? x with
    | none =>
      rw [hcore, hn]
      rfl
    | some n =>
      rw [hn] at hcore
      have hin : inputs = n.inputs := by
        have hin := h.inputs x
        rwa [inputsOf_of_core? hcore, List.map_congr_left fun y hy => if_neg (hnot y hy),
          List.map_id', inputsOf_of_core? hn] at hin
      rw [hcore, hin]
      rfl
  · have hne : x ≠ i := fun he => by
      rw [he] at hx
      omega
    simp only [List.eq_nil_iff_forall_not_mem, h.mem_usersOf hm]
    by_cases hxj : x = j
    · subst hxj
      have hused := List.exists_mem_of_ne_nil _ (hj hx)
      grind
    · grind

/-- Merging leaves alone a front whose instructions are told apart: of two equivalent instructions
in use one stands beyond it. What was met before has to be in use, where it stands in the front. -/
theorem Merges.frozen {c : Bool} (h : Merges seen is m c m') (hm : Accepted m) (hagree : Agree m)
    (hlist : Listed m.order seen is) (hd : Distinct q m)
    (hseen : ∀ k j, (k, j) ∈ seen → m.order.idxOf j < q → m.usersOf j ≠ []) : Frozen q m m' := by
  induction h with
  | nil => exact .refl q _
  | gone _ _ ih => exact ih hm hagree hlist.tail hd hseen
  | unused _ _ _ ih => exact ih hm hagree hlist.tail hd hseen
  | @fresh seen i _ _ _ _ n hn hu _ _ ih =>
    refine ih hm hagree (hlist.meet _) hd fun k j hk => ?_
    rcases List.mem_append.1 hk with hk | hk
    · exact hseen k j hk
    · cases List.mem_singleton.1 hk
      exact fun _ => by rwa [usersOf_of_get? hn]
  | @merged seen i j _ _ m m₁ m₂ m₃ _ _ n hn hu he _ hstate hagain _ ih₁ ih₂ =>
    obtain ⟨_, -, h₁⟩ := exists_merged_of_earlier? hm hagree hlist hn hu he
    rw [hstate] at h₁
    obtain ⟨hj, a, ha, heq⟩ := earlier?_spec he
    have hused : m.order.idxOf j < q → m.usersOf j ≠ [] := hseen _ j hj
    have hbeyond : q ≤ m.order.idxOf i := by
      by_contra hlt
      have hlt : m.order.idxOf i < q := Nat.lt_of_not_le hlt
      exact hd j i a.core n.core (core?_of_get? ha) (core?_of_get? hn) h₁.lt hlt
        (hused (Nat.lt_trans h₁.lt hlt)) (by rwa [usersOf_of_get? hn]) heq
    have hr₁ := h₁.rerouted
    have hlist₁ := listed_usersOf hr₁.accepted.linked j
    have hf₁ := h₁.frozen hm hbeyond hused
    have hf₂ := ih₁ hr₁.accepted (hr₁.agree hagree) hlist₁ (hf₁.distinct hd) (by simp)
    have hf := hf₁.trans hf₂
    have hr := hr₁.trans (hagain.rerouted hr₁.accepted (hr₁.agree hagree) hlist₁)
    refine hf.trans (ih₂ hr.accepted (hr.agree hagree) (hr.order ▸ hlist.tail) (hf.distinct hd) ?_)
    intro k x hx hlt
    rw [hf.order] at hlt
    rw [Ne, hf.used x hlt]
    exact hseen k x hx hlt

/-- One more instruction is told apart from those before it when it is not in use, or when none of
them is equivalent to it. -/
theorem Distinct.succ (hl : Linked m) (hd : Distinct q m) (hi : m.order.idxOf i = q)
    (h : m.usersOf i ≠ [] → ∀ b, m.core? i = some b → ∀ x a, m.core? x = some a →
      m.order.idxOf x < q → m.usersOf x ≠ [] → ¬ equivalent a b) : Distinct (q + 1) m := by
  intro x y a b hx hy hlt hq hux huy
  rcases Nat.lt_succ_iff_lt_or_eq.1 hq with hq | hq
  · exact hd x y a b hx hy hlt hq hux huy
  · have hyi : y = i := (List.idxOf_inj (mem_order_of_core? hl hy)).1 (hq.trans hi.symm)
    subst hyi
    exact h huy b hy x a hx (hq ▸ hlt) hux

/-- What a sweep over the whole order has met: all instructions in use before a place, under the
fingerprints they have, and nothing else. -/
structure Met (q : Nat) (m : Module) (seen : Seen) : Prop where
  met : ∀ x a, m.core? x = some a → m.order.idxOf x < q → m.usersOf x ≠ [] →
    (fingerprint a, x) ∈ seen
  used : ∀ k x, (k, x) ∈ seen → m.order.idxOf x < q ∧ m.usersOf x ≠ []

private theorem Met.frozen (h : Met q m seen) (hf : Frozen q m m') : Met q m' seen := by
  refine ⟨fun x a hx hlt hu => ?_, fun k x hk => ?_⟩
  · rw [hf.order] at hlt
    rw [hf.core x hlt] at hx
    rw [Ne, hf.used x hlt] at hu
    exact h.met x a hx hlt hu
  · obtain ⟨hlt, hu⟩ := h.used k x hk
    rw [hf.order, Ne, hf.used x hlt]
    exact ⟨hlt, hu⟩

theorem Met.skip (h : Met q m seen) (hl : Linked m) (hi : m.order.idxOf i = q)
    (hu : m.usersOf i = []) : Met (q + 1) m seen := by
  refine ⟨fun x a hx hlt hux => ?_, fun k x hk => ?_⟩
  · rcases Nat.lt_succ_iff_lt_or_eq.1 hlt with hlt | hlt
    · exact h.met x a hx hlt hux
    · cases (List.idxOf_inj (mem_order_of_core? hl hx)).1 (hlt.trans hi.symm)
      exact absurd hu hux
  · exact ⟨Nat.lt_succ_of_lt (h.used k x hk).1, (h.used k x hk).2⟩

theorem Met.meet (h : Met q m seen) (hl : Linked m) (hi : m.order.idxOf i = q)
    (hn : m.get? i = some n) (hu : n.users ≠ []) :
    Met (q + 1) m (seen ++ [(fingerprint n, i)]) := by
  refine ⟨fun x a hx hlt hux => ?_, fun k x hk => ?_⟩
  · rcases Nat.lt_succ_iff_lt_or_eq.1 hlt with hlt | hlt
    · exact List.mem_append_left _ (h.met x a hx hlt hux)
    · cases (List.idxOf_inj (mem_order_of_core? hl hx)).1 (hlt.trans hi.symm)
      cases hx.symm.trans (core?_of_get? hn)
      exact List.mem_append_right _ (List.mem_singleton.2 rfl)
  · rcases List.mem_append.1 hk with hk | hk
    · exact ⟨Nat.lt_succ_of_lt (h.used k x hk).1, (h.used k x hk).2⟩
    · cases List.mem_singleton.1 hk
      exact ⟨by omega, by rwa [usersOf_of_get? hn]⟩

private theorem idxOf_of_split {order front : List InstructionId} (hn : order.Nodup)
    (h : order = front ++ i :: is) : order.idxOf i = front.length := by
  have hno : i ∉ front := fun hi => by
    rw [h] at hn
    exact (List.nodup_append.1 hn).2.2 i hi i (List.mem_cons_self ..) rfl
  rw [h, List.idxOf_append_of_notMem hno, List.idxOf_cons_self, Nat.add_zero]

/-- A sweep over the rest of the order tells all instructions in use apart. -/
theorem Merges.distinct {c : Bool} (h : Merges seen is m c m') (front : List InstructionId)
    (hm : Accepted m) (hagree : Agree m) (hsplit : m.order = front ++ is)
    (hlist : Listed m.order seen is) (hd : Distinct front.length m)
    (hmet : Met front.length m seen) : Distinct m'.order.length m' := by
  induction h generalizing front with
  | nil =>
    rw [hsplit, List.append_nil]
    exact hd
  | @gone _ i is _ _ _ hn _ _ =>
    have hmem : i ∈ front ++ i :: is := by simp
    rw [← hsplit, hm.linked.mem_order, hn] at hmem
    cases hmem
  | @unused _ i _ _ _ _ n hn hu _ ih =>
    have hi := idxOf_of_split hm.linked.nodup hsplit
    have hunused := (usersOf_of_get? hn).trans hu
    refine ih (front ++ [i]) hm hagree (by simpa using hsplit) hlist.tail ?_ ?_ <;>
      rw [List.length_append, List.length_singleton]
    · exact hd.succ hm.linked hi fun hused => absurd hunused hused
    · exact hmet.skip hm.linked hi hunused
  | @fresh seen i _ m _ _ n hn hu he _ ih =>
    have hi := idxOf_of_split hm.linked.nodup hsplit
    refine ih (front ++ [i]) hm hagree (by simpa using hsplit) (hlist.meet _) ?_ ?_ <;>
      rw [List.length_append, List.length_singleton]
    · refine hd.succ hm.linked hi fun _ b hb x a hx hlt hused heq => ?_
      cases hb.symm.trans (core?_of_get? hn)
      obtain ⟨k, hk, rfl⟩ := exists_get?_of_core? hx
      have hseen := hmet.met x k.core hx hlt hused
      rw [fingerprint_eq heq] at hseen
      exact not_equivalent_of_earlier? he hseen hk heq
    · exact hmet.meet hm.linked hi hn hu
  | @merged seen i j _ _ m m₁ m₂ m₃ _ _ n hn hu he _ hstate hagain _ _ ih₂ =>
    have hi := idxOf_of_split hm.linked.nodup hsplit
    obtain ⟨_, -, h₁⟩ := exists_merged_of_earlier? hm hagree hlist hn hu he
    rw [hstate] at h₁
    have hr₁ := h₁.rerouted
    have hlist₁ := listed_usersOf hr₁.accepted.linked j
    have hr := hr₁.trans (hagain.rerouted hr₁.accepted (hr₁.agree hagree) hlist₁)
    have hf₁ := h₁.frozen hm (Nat.le_of_eq hi.symm) fun _ => (hmet.used _ j (earlier?_spec he).1).2
    -- the merged instruction is out of use, so that the front may grow by it before users are merged
    have hunused := h₁.usersOf_eq_nil hm
    have hi₁ : m₁.order.idxOf i = front.length := hr₁.order ▸ hi
    have hd₁ : Distinct (front.length + 1) m₁ :=
      (hf₁.distinct hd).succ hr₁.accepted.linked hi₁ fun hused => absurd hunused hused
    have hmet₁ := (hmet.frozen hf₁).skip hr₁.accepted.linked hi₁ hunused
    have hf₂ := hagain.frozen hr₁.accepted (hr₁.agree hagree) hlist₁ hd₁ (by simp)
    refine ih₂ (front ++ [i]) hr.accepted (hr.agree hagree)
      (by simpa using hr.order.trans hsplit) (hr.order ▸ hlist.tail) ?_ ?_ <;>
      rw [List.length_append, List.length_singleton]
    · exact hf₂.distinct hd₁
    · exact hmet₁.frozen hf₂

/-- What merging is to leave of a module: it has come to an end, the module passes its check with
the same instructions in the same places and with the same shapes, and no two instructions in use
compute the same. -/
structure Complete (m : Module) (changed : Bool) (m' : Module) : Prop where
  ends : Merges [] m.order m changed m'
  valid : m'.validate = .ok ()
  order : m'.order = m.order
  shapes : ∀ i n, m.get? i = some n → ∃ n', m'.get? i = some n' ∧ n'.shape = n.shape
  distinct : ∀ i j a b, m'.get? i = some a → m'.get? j = some b → a.users ≠ [] → b.users ≠ [] →
    equivalent a b → i = j

private theorem Distinct.eq_of_equivalent (h : Distinct m.order.length m) (hl : Linked m)
    (ha : m.get? i = some a) (hb : m.get? j = some b) (hua : a.users ≠ []) (hub : b.users ≠ [])
    (he : equivalent a b) : i = j := by
  have hi : i ∈ m.order := (hl.mem_order i).2 (by simp [ha])
  have hj : j ∈ m.order := (hl.mem_order j).2 (by simp [hb])
  rw [← usersOf_of_get? ha] at hua
  rw [← usersOf_of_get? hb] at hub
  rcases Nat.lt_trichotomy (m.order.idxOf i) (m.order.idxOf j) with hlt | heq | hlt
  · exact (h i j a.core b.core (core?_of_get? ha) (core?_of_get? hb) hlt
      (List.idxOf_lt_length_iff.2 hj) hua hub he).elim
  · exact (List.idxOf_inj hi).1 heq
  · exact (h j i b.core a.core (core?_of_get? hb) (core?_of_get? ha) hlt
      (List.idxOf_lt_length_iff.2 hi) hub hua (equivalent_symm he)).elim

end CommonSubexpression

open CommonSubexpression

/-- Merging common subexpressions ends well on every module that edits build and that passes its
check, when instructions with the same operator and sub-modules have taken over the same outputs;
and it leaves nothing to merge. -/
theorem commonSubexpression_complete (hb : Built m) (hv : m.validate = .ok ()) (hagree : Agree m) :
    ∃ changed, (commonSubexpression.run m).result = .ok changed ∧
      Complete m changed (commonSubexpression.run m).state := by
  have hm := hb.accepted hv
  have hlist := listed_order hm.linked.nodup
  refine Leaves.exists_ok ?_
  simp only [commonSubexpression, leaves_bind, leaves_get]
  refine (mergeDepth_merges _ m.order m hm hagree hlist fun i _ => ?_).imp fun c m' h => ?_
  · rw [Reachable, hm.linked.size]
    omega
  have hr := h.rerouted hm hagree hlist
  have hd := h.distinct [] hm hagree rfl hlist (by simp [Distinct]) ⟨by simp, by simp⟩
  refine ⟨h, hr.accepted.validate, hr.order, fun i n hn => ?_, fun i j a b ha hb hua hub he => ?_⟩
  · obtain ⟨inputs, hcore⟩ := hr.core i
    rw [core?_of_get? hn] at hcore
    obtain ⟨n', hn', hn⟩ := exists_get?_of_core? hcore
    have hs := congrArg Instruction.shape hn
    exact ⟨n', hn', hs.symm⟩
  · exact hd.eq_of_equivalent hr.accepted.linked ha hb hua hub he

/-- What two choices between the same sub-modules take over from them. -/
private def chosen : List (List Shape) := [[.packedOf .float [2]], [.packedOf .float [2]]]

/-- Two chains that become the same link by link, and two choices between the same sub-modules. -/
private def paired : Module :=
  Mutation.applyAll
    (Module.insertWithModules none .branch [⟨0⟩] [⟨1⟩, ⟨2⟩] chosen
      (Module.insertWithModules none .branch [⟨0⟩] [⟨1⟩, ⟨2⟩] chosen
        (Mutation.applyAll (Module.empty "main")
          [.addParameter "c" (.packedOf .bool [1]), .addParameter "x" (.packedOf .float [2]),
            .add (.unary .relu) [⟨1⟩], .add (.unary .relu) [⟨1⟩], .add (.unary .tanh) [⟨2⟩],
            .add (.unary .tanh) [⟨3⟩]])).state).state
    [.add (.getTupleElem 0) [⟨6⟩], .add (.getTupleElem 0) [⟨7⟩], .add (.binary .mul) [⟨4⟩, ⟨8⟩],
      .add (.binary .mul) [⟨5⟩, ⟨9⟩], .addOutput [⟨10⟩, ⟨11⟩]]

private theorem built_paired : Built paired :=
  ((((Built.empty "main").applyAll _).insert ..).insert ..).applyAll _

private theorem agree_paired : Agree paired := by
  have hall : ∀ i ∈ paired.order, ∀ n ∈ paired.get? i,
      n.moduleOutputs = if n.moduleArgs = [] then [] else chosen := by
    decide +kernel
  have houts : ∀ i n, paired.get? i = some n →
      n.moduleOutputs = if n.moduleArgs = [] then [] else chosen := fun i n hn =>
    hall i ((built_paired.linked.mem_order i).2 (by simp [hn])) n hn
  intro i j a b ha hb _ hargs
  rw [houts i a ha, houts j b hb, hargs]

/-- The links of the chains and the choices are there twice and in use, before they are merged. -/
theorem commonSubexpression_complete_paired :
    (∀ p ∈ [(2, 3), (6, 7)], ∃ a ∈ paired.get? ⟨p.1⟩, ∃ b ∈ paired.get? ⟨p.2⟩,
      a.users ≠ [] ∧ b.users ≠ [] ∧ equivalent a b) ∧
    Built paired ∧ paired.validate = .ok () ∧ Agree paired ∧
      ∃ changed, (commonSubexpression.run paired).result = .ok changed ∧
        Complete paired changed (commonSubexpression.run paired).state := by
  have hv : paired.validate = .ok () := by decide +kernel
  refine ⟨?_, built_paired, hv, agree_paired, ?_⟩
  · decide +kernel
  · exact commonSubexpression_complete built_paired hv agree_paired

end TensorGraph.Pass
