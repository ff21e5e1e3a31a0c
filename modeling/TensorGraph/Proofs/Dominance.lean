import Mathlib.Data.List.Induction
import TensorGraph.Dominance
import TensorGraph.Proofs.Module.Outputs

/-! The dominators that one pass finds are those that paths define. The dominators of an instruction
form a chain, so one of the strict ones is dominated by all others, and stepping from each instruction
to that one visits them all. -/
namespace TensorGraph.Dominance
variable {children : InstructionId → List InstructionId} {a b c i : InstructionId}
  {path order set shared candidates : List InstructionId} {sets : Sets} {d : Dominance}

/-- A path along children that ends where there are none. -/
inductive Descends (children : InstructionId → List InstructionId) :
    InstructionId → List InstructionId → Prop
  | leaf {b : InstructionId} (h : children b = []) : Descends children b [b]
  | step {b c : InstructionId} {path : List InstructionId} (h : c ∈ children b)
      (hp : Descends children c path) : Descends children b (b :: path)

/-- Every path from `b` passes through `a`. -/
def Dominator (children : InstructionId → List InstructionId) (a b : InstructionId) : Prop :=
  ∀ path, Descends children b path → a ∈ path

def StrictDominator (children : InstructionId → List InstructionId) (a b : InstructionId) : Prop :=
  a ≠ b ∧ Dominator children a b

private theorem Descends.head_mem (h : Descends children b path) : b ∈ path := by
  cases h <;> exact List.mem_cons_self

private theorem Descends.exists_suffix (h : Descends children b path) (ha : a ∈ path) :
    ∃ rest, Descends children a rest ∧ rest ⊆ path := by
  induction h with
  | leaf h =>
    obtain rfl := List.mem_singleton.1 ha
    exact ⟨_, .leaf h, List.Subset.refl _⟩
  | step h hp ih =>
    rcases List.mem_cons.1 ha with rfl | ha
    · exact ⟨_, .step h hp, List.Subset.refl _⟩
    · obtain ⟨rest, hr, hsub⟩ := ih ha
      exact ⟨rest, hr, List.subset_cons_of_subset _ hsub⟩

/-- A way that avoids an instruction, and ends where there are no children, is a path without it. -/
theorem exists_avoiding (h : Relation.ReflTransGen (fun a b => b ∈ children a ∧ b ≠ c) a b)
    (ha : a ≠ c) (hb : children b = []) : ∃ path, Descends children a path ∧ c ∉ path := by
  induction h using Relation.ReflTransGen.head_induction_on with
  | refl => exact ⟨[b], .leaf hb, by simpa using ha.symm⟩
  | head hstep _ ih =>
    obtain ⟨path, hp, hc⟩ := ih hstep.2
    exact ⟨_ :: path, .step hstep.1 hp, by simpa using ⟨ha.symm, hc⟩⟩

theorem Dominator.refl (b : InstructionId) : Dominator children b b :=
  fun _ hp => hp.head_mem

theorem Dominator.trans (hab : Dominator children a b) (hbc : Dominator children b c) :
    Dominator children a c := by
  intro path hp
  obtain ⟨rest, hr, hsub⟩ := hp.exists_suffix (hbc path hp)
  exact hsub (hab rest hr)

private theorem dominator_leaf_iff (h : children b = []) : Dominator children a b ↔ a = b := by
  constructor
  · intro hd
    exact List.mem_singleton.1 (hd _ (.leaf h))
  · rintro rfl
    exact .refl a

private theorem dominator_iff (h : children b ≠ []) :
    Dominator children a b ↔ a = b ∨ ∀ c ∈ children b, Dominator children a c := by
  constructor
  · intro hd
    by_cases hab : a = b
    · exact .inl hab
    · refine .inr fun c hc path hp => ?_
      exact (List.mem_cons.1 (hd _ (.step hc hp))).resolve_left hab
  · rintro (rfl | hd) path hp
    · exact hp.head_mem
    · cases hp with
      | leaf hb => exact absurd hb h
      | step hc hp => exact List.mem_cons_of_mem _ (hd _ hc _ hp)

/-- Each instruction is listed once, after its children. -/
inductive Listed (children : InstructionId → List InstructionId) : List InstructionId → Prop
  | nil : Listed children []
  | snoc {order : List InstructionId} {i : InstructionId} (h : Listed children order) (hi : i ∉ order)
      (hc : children i ⊆ order) : Listed children (order ++ [i])

private theorem Listed.children_subset (h : Listed children order) (hb : b ∈ order) :
    children b ⊆ order := by
  induction h with
  | nil => cases hb
  | snoc h hi hc ih =>
    rcases List.mem_append.1 hb with hb | hb
    · exact List.Subset.trans (ih hb) (List.subset_append_left _ _)
    · obtain rfl := List.mem_singleton.1 hb
      exact List.Subset.trans hc (List.subset_append_left _ _)

private theorem Listed.path_subset (h : Listed children order) (hb : b ∈ order)
    (hp : Descends children b path) : path ⊆ order := by
  induction hp with
  | leaf _ => exact List.cons_subset.2 ⟨hb, List.nil_subset _⟩
  | step hc _ ih => exact List.cons_subset.2 ⟨hb, ih (h.children_subset hb hc)⟩

private theorem Listed.exists_path (h : Listed children order) (hb : b ∈ order) :
    ∃ path, Descends children b path := by
  induction h generalizing b with
  | nil => cases hb
  | snoc h hi hc ih =>
    rcases List.mem_append.1 hb with hb | hb
    · exact ih hb
    · obtain rfl := List.mem_singleton.1 hb
      cases hs : children b with
      | nil => exact ⟨_, .leaf hs⟩
      | cons c rest =>
        have hcb : c ∈ children b := hs ▸ List.mem_cons_self
        obtain ⟨path, hp⟩ := ih (hc hcb)
        exact ⟨_, .step hcb hp⟩

private theorem Listed.mem_of_dominator (h : Listed children order) (hb : b ∈ order)
    (hd : Dominator children a b) : a ∈ order := by
  obtain ⟨path, hp⟩ := h.exists_path hb
  exact h.path_subset hb hp (hd path hp)

/-- What comes later does not dominate what came before. -/
theorem Listed.eq_of_dominators (h : Listed children order) (ha : a ∈ order) (hb : b ∈ order)
    (hab : Dominator children a b) (hba : Dominator children b a) : a = b := by
  induction h with
  | nil => cases ha
  | snoc h hi hc ih =>
    rcases List.mem_append.1 ha with ha' | ha' <;> rcases List.mem_append.1 hb with hb' | hb'
    · exact ih ha' hb'
    · rw [List.mem_singleton.1 hb'] at hba
      exact absurd (h.mem_of_dominator ha' hba) hi
    · rw [List.mem_singleton.1 ha'] at hab
      exact absurd (h.mem_of_dominator hb' hab) hi
    · rw [List.mem_singleton.1 ha', List.mem_singleton.1 hb']

/-- Two dominators of one instruction both dominate any child of it, unless one is the instruction
itself; so they are comparable. -/
theorem Listed.comparable (h : Listed children order) (hb : b ∈ order)
    (ha : Dominator children a b) (hc : Dominator children c b) :
    Dominator children a c ∨ Dominator children c a := by
  induction h generalizing b with
  | nil => cases hb
  | @snoc order i h hi hsub ih =>
    rcases List.mem_append.1 hb with hb | hb
    · exact ih hb ha hc
    · obtain rfl := List.mem_singleton.1 hb
      cases hs : children b with
      | nil =>
        rw [dominator_leaf_iff hs] at ha hc
        rw [ha, hc]
        exact .inl (.refl b)
      | cons x rest =>
        have hx : x ∈ children b := hs ▸ List.mem_cons_self
        have hne : children b ≠ [] := List.ne_nil_of_mem hx
        rcases (dominator_iff hne).1 ha with rfl | ha'
        · exact .inr hc
        · rcases (dominator_iff hne).1 hc with rfl | hc'
          · exact .inl ha
          · exact ih (hsub hx) (ha' x hx) (hc' x hx)

/-- The strict dominators of an instruction are what dominates all its children. -/
theorem Listed.strictDominator_iff (h : Listed children order) (hi : i ∉ order)
    (hsub : children i ⊆ order) :
    StrictDominator children a i ↔ children i ≠ [] ∧ ∀ c ∈ children i, Dominator children a c := by
  constructor
  · intro hd
    have hne : children i ≠ [] := fun hs => hd.1 ((dominator_leaf_iff hs).1 hd.2)
    exact ⟨hne, ((dominator_iff hne).1 hd.2).resolve_left hd.1⟩
  · intro hd
    refine ⟨?_, (dominator_iff hd.1).2 (.inr hd.2)⟩
    rintro rfl
    obtain ⟨c, hc⟩ := List.exists_mem_of_ne_nil _ hd.1
    exact hi (h.mem_of_dominator (hsub hc) (hd.2 c hc))

/-- The set for an instruction is known, and holds its dominators. -/
def Knows (children : InstructionId → List InstructionId) (sets : Sets) (b : InstructionId) : Prop :=
  ∃ set, sets.lookup b = some set ∧ ∀ a, a ∈ set ↔ Dominator children a b

private theorem Knows.mem_getD (h : Knows children sets b) :
    a ∈ (sets.lookup b).getD [] ↔ Dominator children a b := by
  obtain ⟨set, hset, hmem⟩ := h
  rw [hset, Option.getD_some, hmem]

private theorem mem_insertByIndex : a ∈ insertByIndex i set ↔ a = i ∨ a ∈ set := by
  induction set with
  | nil => simp [insertByIndex]
  | cons j rest ih =>
    rw [insertByIndex]
    split
    · simp
    · split
      · rename_i hij
        simp [hij]
      · simp only [List.mem_cons, ih]
        exact or_left_comm

/-- What the sets of all children share. -/
theorem mem_common {first : InstructionId} {others : List InstructionId}
    (h : ∀ c ∈ first :: others, Knows children sets c) :
    a ∈ common sets first others ↔ ∀ c ∈ first :: others, Dominator children a c := by
  obtain ⟨hfirst, hothers⟩ := List.forall_mem_cons.1 h
  rw [List.forall_mem_cons, ← hfirst.mem_getD, common]
  clear h hfirst
  generalize (sets.lookup first).getD [] = shared
  induction others generalizing shared with
  | nil => simp
  | cons x rest ih =>
    obtain ⟨⟨set, hset, hmem⟩, hrest⟩ := List.forall_mem_cons.1 hothers
    rw [List.foldl_cons, ih hrest, hset]
    simp [hmem, and_assoc]

/-- Of comparable instructions, one is dominated by all. -/
theorem exists_dominated (hne : candidates ≠ [])
    (hcomp : ∀ x ∈ candidates, ∀ y ∈ candidates, Dominator children x y ∨ Dominator children y x) :
    ∃ c ∈ candidates, ∀ x ∈ candidates, Dominator children x c := by
  induction candidates with
  | nil => exact absurd rfl hne
  | cons x rest ih =>
    by_cases hr : rest = []
    · subst hr
      exact ⟨x, List.mem_cons_self, by simpa using Dominator.refl x⟩
    · obtain ⟨c, hc, hdom⟩ := ih hr fun y hy z hz =>
        hcomp y (List.mem_cons_of_mem _ hy) z (List.mem_cons_of_mem _ hz)
      rcases hcomp x List.mem_cons_self c (List.mem_cons_of_mem _ hc) with hxc | hcx
      · exact ⟨c, List.mem_cons_of_mem _ hc, List.forall_mem_cons.2 ⟨hxc, hdom⟩⟩
      · refine ⟨x, List.mem_cons_self, List.forall_mem_cons.2 ⟨.refl x, fun y hy => ?_⟩⟩
        exact (hdom y hy).trans hcx

/-- The nearest strict dominator, if there are any. -/
def Nearest (children : InstructionId → List InstructionId) (b : InstructionId) :
    Option InstructionId → Prop
  | some d => StrictDominator children d b ∧
      ∀ a, StrictDominator children a b → Dominator children a d
  | none => ∀ a, ¬ StrictDominator children a b

private theorem Listed.eq_of_nearest (h : Listed children order) (hb : b ∈ order)
    (ha : Nearest children b (some a)) (hc : Nearest children b (some c)) : a = c :=
  h.eq_of_dominators (h.mem_of_dominator hb ha.1.2) (h.mem_of_dominator hb hc.1.2) (hc.2 a ha.1)
    (ha.2 c hc.1)

private theorem nearest_closest? (h : Listed children order) (hk : ∀ x ∈ order, Knows children sets x)
    (hmem : ∀ a, a ∈ candidates ↔ StrictDominator children a i)
    (hsub : candidates ⊆ order)
    (hcomp : ∀ x ∈ candidates, ∀ y ∈ candidates, Dominator children x y ∨ Dominator children y x) :
    Nearest children i (closest? sets candidates) := by
  have htest : ∀ c x, x ∈ candidates →
      ((x == c || !((sets.lookup x).getD []).contains c) = true ↔
        (Dominator children c x → x = c)) := by
    intro c x hx
    rw [Bool.or_eq_true, beq_iff_eq, Bool.not_eq_true', List.contains_eq_mem, decide_eq_false_iff_not,
      (hk x (hsub hx)).mem_getD]
    exact ⟨fun hor hd => hor.resolve_right (not_not_intro hd), fun himp => or_iff_not_imp_right.2
      fun hnd => himp (not_not.1 hnd)⟩
  cases hf : closest? sets candidates with
  | some c =>
    have hc : c ∈ candidates := List.mem_of_find?_eq_some hf
    have hall := List.find?_some (l := candidates) hf
    rw [List.all_eq_true] at hall
    refine ⟨(hmem c).1 hc, fun a ha => ?_⟩
    have ha' := (hmem a).2 ha
    rcases hcomp a ha' c hc with hac | hca
    · exact hac
    · rw [(htest c a ha').1 (hall a ha') hca]
      exact .refl c
  | none =>
    intro a ha
    obtain ⟨c, hc, hdom⟩ := exists_dominated (List.ne_nil_of_mem ((hmem a).2 ha)) hcomp
    refine List.find?_eq_none.1 hf c hc (List.all_eq_true.2 fun x hx => (htest c x hx).2 fun hcx => ?_)
    exact h.eq_of_dominators (hsub hx) (hsub hc) (hdom x hx) hcx

private theorem dominatorsOf_spec (h : Listed children order)
    (hk : ∀ x ∈ order, Knows children sets x) (hi : i ∉ order) (hsub : children i ⊆ order) :
    (∀ a, a ∈ (dominatorsOf sets (children i)).1 ↔ StrictDominator children a i) ∧
      Nearest children i (dominatorsOf sets (children i)).2 := by
  have hstrict := fun a => h.strictDominator_iff (a := a) hi hsub
  have hkc : ∀ c ∈ children i, Knows children sets c := fun c hc => hk c (hsub hc)
  revert hstrict hkc
  generalize hcs : children i = cs
  intro hstrict hkc
  cases cs with
  | nil => simp_all [dominatorsOf, Nearest]
  | cons first others =>
    cases others with
    | nil =>
      have hone : ∀ a, StrictDominator children a i ↔ Dominator children a first := by
        simpa using hstrict
      refine ⟨fun a => ?_, (hone first).2 (.refl first), fun a ha => (hone a).1 ha⟩
      rw [hone]
      exact (hkc first List.mem_cons_self).mem_getD
    | cons second others =>
      have hmem : ∀ a, a ∈ common sets first (second :: others) ↔ StrictDominator children a i := by
        intro a
        rw [hstrict, mem_common hkc]
        exact (and_iff_right (List.cons_ne_nil _ _)).symm
      have hfirst : ∀ a ∈ common sets first (second :: others), Dominator children a first :=
        fun a ha => (mem_common hkc).1 ha first List.mem_cons_self
      have hord : first ∈ order := hsub (hcs ▸ List.mem_cons_self)
      refine ⟨hmem, nearest_closest? h hk hmem (fun a ha => ?_) fun x hx y hy => ?_⟩
      · exact h.mem_of_dominator hord (hfirst a ha)
      · exact h.comparable hord (hfirst x hx) (hfirst y hy)

/-- What holds after the instructions of `order`: the sets and the nearest dominators are as paths
define them, and the latter are stored once each. -/
structure Settled (children : InstructionId → List InstructionId) (order : List InstructionId)
    (sets : Sets) (d : Dominance) : Prop where
  knows : ∀ b ∈ order, Knows children sets b
  nearest : ∀ b ∈ order, Nearest children b (d.immediate? b)
  unknown : ∀ b, b ∉ order → d.immediate? b = none
  length : (order.filter fun b => (d.immediate? b).isSome).length = d.immediate.length

private theorem immediate?_append (hd : d.immediate? i = none) (x : Option InstructionId) :
    (Dominance.mk ((x.toList.map fun j => (i, j)) ++ d.immediate)).immediate? b =
      if b = i then x else d.immediate? b := by
  cases x with
  | none =>
    split
    · rename_i hb
      rw [hb]
      exact hd
    · rfl
  | some j =>
    change ((i, j) :: d.immediate).lookup b = _
    rw [List.lookup_cons]
    by_cases hb : b = i
    · simp [hb]
    · rw [if_neg hb, beq_false_of_ne hb]
      rfl

theorem Knows.cons (h : Knows children sets b) (hb : b ≠ i) : Knows children ((i, set) :: sets) b := by
  obtain ⟨known, hset, hmem⟩ := h
  refine ⟨known, ?_, hmem⟩
  rw [List.lookup_cons, beq_false_of_ne hb]
  exact hset

private theorem knows_insertByIndex (h : ∀ a, a ∈ set ↔ StrictDominator children a i) :
    Knows children ((i, insertByIndex i set) :: sets) i := by
  refine ⟨_, by rw [List.lookup_cons, beq_self_eq_true], fun a => ?_⟩
  rw [mem_insertByIndex, h]
  by_cases ha : a = i
  · simp [ha, Dominator.refl]
  · simp [ha, StrictDominator]

theorem Settled.step (h : Listed children order) (hs : Settled children order sets d) (hi : i ∉ order)
    (hc : children i ⊆ order) :
    Settled children (order ++ [i]) (step children (sets, d) i).1 (step children (sets, d) i).2 := by
  obtain ⟨hstrict, hnear⟩ := dominatorsOf_spec h hs.knows hi hc
  have himm : ∀ b, (Dominance.step children (sets, d) i).2.immediate? b =
      if b = i then (dominatorsOf sets (children i)).2 else d.immediate? b :=
    fun b => immediate?_append (hs.unknown i hi) _
  have hold : ∀ b ∈ order, b ≠ i := fun b hb hbi => hi (hbi ▸ hb)
  constructor
  · intro b hb
    rcases List.mem_append.1 hb with hb | hb
    · exact (hs.knows b hb).cons (hold b hb)
    · obtain rfl := List.mem_singleton.1 hb
      exact knows_insertByIndex hstrict
  · intro b hb
    rw [himm]
    rcases List.mem_append.1 hb with hb | hb
    · rw [if_neg (hold b hb)]
      exact hs.nearest b hb
    · obtain rfl := List.mem_singleton.1 hb
      rwa [if_pos rfl]
  · intro b hb
    rw [List.mem_append, not_or, List.mem_singleton] at hb
    rw [himm, if_neg hb.2]
    exact hs.unknown b hb.1
  · have hfilter : (order.filter fun b =>
        ((Dominance.step children (sets, d) i).2.immediate? b).isSome) =
        order.filter fun b => (d.immediate? b).isSome :=
      List.filter_congr fun b hb => by rw [himm, if_neg (hold b hb)]
    rw [List.filter_append, List.length_append, hfilter, hs.length, List.filter_singleton, himm,
      if_pos rfl, Nat.add_comm]
    cases hx : (dominatorsOf sets (children i)).2 with
    | none => simp [Dominance.step, hx]
    | some j => simp [Dominance.step, hx, Nat.add_comm]

/-- What one instruction adds, added up over the order. -/
theorem settled_foldl (h : Listed children order) :
    Settled children order (order.foldl (Dominance.step children) ([], ⟨[]⟩)).1
      (along children order) := by
  rw [along]
  induction h with
  | nil => constructor <;> simp [immediate?]
  | snoc h hi hc ih =>
    rw [List.foldl_append]
    exact ih.step h hi hc

/-- The strict dominators of an instruction are the nearest one and the strict dominators of that. -/
theorem Listed.strictDominator_nearest (h : Listed children order) (hb : b ∈ order)
    (hn : Nearest children b (some c)) :
    StrictDominator children a b ↔ a = c ∨ StrictDominator children a c := by
  constructor
  · intro ha
    by_cases hac : a = c
    · exact .inl hac
    · exact .inr ⟨hac, hn.2 a ha⟩
  · rintro (rfl | ha)
    · exact hn.1
    · refine ⟨?_, ha.2.trans hn.1.2⟩
      rintro rfl
      exact ha.1 (h.eq_of_dominators hb (h.mem_of_dominator hb hn.1.2) ha.2 hn.1.2)

private theorem chain_of_none (h : d.immediate? b = none) (steps : Nat) : d.chain steps b = [] := by
  cases steps <;> simp [chain, h]

/-- A chain of nearest dominators visits the strict dominators. It has ended once it has taken as many
steps as there are instructions with a nearest dominator. -/
theorem Listed.mem_chain (h : Listed children order)
    (hn : ∀ b ∈ order, Nearest children b (d.immediate? b)) (hb : b ∈ order) {steps : Nat}
    (hsteps : (order.filter fun b => (d.immediate? b).isSome).length ≤ steps) :
    (∀ a, a ∈ d.chain steps b ↔ StrictDominator children a b) ∧
      d.chain (steps + 1) b = d.chain steps b := by
  induction h generalizing b steps with
  | nil => cases hb
  | @snoc order i h hi hc ih =>
    rw [List.filter_append, List.length_append, List.filter_singleton] at hsteps
    have ih := fun {b} => ih (b := b) fun b hb => hn b (List.mem_append_left _ hb)
    rcases List.mem_append.1 hb with hb | hb
    · exact ih hb (by omega)
    · obtain rfl := List.mem_singleton.1 hb
      have hnear := hn b (by simp)
      cases hx : d.immediate? b with
      | none =>
        rw [hx] at hnear
        refine ⟨fun a => ?_, by rw [chain_of_none hx, chain_of_none hx]⟩
        rw [chain_of_none hx]
        exact iff_of_false List.not_mem_nil (hnear a)
      | some c =>
        rw [hx] at hnear hsteps
        simp only [Option.isSome_some, cond_true, List.length_singleton] at hsteps
        obtain ⟨n, rfl⟩ : ∃ n, steps = n + 1 := ⟨steps - 1, by omega⟩
        have hlisted := h.snoc hi hc
        have hcm : c ∈ order := by
          rcases List.mem_append.1 (hlisted.mem_of_dominator (by simp) hnear.1.2) with hc | hc
          · exact hc
          · exact absurd (List.mem_singleton.1 hc) hnear.1.1
        obtain ⟨hmem, hend⟩ := ih hcm (Nat.le_of_add_le_add_right hsteps)
        have hcons : ∀ n, d.chain (n + 1) b = c :: d.chain n c := by
          intro n
          rw [chain, hx]
        rw [hcons, hcons, hend]
        refine ⟨fun a => ?_, rfl⟩
        rw [List.mem_cons, hmem, hlisted.strictDominator_nearest (by simp) hnear]

/-- An analysis finds what paths along `children` define. Its chains end by themselves. -/
structure Exact (children : InstructionId → List InstructionId) (d : Dominance) : Prop where
  strictlyDominates_iff : ∀ a b, d.strictlyDominates a b ↔
    a ≠ b ∧ ∀ path, Descends children b path → a ∈ path
  immediate?_eq_some_iff : ∀ b c, d.immediate? b = some c ↔
    d.strictlyDominates c b ∧ ∀ a, d.strictlyDominates a b → a ≠ c → d.strictlyDominates a c
  immediate?_eq_none_iff : ∀ b, d.immediate? b = none ↔ ∀ a, d.strictlyDominates a b = false
  chain_eq : ∀ b steps, d.immediate.length ≤ steps → d.chain steps b = d.strictDominators b

private theorem listed_of_pairwise (hnodup : order.Nodup)
    (hpair : order.Pairwise fun a b => b ∉ children a)
    (hirrefl : ∀ i, i ∉ children i) (hclosed : ∀ i ∈ order, children i ⊆ order) :
    Listed children order := by
  have hpre : ∀ pre rest, order = pre ++ rest → Listed children pre := by
    intro pre
    induction pre using List.reverseRecOn with
    | nil => exact fun _ _ => .nil
    | append_singleton pre i ih =>
      intro rest horder
      rw [List.append_assoc, List.singleton_append] at horder
      refine (ih _ horder).snoc ?_ fun c hc => ?_
      · intro hi
        rw [horder, List.nodup_append] at hnodup
        exact hnodup.2.2 i hi i List.mem_cons_self rfl
      · have hcm : c ∈ pre ++ i :: rest := horder ▸ hclosed i (by rw [horder]; simp) hc
        rw [horder, List.pairwise_append, List.pairwise_cons] at hpair
        rcases List.mem_append.1 hcm with hcm | hcm
        · exact hcm
        · rcases List.mem_cons.1 hcm with rfl | hcm
          · exact absurd hc (hirrefl c)
          · exact absurd hc (hpair.2.1.1 c hcm)
  exact hpre order [] (List.append_nil _).symm

private theorem exact_along (h : Listed children order) (hout : ∀ b, b ∉ order → children b = []) :
    Exact children (along children order) := by
  have hs := settled_foldl h
  have hnear : ∀ b, Nearest children b ((along children order).immediate? b) := by
    intro b
    by_cases hb : b ∈ order
    · exact hs.nearest b hb
    · rw [hs.unknown b hb]
      exact fun a ha => ha.1 ((dominator_leaf_iff (hout b hb)).1 ha.2)
  have hchain : ∀ b steps, (along children order).immediate.length ≤ steps →
      (∀ a, a ∈ (along children order).chain steps b ↔ StrictDominator children a b) ∧
        (along children order).chain (steps + 1) b = (along children order).chain steps b := by
    intro b steps hsteps
    by_cases hb : b ∈ order
    · exact h.mem_chain hs.nearest hb (hs.length.symm ▸ hsteps)
    · have hnone := hnear b
      have hx := hs.unknown b hb
      rw [hx] at hnone
      refine ⟨fun a => ?_, by rw [chain_of_none hx, chain_of_none hx]⟩
      rw [chain_of_none hx]
      exact iff_of_false List.not_mem_nil (hnone a)
  have hstrict : ∀ a b, (along children order).strictlyDominates a b ↔
      StrictDominator children a b := by
    intro a b
    rw [strictlyDominates, decide_eq_true_iff]
    exact (hchain b _ (Nat.le_refl _)).1 a
  refine ⟨hstrict, fun b c => ?_, fun b => ?_, fun b steps hsteps => ?_⟩
  · simp only [hstrict]
    have hn := hnear b
    constructor
    · intro hx
      rw [hx] at hn
      exact ⟨hn.1, fun a ha hac => ⟨hac, hn.2 a ha⟩⟩
    · intro hc
      have hnc : Nearest children b (some c) := by
        refine ⟨hc.1, fun a ha => ?_⟩
        by_cases hac : a = c
        · exact hac ▸ .refl a
        · exact (hc.2 a ha hac).2
      cases hx : (along children order).immediate? b with
      | none =>
        rw [hx] at hn
        exact absurd hc.1 (hn c)
      | some x =>
        have hb : b ∈ order := by
          by_contra hb
          exact Option.some_ne_none x (hx.symm.trans (hs.unknown b hb))
        rw [hx] at hn
        rw [h.eq_of_nearest hb hn hnc]
  · simp only [← Bool.not_eq_true, hstrict]
    have hn := hnear b
    constructor
    · intro hx
      rwa [hx] at hn
    · intro hnone
      cases hx : (along children order).immediate? b with
      | none => rfl
      | some x =>
        rw [hx] at hn
        exact absurd hn.1 (hnone x)
  · induction hsteps with
    | refl => rfl
    | step hle ih => rw [(hchain b _ hle).2, ih]

section
variable {m : Module} (hnodup : m.order.Nodup) (hmem : ∀ i, i ∈ m.order ↔ m.contains i)
  (husers : ∀ i j, j ∈ m.usersOf i ↔ i ∈ m.inputsOf j) (ho : m.Ordered)
include hmem

private theorem isolated_of_notMem (hb : b ∉ m.order) : m.inputsOf b = [] ∧ m.usersOf b = [] := by
  have hnone : m.get? b = none := by
    rw [hmem] at hb
    exact Option.not_isSome_iff_eq_none.1 hb
  simp [Module.inputsOf, Module.usersOf, hnone]

include husers

private theorem mem_order_of_input (hab : a ∈ m.inputsOf b) : a ∈ m.order ∧ b ∈ m.order := by
  constructor <;> by_contra hout
  · have hu := (husers a b).2 hab
    rw [(isolated_of_notMem hmem hout).2] at hu
    cases hu
  · rw [(isolated_of_notMem hmem hout).1] at hab
    cases hab

include hnodup ho

/-- The analysis along inputs is exact. -/
theorem exact_ofModule : Exact m.inputsOf (ofModule m) := by
  refine exact_along (listed_of_pairwise hnodup ho.pairwise ho.irrefl ?_) fun b hb => ?_
  · exact fun j _ i hij => (mem_order_of_input hmem husers hij).1
  · exact (isolated_of_notMem hmem hb).1

/-- The analysis along users is exact. -/
theorem exact_postOfModule : Exact m.usersOf (postOfModule m) := by
  refine exact_along (listed_of_pairwise ((List.reverse_perm _).nodup_iff.2 hnodup) ?_ ?_ ?_)
    fun b hb => ?_
  · rw [List.pairwise_reverse]
    exact ho.pairwise.imp fun hab hu => hab ((husers _ _).1 hu)
  · exact fun i hi => ho.irrefl i ((husers i i).1 hi)
  · exact fun i _ j hj => List.mem_reverse.2 (mem_order_of_input hmem husers ((husers i j).1 hj)).2
  · exact (isolated_of_notMem hmem fun hb' => hb (List.mem_reverse.2 hb')).2

end

/-- In a module whose order lists each instruction once and after its inputs, both analyses are exact:
the one along inputs, and the one along users. -/
theorem analyses_exact {m : Module} (hnodup : m.order.Nodup) (hmem : ∀ i, i ∈ m.order ↔ m.contains i)
    (husers : ∀ i j, j ∈ m.usersOf i ↔ i ∈ m.inputsOf j) (ho : m.Ordered) :
    Exact m.inputsOf (ofModule m) ∧ Exact m.usersOf (postOfModule m) :=
  ⟨exact_ofModule hnodup hmem husers ho, exact_postOfModule hnodup hmem husers ho⟩

theorem analyses_exact_diamond :
    let edits : List Module.Mutation :=
      [.addParameter "x" (.packedOf .float [2]), .add (.unary .neg) [⟨0⟩], .add (.unary .exp) [⟨1⟩],
        .add (.unary .tanh) [⟨1⟩], .add (.binary .add) [⟨2⟩, ⟨3⟩], .add (.binary .mul) [⟨4⟩, ⟨4⟩]]
    let m := Module.Mutation.applyAll (Module.empty "main") edits
    Exact m.inputsOf (ofModule m) ∧ Exact m.usersOf (postOfModule m) ∧
      (∀ path, Descends m.inputsOf ⟨5⟩ path → ⟨1⟩ ∈ path) ∧
        ∀ path, Descends m.usersOf ⟨1⟩ path → ⟨4⟩ ∈ path := by
  intro edits m
  have hspare : Module.Mutation.AllSpare (Module.empty "main") edits :=
    ⟨rfl, nofun, rfl, nofun, rfl, nofun, rfl, nofun, rfl, nofun, rfl, nofun, trivial⟩
  obtain ⟨hl, ho, -⟩ := Module.Mutation.outputLast_applyAll_from (Module.linked_empty _)
    (Module.ordered_empty _) (Module.outputLast_empty _) hspare
  obtain ⟨hin, hout⟩ := analyses_exact hl.nodup hl.mem_order hl.mem_users ho
  refine ⟨hin, hout, ?_, ?_⟩
  · exact ((hin.strictlyDominates_iff ⟨1⟩ ⟨5⟩).1 (by decide +kernel)).2
  · exact ((hout.strictlyDominates_iff ⟨4⟩ ⟨1⟩).1 (by decide +kernel)).2

end TensorGraph.Dominance
