import Mathlib.Data.List.Basic
import TensorGraph.Proofs.Module.Changes
import TensorGraph.Proofs.Reach

/-! Well-linked modules and topological orders. The main result says when instructions that were
moved behind a new input leave the order topological. -/
namespace TensorGraph.Module
open Relation

/-- The storage, the order and the two ways to read the edges agree. Nothing is said about where
the instructions stand. -/
structure Linked (m : Module) : Prop where
  nodup : m.order.Nodup
  mem_order : ∀ i, i ∈ m.order ↔ (m.get? i).isSome
  size : m.instructions.size = m.order.length
  users_nodup : ∀ i, (m.usersOf i).Nodup
  mem_users : ∀ i j, j ∈ m.usersOf i ↔ i ∈ m.inputsOf j

/-- Every instruction stands after its inputs. -/
structure Ordered (m : Module) : Prop where
  pairwise : m.order.Pairwise fun a b => b ∉ m.inputsOf a
  irrefl : ∀ i, i ∉ m.inputsOf i

/-- One instruction is another one or contributes to it. -/
def Depends (m : Module) (i target : InstructionId) : Prop :=
  ReflTransGen (fun a b => b ∈ m.inputsOf a) i target

variable {m : Module}

theorem live_of_mem_inputsOf {i j : InstructionId} (h : i ∈ m.inputsOf j) : (m.get? j).isSome := by
  cases hg : m.get? j with
  | none => simp [inputsOf, hg] at h
  | some n => rfl

private theorem live_of_mem_usersOf {i j : InstructionId} (h : j ∈ m.usersOf i) :
    (m.get? i).isSome := by
  cases hg : m.get? i with
  | none => simp [usersOf, hg] at h
  | some n => rfl

theorem Linked.live_input (hl : Linked m) {i j : InstructionId} (h : i ∈ m.inputsOf j) :
    (m.get? i).isSome :=
  live_of_mem_usersOf ((hl.mem_users i j).2 h)

theorem Linked.input_mem_order (hl : Linked m) {i j : InstructionId} (h : i ∈ m.inputsOf j) :
    i ∈ m.order :=
  (hl.mem_order i).2 (hl.live_input h)

theorem Linked.user_mem_order (hl : Linked m) {i j : InstructionId} (h : i ∈ m.inputsOf j) :
    j ∈ m.order :=
  (hl.mem_order j).2 (live_of_mem_inputsOf h)

/-- The walk that looks for cycles finds exactly what contributes. -/
theorem dependsOn_iff {i target : InstructionId} : m.dependsOn i target ↔ m.Depends i target := by
  have hf : ∀ a, m.inputsOf a ≠ [] → a ∈ m.ids := fun a ha => by
    obtain ⟨b, hb⟩ := List.exists_mem_of_ne_nil _ ha
    exact mem_ids.2 (live_of_mem_inputsOf hb)
  simp [dependsOn, Reach.mem_visit_iff hf, Depends]

theorem dependsOn_eq_getD (steps : Nat) (m : Module) (i target : InstructionId) :
    m.dependsOn i target = decide (target ∈ (Reach.visitWithin m.inputsOf steps m.ids [i]).getD
      (Reach.visit m.inputsOf m.ids [i])) := by
  rw [dependsOn, ← Reach.visit_eq_getD]

/-- Changing the inputs of some instructions makes nothing depend on them that did not before. -/
theorem exists_depends_of_inputs_eq {m' : Module} {s : List InstructionId}
    (h : ∀ a, a ∉ s → m'.inputsOf a = m.inputsOf a) {i t : InstructionId} (ht : t ∈ s)
    (hd : m'.Depends i t) : ∃ r ∈ s, m.Depends i r :=
  Reach.exists_path_of_edges_eq h ht hd

theorem idxOf?_append_cons {l r : List InstructionId} {c : InstructionId} (h : c ∉ l) :
    (l ++ c :: r).idxOf? c = some l.length := by
  rw [List.idxOf?_eq_some_iff]
  refine ⟨by simp, by simp, fun j hj he => h ?_⟩
  rw [List.getElem_append_left hj] at he
  exact he ▸ List.getElem_mem hj

theorem position?_of_mem {i : InstructionId} (h : i ∈ m.order) :
    m.position? i = some (m.order.idxOf i) := by
  have hi := List.idxOf_eq_getD_idxOf? i m.order
  cases hp : m.order.idxOf? i with
  | none => exact absurd h (List.idxOf?_eq_none_iff.1 hp)
  | some p => rw [position?, hp, hi, hp, Option.getD_some]

private theorem position?_eq_none_iff {i : InstructionId} : m.position? i = none ↔ i ∉ m.order :=
  List.idxOf?_eq_none_iff

theorem mem_order_of_position? {i : InstructionId} {p : Nat} (h : m.position? i = some p) :
    i ∈ m.order := by
  by_contra hi
  rw [position?_eq_none_iff.2 hi] at h
  cases h

theorem position?_lt {i : InstructionId} {p : Nat} (h : m.position? i = some p) :
    p < m.order.length :=
  (List.idxOf?_eq_some_iff.1 h).1

theorem mem_take_of_position? {i : InstructionId} {p q : Nat} (h : m.position? i = some q)
    (hq : q < p) : i ∈ m.order.take p := by
  obtain ⟨hlt, rfl, -⟩ := List.idxOf?_eq_some_iff.1 h
  exact List.mem_take_iff_getElem.2 ⟨q, by omega, rfl⟩

theorem standsAfter_iff {i j : InstructionId} (hi : i ∈ m.order) (hj : j ∈ m.order) :
    m.standsAfter i j ↔ m.order.idxOf j < m.order.idxOf i := by
  simp [standsAfter, position?_of_mem hi, position?_of_mem hj]

theorem mem_order_of_standsAfter {i j : InstructionId} (h : m.standsAfter i j) : i ∈ m.order := by
  cases hp : m.position? i with
  | none => simp [standsAfter, hp] at h
  | some p => exact mem_order_of_position? hp

private theorem latest?_foldl {is : List InstructionId} {best : InstructionId}
    (hb : best ∈ m.order) (h : ∀ i ∈ is, i ∈ m.order) :
    ∃ a, is.foldl (fun best i => match best with
        | none => some i
        | some b => if m.standsAfter b i then some b else some i) (some best) = some a ∧
      a ∈ best :: is ∧ ∀ i ∈ best :: is, m.order.idxOf i ≤ m.order.idxOf a := by
  induction is generalizing best with
  | nil => exact ⟨best, rfl, by simp, by simp⟩
  | cons i is ih =>
    have hi : i ∈ m.order := h i (by simp)
    have hs : ∀ i ∈ is, i ∈ m.order := fun j hj => h j (by simp [hj])
    simp only [List.foldl_cons]
    by_cases hlt : m.standsAfter best i
    · obtain ⟨a, he, ha, hm⟩ := ih hb hs
      rw [if_pos hlt]
      rw [standsAfter_iff hb hi] at hlt
      have := hm best (by simp)
      refine ⟨a, he, by grind, ?_⟩
      simp only [List.mem_cons, forall_eq_or_imp] at hm ⊢
      exact ⟨hm.1, by omega, hm.2⟩
    · obtain ⟨a, he, ha, hm⟩ := ih hi hs
      rw [if_neg hlt]
      rw [standsAfter_iff hb hi] at hlt
      have := hm i (by simp)
      refine ⟨a, he, by grind, ?_⟩
      simp only [List.mem_cons, forall_eq_or_imp] at hm ⊢
      exact ⟨by omega, hm.1, hm.2⟩

/-- The latest of some instructions is one of them, and none of them stands after it. -/
theorem latest?_spec {is : List InstructionId} (h : ∀ i ∈ is, i ∈ m.order) (hne : is ≠ []) :
    ∃ a ∈ is, m.latest? is = some a ∧ ∀ i ∈ is, m.order.idxOf i ≤ m.order.idxOf a := by
  cases is with
  | nil => exact absurd rfl hne
  | cons i is =>
    have hs : ∀ j ∈ is, j ∈ m.order := fun j hj => h j (by simp [hj])
    obtain ⟨a, he, ha, hm⟩ := latest?_foldl (h i (by simp)) hs
    exact ⟨a, ha, he, hm⟩

theorem pairwise_idxOf_lt {l : List InstructionId} (h : l.Nodup) :
    l.Pairwise fun i j => l.idxOf i < l.idxOf j := by
  rw [List.pairwise_iff_getElem]
  intro p q hp hq hpq
  rwa [h.idxOf_getElem, h.idxOf_getElem]

theorem idxOf_lt_of_split {a b : List InstructionId} {c i : InstructionId}
    (h : m.order = a ++ c :: b) (hn : m.order.Nodup) :
    m.order.idxOf i < m.order.idxOf c ↔ i ∈ a := by
  rw [h] at hn ⊢
  have hc : c ∉ a := fun hc => (List.nodup_append.1 hn).2.2 c hc c (by simp) rfl
  rw [List.idxOf_append, List.idxOf_append, if_neg hc]
  by_cases hia : i ∈ a
  · simpa [hia] using List.idxOf_lt_length_iff.2 hia
  · simp [hia]

theorem last?_eq_some_iff_of_split {a b : List InstructionId} {i : InstructionId}
    (hn : m.order.Nodup) (h : m.order = a ++ i :: b) : m.last? = some i ↔ b = [] := by
  rw [h] at hn
  have hib : i ∉ b := (List.nodup_cons.1 (List.nodup_append.1 hn).2.1).1
  rw [last?, h, List.getLast?_append_cons, List.getLast?_cons]
  cases hb : b.getLast? with
  | none => simp [List.getLast?_eq_none_iff.1 hb]
  | some x =>
    have hx := List.mem_of_getLast? hb
    refine ⟨fun he => absurd (Option.some.inj he ▸ hx) hib, fun he => ?_⟩
    simp [he] at hx

/-- Of two instructions in a topological order, one that the other uses stands first. -/
theorem Ordered.idxOf_lt (ho : Ordered m) (hl : Linked m) {i j : InstructionId}
    (h : i ∈ m.inputsOf j) : m.order.idxOf i < m.order.idxOf j := by
  obtain ⟨a, b, hs⟩ := List.append_of_mem (hl.user_mem_order h)
  refine (idxOf_lt_of_split hs hl.nodup).2 ?_
  have hi := hl.input_mem_order h
  have hp := ho.pairwise
  rw [hs] at hi hp
  rcases List.mem_append.1 hi with hi | hi
  · exact hi
  rcases List.mem_cons.1 hi with rfl | hi
  · exact absurd h (ho.irrefl i)
  · exact absurd h (List.rel_of_pairwise_cons (List.pairwise_append.1 hp).2.1 hi)

/-- Nothing uses the last instruction. -/
theorem Ordered.last_notMem_inputsOf (ho : Ordered m) (hl : Linked m) {i j : InstructionId}
    (h : m.last? = some i) : i ∉ m.inputsOf j := by
  intro hij
  obtain ⟨front, hs⟩ := List.getLast?_eq_some_iff.1 h
  have hlt := ho.idxOf_lt hl hij
  rcases List.mem_append.1 (hs ▸ hl.user_mem_order hij) with hj | hj
  · exact Nat.lt_asymm hlt ((idxOf_lt_of_split hs hl.nodup).2 hj)
  · rw [List.mem_singleton.1 hj] at hlt
    exact Nat.lt_irrefl _ hlt

theorem Ordered.of_idxOf_lt (hl : Linked m)
    (h : ∀ i j, i ∈ m.inputsOf j → m.order.idxOf i < m.order.idxOf j) : Ordered m where
  pairwise := (pairwise_idxOf_lt hl.nodup).imp fun hlt hj => Nat.lt_asymm hlt (h _ _ hj)
  irrefl i hi := Nat.lt_irrefl _ (h i i hi)

/-- What contributes to an instruction does not stand after it. -/
theorem Ordered.idxOf_le_of_depends (ho : Ordered m) (hl : Linked m) {i j : InstructionId}
    (h : m.Depends j i) : m.order.idxOf i ≤ m.order.idxOf j := by
  induction h with
  | refl => exact Nat.le_refl _
  | tail _ hs ih => exact Nat.le_trans (Nat.le_of_lt (ho.idxOf_lt hl hs)) ih

theorem Ordered.depends_antisymm (ho : Ordered m) (hl : Linked m) {i j : InstructionId}
    (hi : (m.get? i).isSome) (hij : m.Depends i j) (hji : m.Depends j i) : i = j := by
  have hidx := Nat.le_antisymm (ho.idxOf_le_of_depends hl hji) (ho.idxOf_le_of_depends hl hij)
  exact (List.idxOf_inj ((hl.mem_order i).2 hi)).1 hidx

theorem Linked.live_of_depends (hl : Linked m) {i j : InstructionId} (hi : (m.get? i).isSome)
    (h : m.Depends i j) : (m.get? j).isSome := by
  induction h with
  | refl => exact hi
  | tail _ hs _ => exact hl.live_input hs

private def isBefore (m : Module) (anchor i : InstructionId) : Bool :=
  (m.position? i).any (· < m.order.idxOf anchor)

/-- What is moved behind an anchor. -/
def sinking (m : Module) (anchor : InstructionId) (roots : List InstructionId) :
    List InstructionId :=
  Reach.visit (fun i => (m.usersOf i).filter (m.isBefore anchor))
    (m.ids.filter (m.isBefore anchor)) (roots.filter (m.isBefore anchor))

section Sink
variable {a b roots : List InstructionId} {anchor : InstructionId}

private theorem isBefore_iff (hl : Linked m) (hs : m.order = a ++ anchor :: b)
    (i : InstructionId) : m.isBefore anchor i ↔ i ∈ a := by
  by_cases hi : i ∈ m.order
  · simpa [isBefore, position?_of_mem hi] using idxOf_lt_of_split hs hl.nodup
  · have ha : i ∉ a := fun h => hi (by simp [hs, h])
    simp [isBefore, position?_eq_none_iff.2 hi, ha]

theorem root_mem_sinking (hl : Linked m) (hs : m.order = a ++ anchor :: b) {r : InstructionId}
    (hr : r ∈ roots) (ha : r ∈ a) : r ∈ m.sinking anchor roots :=
  Reach.mem_visit_of_mem (List.mem_filter.2 ⟨hr, (isBefore_iff hl hs r).2 ha⟩)

theorem sinking_subset (hl : Linked m) (hs : m.order = a ++ anchor :: b) {x : InstructionId}
    (hx : x ∈ m.sinking anchor roots) : x ∈ a ∧ ∃ r ∈ roots, m.Depends x r := by
  obtain ⟨r, hr, hp⟩ := Reach.exists_path_of_mem_visit hx
  obtain ⟨hr, hra⟩ := List.mem_filter.1 hr
  clear hx
  induction hp with
  | refl => exact ⟨(isBefore_iff hl hs r).1 hra, r, hr, .refl⟩
  | tail _ hyz ih =>
    obtain ⟨-, t, ht, hd⟩ := ih
    obtain ⟨hz, hza⟩ := List.mem_filter.1 hyz
    exact ⟨(isBefore_iff hl hs _).1 hza, t, ht, .head ((hl.mem_users _ _).1 hz) hd⟩

theorem user_mem_sinking (hl : Linked m) (hs : m.order = a ++ anchor :: b) {x y : InstructionId}
    (hx : x ∈ m.sinking anchor roots) (hy : y ∈ a) (hxy : x ∈ m.inputsOf y) :
    y ∈ m.sinking anchor roots := by
  have hxa := (isBefore_iff hl hs x).2 (sinking_subset hl hs hx).1
  refine Reach.next_subset_visit hx (List.mem_filter.2 ⟨mem_ids.2 (hl.live_input hxy), hxa⟩) ?_
  exact List.mem_filter.2 ⟨(hl.mem_users x y).2 hxy, (isBefore_iff hl hs y).2 hy⟩

theorem sinkAfter_eq (hl : Linked m) (hs : m.order = a ++ anchor :: b) :
    m.sinkAfter anchor roots = { m with
      order := a.filter (· ∉ m.sinking anchor roots) ++
        anchor :: (a.filter (· ∈ m.sinking anchor roots) ++ b) } := by
  have hn := hl.nodup
  rw [hs] at hn
  obtain ⟨-, -, hd⟩ := List.nodup_append.1 hn
  have hca : anchor ∉ a := fun h => hd _ h _ (by simp) rfl
  have hrest : ∀ x ∈ anchor :: b, x ∉ m.sinking anchor roots :=
    fun x hx h => hd _ (sinking_subset hl hs h).1 _ hx rfl
  have hmoved : (anchor :: b).filter (· ∈ m.sinking anchor roots) = [] :=
    List.filter_eq_nil_iff.2 (by simpa using hrest)
  have hkept : (anchor :: b).filter (· ∉ m.sinking anchor roots) = anchor :: b :=
    List.filter_eq_self.2 (by simpa using hrest)
  have hp : m.position? anchor = some (m.order.idxOf anchor) := position?_of_mem (by simp [hs])
  have hpart : m.order.partition (· ∈ m.sinking anchor roots) =
      (a.filter (· ∈ m.sinking anchor roots),
        a.filter (· ∉ m.sinking anchor roots) ++ anchor :: b) := by
    rw [List.partition_eq_filter_filter, hs, List.filter_append, hmoved, List.append_nil,
      List.filter_append]
    simpa [Function.comp_def] using hkept
  have hidx : (a.filter (· ∉ m.sinking anchor roots) ++ anchor :: b).idxOf? anchor =
      some (a.filter (· ∉ m.sinking anchor roots)).length :=
    idxOf?_append_cons fun h => hca (List.mem_filter.1 h).1
  unfold sinkAfter
  rw [hp]
  dsimp only
  erw [hpart]
  simp only [hidx]
  rw [List.take_length_add_append, List.drop_length_add_append]
  simp

/-- Sinking repairs the order when only the roots use something later: the anchor, or what stands
before the anchor and does not depend on the roots. -/
theorem ordered_sinkAfter (hl : Linked m) (hs : m.order = a ++ anchor :: b) (hr : ∀ r ∈ roots, r ∈ a)
    (hi : ∀ i, i ∉ m.inputsOf i) (ha : ∀ r ∈ roots, ¬ m.Depends anchor r)
    (hp : m.order.Pairwise fun x y => y ∈ m.inputsOf x →
      x ∈ roots ∧ (y = anchor ∨ y ∈ a ∧ ∀ r ∈ roots, ¬ m.Depends y r)) :
    Ordered (m.sinkAfter anchor roots) := by
  have hn := hl.nodup
  rw [hs] at hn hp
  obtain ⟨hpa, hpb, hpab⟩ := List.pairwise_append.1 hp
  obtain ⟨hpc, hpb⟩ := List.pairwise_cons.1 hpb
  obtain ⟨-, hnb, hd⟩ := List.nodup_append.1 hn
  have hra : ∀ x ∈ anchor :: b, x ∉ roots := fun x hx h => hd _ (hr x h) _ hx rfl
  have hkept : ∀ x ∈ a.filter (· ∉ m.sinking anchor roots), x ∈ a ∧ x ∉ m.sinking anchor roots :=
    fun x hx => by simpa using hx
  have hstay : ∀ x ∈ a.filter (· ∉ m.sinking anchor roots), x ∉ roots := fun x hx h =>
    (hkept x hx).2 (root_mem_sinking hl hs h (hr x h))
  have hmoved : ∀ x ∈ a.filter (· ∈ m.sinking anchor roots), x ∈ a ∧ x ∈ m.sinking anchor roots :=
    fun x hx => by simpa using hx
  rw [sinkAfter_eq hl hs]
  refine ⟨?_, hi⟩
  refine List.pairwise_append.2 ⟨?_, List.pairwise_cons.2 ⟨?_, List.pairwise_append.2 ⟨?_, ?_, ?_⟩⟩, ?_⟩
  · refine (hpa.filter _).imp_of_mem fun hx _ h hxy => hstay _ hx (h hxy).1
  · intro y hy
    rcases List.mem_append.1 hy with hy | hy
    · obtain ⟨r, hr, hd⟩ := (sinking_subset hl hs (hmoved y hy).2).2
      exact fun h => ha r hr (.head h hd)
    · exact fun h => hra anchor (by simp) (hpc y hy h).1
  · refine (hpa.filter _).imp_of_mem fun hx hy h hxy => ?_
    obtain ⟨r, hr, hd'⟩ := (sinking_subset hl hs (hmoved _ hy).2).2
    rcases (h hxy).2 with rfl | ⟨-, hno⟩
    · exact hd _ (hmoved _ hy).1 _ (by simp) rfl
    · exact hno r hr hd'
  · exact hpb.imp_of_mem fun hx _ h hxy => hra _ (by simp [hx]) (h hxy).1
  · intro x hx y hy hxy
    rcases (hpab x (hmoved x hx).1 y (by simp [hy]) hxy).2 with rfl | ⟨hya, -⟩
    · exact (List.nodup_cons.1 hnb).1 hy
    · exact hd _ hya _ (by simp [hy]) rfl
  · intro x hx y hy hxy
    rcases List.mem_cons.1 hy with rfl | hy
    · exact hstay x hx (hpab x (hkept x hx).1 y (by simp) hxy).1
    rcases List.mem_append.1 hy with hy | hy
    · exact (hkept x hx).2 (user_mem_sinking hl hs (hmoved y hy).2 (hkept x hx).1 hxy)
    · exact hstay x hx (hpab x (hkept x hx).1 y (by simp [hy]) hxy).1

theorem Linked.reorder (hl : Linked m) {l : List InstructionId} (h : l.Perm m.order) :
    Linked { m with order := l } where
  nodup := h.nodup_iff.2 hl.nodup
  mem_order i := h.mem_iff.trans (hl.mem_order i)
  size := hl.size.trans h.length_eq.symm
  users_nodup := hl.users_nodup
  mem_users := hl.mem_users

theorem sinkAfter_perm (hl : Linked m) (h : anchor ∈ m.order) (roots : List InstructionId) :
    ∃ l, l.Perm m.order ∧ m.sinkAfter anchor roots = { m with order := l } := by
  obtain ⟨a, b, hs⟩ := List.append_of_mem h
  refine ⟨_, ?_, sinkAfter_eq hl hs⟩
  have hf := List.filter_append_perm (· ∈ m.sinking anchor roots) a
  simp only [← decide_not] at hf
  rw [hs]
  refine List.perm_middle.trans (.trans (.cons anchor ?_) List.perm_middle.symm)
  rw [← List.append_assoc]
  exact (List.perm_append_comm.trans hf).append_right b

end Sink

end TensorGraph.Module
