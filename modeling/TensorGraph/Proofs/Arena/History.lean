import Mathlib.Data.Set.Card
import TensorGraph.Proofs.Arena

/-! The storage as a map. Whatever is stored, removed and changed, in any order, what can be observed of
the storage is a finite map from numbers, in which each value gets the number of values stored before
it. A number that was removed is never bound again. -/
namespace TensorGraph.Arena
variable {α : Type} {a : Arena α} {i : Nat}

/-- A change of the storage. -/
inductive Step (α : Type) where
  | append (value : α)
  | remove (i : Nat)
  | set (i : Nat) (value : α)
  | modify (i : Nat) (f : α → α)
  | mapIdx (f : Nat → α → α)

/-- A map from numbers, together with how many values were ever bound in it. -/
structure Table (α : Type) where
  issued : Nat := 0
  value : Nat → Option α := fun _ => none

namespace Step

def run (a : Arena α) : Step α → Except Fault (Arena α)
  | append v => .ok (a.append v)
  | remove i => .ok (a.remove i)
  | set i v => a.set i v
  | modify i f => .ok (a.modify i f)
  | mapIdx f => .ok (a.mapIdx f)

/-- The storage after a step. A step that breaks down leaves it as it was. -/
def apply (a : Arena α) (s : Step α) : Arena α :=
  (s.run a).toOption.getD a

/-- What a step does to the map. -/
def record (t : Table α) : Step α → Table α
  | append v => ⟨t.issued + 1, Function.update t.value t.issued (some v)⟩
  | remove i => { t with value := Function.update t.value i none }
  | set i v => { t with value := Function.update t.value i ((t.value i).map fun _ => v) }
  | modify i f => { t with value := Function.update t.value i ((t.value i).map f) }
  | mapIdx f => { t with value := fun i => (t.value i).map (f i) }

def isAppend : Step α → Bool
  | append _ => true
  | _ => false

end Step

/-- The storage after a history that starts with nothing stored. -/
def after (steps : List (Step α)) : Arena α :=
  steps.foldl Step.apply empty

/-- The map after a history that starts with nothing bound. -/
def table (steps : List (Step α)) : Table α :=
  steps.foldl Step.record {}

namespace Table
variable {t : Table α}

private theorem issued_record (t : Table α) (s : Step α) :
    (s.record t).issued = t.issued + if s.isAppend then 1 else 0 := by
  cases s <;> rfl

private theorem issued_foldl (t : Table α) (steps : List (Step α)) :
    (steps.foldl Step.record t).issued = t.issued + steps.countP Step.isAppend := by
  induction steps generalizing t with
  | nil => rfl
  | cons s rest ih =>
    rw [List.foldl_cons, ih, issued_record, List.countP_cons]
    omega

/-- A number that has been issued and is not bound is not bound by any step. -/
theorem value_record_eq_none (hi : i < t.issued) (hn : t.value i = none) (s : Step α) :
    (s.record t).value i = none := by
  cases s with
  | append v => exact (Function.update_of_ne (Nat.ne_of_lt hi) _ _).trans hn
  | remove j | set j v | modify j f =>
    change Function.update t.value j _ i = none
    rw [Function.update_apply]
    split
    · simp_all
    · exact hn
  | mapIdx f => exact congrArg (Option.map (f i)) hn

private theorem value_foldl_eq_none (hi : i < t.issued) (hn : t.value i = none)
    (steps : List (Step α)) : (steps.foldl Step.record t).value i = none := by
  induction steps generalizing t with
  | nil => exact hn
  | cons s rest ih =>
    refine ih ?_ (value_record_eq_none hi hn s)
    rw [issued_record]
    omega

end Table

/-- The storage holds what the map binds, under the same numbers, and counts it. -/
structure Tracks (a : Arena α) (t : Table α) : Prop where
  next : a.next = t.issued
  get? : ∀ i, a.get? i = t.value i
  counted : a.Counted

private theorem tracks_empty : Tracks (empty : Arena α) {} where
  next := rfl
  get? := get?_empty
  counted := rfl

theorem Tracks.apply {t : Table α} (h : Tracks a t) (s : Step α) : Tracks (s.apply a) (s.record t) := by
  cases s with
  | append v =>
    refine ⟨?_, fun j => ?_, h.counted.append v⟩
    · exact (next_append a v).trans (congrArg (· + 1) h.next)
    · change (a.append v).get? j = Function.update t.value t.issued (some v) j
      rw [get?_append, Function.update_apply, h.next, h.get?]
  | remove i =>
    refine ⟨(next_remove a i).trans h.next, fun j => ?_, h.counted.remove i⟩
    change (a.remove i).get? j = Function.update t.value i none j
    rw [get?_remove, Function.update_apply, h.get?]
  | modify i f =>
    refine ⟨(next_modify a i f).trans h.next, fun j => ?_, h.counted.modify i f⟩
    change (a.modify i f).get? j = Function.update t.value i ((t.value i).map f) j
    rw [get?_modify, Function.update_apply, h.get?]
    split <;> simp_all
  | mapIdx f =>
    refine ⟨(next_mapIdx a f).trans h.next, fun j => ?_, h.counted.mapIdx f⟩
    change (a.mapIdx f).get? j = (t.value j).map (f j)
    rw [get?_mapIdx, h.get?]
  | set i v =>
    change Tracks ((a.set i v).toOption.getD a) { t with value := Function.update t.value i _ }
    rw [Arena.set, contains, h.get?]
    cases hi : t.value i with
    | none =>
      have hsame : Function.update t.value i none = t.value := by
        rw [← hi, Function.update_eq_self]
      exact ⟨h.next, fun j => (h.get? j).trans (congrFun hsame j).symm, h.counted⟩
    | some w =>
      refine ⟨(next_modify a i _).trans h.next, fun j => ?_, h.counted.modify i _⟩
      change (a.modify i fun _ => v).get? j = Function.update t.value i (some v) j
      rw [get?_modify, Function.update_apply, h.get?]
      split <;> simp_all

private theorem tracks_foldl {t : Table α} (h : Tracks a t) (steps : List (Step α)) :
    Tracks (steps.foldl Step.apply a) (steps.foldl Step.record t) := by
  induction steps generalizing a t with
  | nil => exact h
  | cons s rest ih => exact ih (h.apply s)

private theorem tracks_after (steps : List (Step α)) : Tracks (after steps) (table steps) :=
  tracks_foldl tracks_empty steps

/-- As many numbers are in use as are counted; so there are finitely many. -/
theorem Counted.encard_eq (h : a.Counted) : {i | (a.get? i).isSome}.encard = a.size := by
  have hset : {i | (a.get? i).isSome} = ((a.entries.map Prod.fst).toFinset : Set Nat) := by
    ext i
    simp only [Set.mem_ofPred_eq, List.coe_toFinset, mem_numbers]
  rw [hset, Set.encard_coe_eq_coe_finsetCard, List.toFinset_card_of_nodup a.nodup_entries,
    List.length_map, h]

/-- The count goes down by one for a value that is there, and stays for one that is not. -/
theorem Counted.live_remove (h : a.Counted) (i : Nat) :
    (a.remove i).live + (if (a.get? i).isSome then 1 else 0) = a.live := by
  have hremoved := size_remove a i
  split
  · rename_i hi
    have hpos : 0 < a.entries.length := by
      rw [← List.length_map (f := Prod.fst)]
      exact List.length_pos_of_mem (mem_numbers.2 hi)
    rw [h] at hpos
    rw [if_pos hi] at hremoved
    change (a.remove i).size + 1 = a.size
    omega
  · rename_i hi
    rwa [if_neg hi] at hremoved

/-- All that can be observed of the storage is the map. -/
structure Denotes (a : Arena α) (value : Nat → Option α) : Prop where
  get? : ∀ i, a.get? i = value i
  contains : ∀ i, a.contains i = (value i).isSome
  get : ∀ i, a.get i = (value i).elim (.error (.staleHandle i)) .ok
  size : {i | (value i).isSome}.encard = a.size
  mem_entries : ∀ i v, (i, v) ∈ a.entries ↔ value i = some v
  increasing : (a.entries.map Prod.fst).Pairwise (· < ·)

private theorem Tracks.denotes {t : Table α} (h : Tracks a t) : Denotes a t.value := by
  have hvalue : t.value = a.get? := funext fun i => (h.get? i).symm
  rw [hvalue]
  refine ⟨fun _ => rfl, fun _ => rfl, fun i => ?_, h.counted.encard_eq, fun _ _ => Arena.mem_entries,
    a.pairwise_entries⟩
  rw [Arena.get]
  cases a.get? i <;> rfl

private theorem run_eq_error_iff {s : Step α} {f : Fault} :
    s.run a = .error f ↔ ∃ i v, s = .set i v ∧ a.get? i = none ∧ f = .staleHandle i := by
  cases s with
  | set i v =>
    rw [Step.run, Arena.set, contains]
    cases hi : a.get? i with
    | none => simp [hi, eq_comm]
    | some w => simp [hi]
  | _ => simp [Step.run]

private theorem issued_table (steps : List (Step α)) :
    (table steps).issued = steps.countP Step.isAppend :=
  (Table.issued_foldl _ steps).trans (Nat.zero_add _)

private theorem Tracks.lt_issued {t : Table α} (h : Tracks a t) (hi : (t.value i).isSome) :
    i < t.issued := by
  by_contra hle
  rw [← h.next] at hle
  rw [← h.get?, get?_eq_none_of_le (Nat.le_of_not_lt hle)] at hi
  cases hi

private theorem value_table_of_removed {steps : List (Step α)} (hi : i < (table steps).issued)
    (later : List (Step α)) : (table (steps ++ .remove i :: later)).value i = none := by
  rw [table, List.foldl_append, List.foldl_cons]
  have hunbound : ((Step.remove i).record (table steps)).value i = none := by
    change Function.update (table steps).value i none i = none
    exact Function.update_self ..
  exact Table.value_foldl_eq_none (t := (Step.remove i).record (table steps)) hi hunbound later

/-- After any history, the storage is a finite map: a value is stored under the number of values
stored before it, removal deletes what a number is bound to, and changes concern the numbers they
address. The count is that of the bound numbers and never falls below zero, only writing to a number
that is not bound breaks down, and a number once removed is never bound again. Numbers stay below the
count of appended values, so they fit a 32-bit word as long as that count does. -/
theorem after_denotes (steps : List (Step α)) :
    Denotes (after steps) (table steps).value ∧
      (after steps).next = steps.countP Step.isAppend ∧
      (table steps).issued = steps.countP Step.isAppend ∧
      (∀ i, ((table steps).value i).isSome → i < steps.countP Step.isAppend) ∧
      (∀ i, ((after steps).remove i).live + (if ((table steps).value i).isSome then 1 else 0) =
        (after steps).live) ∧
      (∀ s f, Step.run (after steps) s = .error f ↔
        ∃ i v, s = .set i v ∧ (table steps).value i = none ∧ f = .staleHandle i) ∧
      ∀ i later, i < steps.countP Step.isAppend →
        (after (steps ++ .remove i :: later)).contains i = false := by
  have h := tracks_after steps
  have hissued := issued_table steps
  refine ⟨h.denotes, h.next.trans hissued, hissued, fun i hi => ?_, fun i => ?_, fun s f => ?_,
    fun i later hi => ?_⟩
  · exact hissued ▸ h.lt_issued hi
  · rw [← h.get?]
    exact h.counted.live_remove i
  · simp only [← h.get?]
    exact run_eq_error_iff
  · rw [(tracks_after _).denotes.contains, value_table_of_removed (hissued ▸ hi) later]
    rfl

/-- A history in which a value is removed twice and written to after that, and what is stored later
gets a number of its own. -/
theorem after_denotes_removed :
    let steps : List (Step Nat) := [.append 10, .append 20, .append 30, .remove 1, .remove 1, .set 1 5,
      .append 40, .modify 2 (· + 1), .mapIdx fun i v => v + i]
    Denotes (after steps) (table steps).value ∧
      (after steps).entries = [(0, 10), (2, 33), (3, 43)] ∧ (after steps).size = 3 ∧
      (after steps).next = 4 ∧ Step.run (after steps) (.set 1 5) = .error (.staleHandle 1) ∧
      (after (steps ++ [.remove 3, .append 50])).contains 3 = false := by
  intro steps
  obtain ⟨hdenotes, hnext, -, -, -, hbroken, hgone⟩ := after_denotes steps
  refine ⟨hdenotes, by decide, by decide, hnext, (hbroken _ _).2 ⟨1, 5, rfl, ?_, rfl⟩, hgone 3 _ (by decide)⟩
  rw [← hdenotes.get?]
  decide

end TensorGraph.Arena
