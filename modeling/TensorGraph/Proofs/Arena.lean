import TensorGraph.Arena

/-! What is stored under each number after a change of the storage, and how many values there are. -/
namespace TensorGraph.Arena
variable {α : Type}

theorem get?_eq_none_of_le {a : Arena α} {i : Nat} (h : a.next ≤ i) : a.get? i = none := by
  simp only [next] at h
  simp [get?, Array.getElem?_eq_none h]

@[simp] theorem get?_empty (i : Nat) : (Arena.empty : Arena α).get? i = none := by
  simp [get?, empty]

theorem get?_append (a : Arena α) (v : α) (i : Nat) :
    (a.append v).get? i = if i = a.next then some v else a.get? i := by
  simp only [get?, append, next, Array.getElem?_push]
  split <;> simp_all

theorem get?_modify (a : Arena α) (i : Nat) (f : α → α) (j : Nat) :
    (a.modify i f).get? j = if j = i then (a.get? j).map f else a.get? j := by
  simp only [get?, modify, Array.getElem?_modify]
  by_cases h : i = j
  · subst h
    cases a.slots[i]? with
    | none => simp
    | some slot => simp
  · simp [h, Ne.symm h]

theorem get?_remove (a : Arena α) (i j : Nat) :
    (a.remove i).get? j = if j = i then none else a.get? j := by
  unfold remove
  split
  · simp only [get?, Array.getElem?_setIfInBounds]
    by_cases h : i = j
    · subst h
      by_cases hi : i < a.slots.size <;> simp [hi]
    · simp [h, Ne.symm h]
  · rename_i h
    by_cases hj : j = i
    · subst hj
      simpa [contains] using h
    · simp [hj]

theorem get?_mapIdx (a : Arena α) (f : Nat → α → α) (i : Nat) :
    (a.mapIdx f).get? i = (a.get? i).map (f i) := by
  simp only [get?, mapIdx, Array.getElem?_mapIdx]
  cases a.slots[i]? with
  | none => rfl
  | some slot => rfl

/-- Storing a value that is there already changes nothing. -/
theorem modify_const_eq_self {a : Arena α} {i : Nat} {v : α} (h : a.get? i = some v) :
    (a.modify i fun _ => v) = a := by
  have hslots : a.slots.modify i (Option.map fun _ => v) = a.slots := by
    apply Array.ext_getElem?
    intro j
    rw [Array.getElem?_modify]
    split
    · rename_i hij
      rw [← hij, Option.join_eq_some_iff.1 h]
      rfl
    · rfl
  rw [modify, hslots]

theorem contains_eq_isSome (a : Arena α) (i : Nat) : a.contains i = (a.get? i).isSome := rfl

theorem get_eq_ok_iff {a : Arena α} {i : Nat} {v : α} : a.get i = .ok v ↔ a.get? i = some v := by
  unfold get
  cases a.get? i <;> simp

@[simp] theorem size_append (a : Arena α) (v : α) : (a.append v).size = a.size + 1 := rfl

@[simp] theorem size_modify (a : Arena α) (i : Nat) (f : α → α) : (a.modify i f).size = a.size := rfl

theorem size_remove (a : Arena α) (i : Nat) :
    (a.remove i).size = if (a.get? i).isSome then a.size - 1 else a.size := by
  by_cases h : (a.get? i).isSome <;> simp [remove, contains_eq_isSome, h, size]

@[simp] theorem next_append (a : Arena α) (v : α) : (a.append v).next = a.next + 1 := by
  simp [next, append]

@[simp] theorem next_modify (a : Arena α) (i : Nat) (f : α → α) : (a.modify i f).next = a.next := by
  simp [next, modify]

@[simp] theorem next_remove (a : Arena α) (i : Nat) : (a.remove i).next = a.next := by
  simp only [next, remove]
  split <;> simp

@[simp] theorem next_mapIdx (a : Arena α) (f : Nat → α → α) : (a.mapIdx f).next = a.next := by
  simp [next, mapIdx]

theorem mem_entries {a : Arena α} {i : Nat} {v : α} : (i, v) ∈ a.entries ↔ a.get? i = some v := by
  simp only [entries, List.mem_filterMap, get?]
  constructor
  · rintro ⟨⟨slot, k⟩, hm, hs⟩
    obtain ⟨w, rfl, hw⟩ := Option.map_eq_some_iff.1 hs
    cases hw
    rw [List.mem_zipIdx_iff_getElem?, Array.getElem?_toList] at hm
    simp [hm]
  · intro h
    refine ⟨(some v, i), ?_, rfl⟩
    rw [List.mem_zipIdx_iff_getElem?, Array.getElem?_toList]
    exact Option.join_eq_some_iff.1 h

/-- Entries are listed by increasing numbers. -/
theorem pairwise_entries (a : Arena α) : (a.entries.map Prod.fst).Pairwise (· < ·) := by
  have hlt : (a.slots.toList.zipIdx.map Prod.snd).Pairwise (· < ·) := by
    rw [List.zipIdx_map_snd]
    exact List.pairwise_lt_range'
  rw [List.pairwise_map, entries, List.pairwise_filterMap]
  refine (List.pairwise_map.1 hlt).imp fun {x y} hxy b hb c hc => ?_
  obtain ⟨_, _, rfl⟩ := Option.map_eq_some_iff.1 hb
  obtain ⟨_, _, rfl⟩ := Option.map_eq_some_iff.1 hc
  exact hxy

theorem nodup_entries (a : Arena α) : (a.entries.map Prod.fst).Nodup :=
  a.pairwise_entries.imp Nat.ne_of_lt

theorem mem_numbers {a : Arena α} {i : Nat} :
    i ∈ a.entries.map Prod.fst ↔ (a.get? i).isSome := by
  simp only [List.mem_map, Prod.exists, mem_entries, Option.isSome_iff_exists]
  exact ⟨fun ⟨_, v, hv, he⟩ => ⟨v, he ▸ hv⟩, fun ⟨v, hv⟩ => ⟨i, v, hv, rfl⟩⟩

theorem length_entries_congr {a b : Arena α} (h : ∀ i, (b.get? i).isSome ↔ (a.get? i).isSome) :
    b.entries.length = a.entries.length := by
  have hp : (b.entries.map Prod.fst).Perm (a.entries.map Prod.fst) :=
    (List.perm_ext_iff_of_nodup b.nodup_entries a.nodup_entries).2 fun i => by
      rw [mem_numbers, mem_numbers, h]
  simpa using hp.length_eq

theorem length_entries_succ {a b : Arena α} {i : Nat} (hi : a.get? i = none)
    (h : ∀ j, (b.get? j).isSome ↔ j = i ∨ (a.get? j).isSome) :
    b.entries.length = a.entries.length + 1 := by
  have hnot : i ∉ a.entries.map Prod.fst := by simp [mem_numbers, hi]
  have hp : (b.entries.map Prod.fst).Perm (i :: a.entries.map Prod.fst) :=
    (List.perm_ext_iff_of_nodup b.nodup_entries (List.nodup_cons.2 ⟨hnot, a.nodup_entries⟩)).2
      fun j => by rw [mem_numbers, List.mem_cons, mem_numbers, h]
  simpa using hp.length_eq

/-- As many values are there as are counted. -/
def Counted (a : Arena α) : Prop :=
  a.entries.length = a.size

theorem Counted.append {a : Arena α} (h : a.Counted) (v : α) : (a.append v).Counted := by
  rw [Counted, size_append, ← h]
  refine length_entries_succ (get?_eq_none_of_le (Nat.le_refl _)) fun j => ?_
  rw [get?_append]
  split <;> simp [*]

theorem Counted.modify {a : Arena α} (h : a.Counted) (i : Nat) (f : α → α) :
    (a.modify i f).Counted := by
  rw [Counted, size_modify, ← h]
  refine length_entries_congr fun j => ?_
  rw [get?_modify]
  split <;> simp

theorem Counted.mapIdx {a : Arena α} (h : a.Counted) (f : Nat → α → α) : (a.mapIdx f).Counted := by
  have hsize : (a.mapIdx f).size = a.size := rfl
  rw [Counted, hsize, ← h]
  refine length_entries_congr fun i => ?_
  rw [get?_mapIdx, Option.isSome_map]

theorem Counted.remove {a : Arena α} (h : a.Counted) (i : Nat) : (a.remove i).Counted := by
  rw [Counted, size_remove, ← h]
  split
  · rename_i hi
    have hlength : a.entries.length = (a.remove i).entries.length + 1 := by
      refine length_entries_succ (by rw [get?_remove, if_pos rfl]) fun j => ?_
      rw [get?_remove]
      by_cases hj : j = i <;> simp [hj, hi]
    omega
  · rename_i hi
    refine length_entries_congr fun j => ?_
    rw [get?_remove]
    by_cases hj : j = i <;> simp_all

end TensorGraph.Arena
