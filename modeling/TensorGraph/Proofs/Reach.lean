import Mathlib.Logic.Relation
import TensorGraph.Reach

/-! The nodes met are those that a path leads to, as long as the path only leaves nodes whose edges
are followed. -/
namespace TensorGraph.Reach
open Relation
variable {α : Type} [DecidableEq α] {next : α → List α}

theorem mem_visit_of_mem {fresh pending : List α} {a : α} (h : a ∈ pending) :
    a ∈ visit next fresh pending := by
  fun_induction visit next fresh pending with
  | case1 => simp at h
  | case2 fresh b rest _ ih =>
    rcases List.mem_cons.1 h with rfl | h
    · simp
    · exact List.mem_cons_of_mem _ (ih (List.mem_append_right _ h))
  | case3 fresh b rest _ ih =>
    rcases List.mem_cons.1 h with rfl | h
    · simp
    · exact List.mem_cons_of_mem _ (ih h)

/-- The edges of every node met are followed, where they are to be. -/
theorem next_subset_visit {fresh pending : List α} {a b : α} (ha : a ∈ visit next fresh pending)
    (hf : a ∈ fresh) (hb : b ∈ next a) : b ∈ visit next fresh pending := by
  fun_induction visit next fresh pending with
  | case1 => simp at ha
  | case2 fresh c rest _ ih =>
    by_cases hc : a = c
    · subst hc
      exact List.mem_cons_of_mem _ (mem_visit_of_mem (List.mem_append_left _ hb))
    · have ha' := (List.mem_cons.1 ha).resolve_left hc
      exact List.mem_cons_of_mem _ (ih ha' ((List.mem_erase_of_ne hc).2 hf))
  | case3 fresh c rest hc ih =>
    have hne : a ≠ c := fun h => hc (h ▸ hf)
    exact List.mem_cons_of_mem _ (ih ((List.mem_cons.1 ha).resolve_left hne) hf)

theorem exists_path_of_mem_visit {fresh pending : List α} {a : α}
    (h : a ∈ visit next fresh pending) :
    ∃ p ∈ pending, ReflTransGen (fun x y => y ∈ next x) p a := by
  fun_induction visit next fresh pending with
  | case1 => simp at h
  | case2 fresh b rest _ ih =>
    rcases List.mem_cons.1 h with rfl | h
    · exact ⟨a, by simp, .refl⟩
    · obtain ⟨p, hp, hpa⟩ := ih h
      rcases List.mem_append.1 hp with hp | hp
      · exact ⟨b, by simp, .head hp hpa⟩
      · exact ⟨p, by simp [hp], hpa⟩
  | case3 fresh b rest _ ih =>
    rcases List.mem_cons.1 h with rfl | h
    · exact ⟨a, by simp, .refl⟩
    · obtain ⟨p, hp, hpa⟩ := ih h
      exact ⟨p, by simp [hp], hpa⟩

/-- With the edges of every node that has any followed, exactly what a path leads to is met. -/
theorem mem_visit_iff {fresh pending : List α} (h : ∀ a, next a ≠ [] → a ∈ fresh) {a : α} :
    a ∈ visit next fresh pending ↔ ∃ p ∈ pending, ReflTransGen (fun x y => y ∈ next x) p a := by
  refine ⟨exists_path_of_mem_visit, ?_⟩
  rintro ⟨p, hp, hpa⟩
  induction hpa with
  | refl => exact mem_visit_of_mem hp
  | tail _ hbc ih => exact next_subset_visit ih (h _ (List.ne_nil_of_mem hbc)) hbc

/-- Where only the edges of some nodes are changed, what leads to one of them has led to one before. -/
theorem exists_path_of_edges_eq {next' : α → List α} {changed : List α}
    (h : ∀ a, a ∉ changed → next' a = next a) {i t : α} (ht : t ∈ changed)
    (hp : ReflTransGen (fun x y => y ∈ next' x) i t) :
    ∃ r ∈ changed, ReflTransGen (fun x y => y ∈ next x) i r := by
  induction hp using ReflTransGen.head_induction_on with
  | refl => exact ⟨t, ht, .refl⟩
  | @head a b hab _ ih =>
    by_cases ha : a ∈ changed
    · exact ⟨a, ha, .refl⟩
    · obtain ⟨r, hr, hp⟩ := ih
      exact ⟨r, hr, .head (h a ha ▸ hab) hp⟩

/-- The nodes met in at most the given number of steps, if that is all of them. -/
def visitWithin (next : α → List α) : Nat → List α → List α → Option (List α)
  | _, _, [] => some []
  | 0, _, _ :: _ => none
  | steps + 1, fresh, a :: rest =>
    if a ∈ fresh then (visitWithin next steps (fresh.erase a) (next a ++ rest)).map (a :: ·)
    else (visitWithin next steps fresh rest).map (a :: ·)

theorem visit_eq_of_within {steps : Nat} {fresh pending l : List α}
    (h : visitWithin next steps fresh pending = some l) : visit next fresh pending = l := by
  induction steps generalizing fresh pending l with
  | zero =>
    cases pending with
    | nil =>
      rw [visit]
      simpa [visitWithin] using h
    | cons a rest => simp [visitWithin] at h
  | succ steps ih =>
    cases pending with
    | nil =>
      rw [visit]
      simpa [visitWithin] using h
    | cons a rest =>
      rw [visitWithin] at h
      rw [visit]
      split at h <;> rename_i hm <;> obtain ⟨t, ht, rfl⟩ := Option.map_eq_some_iff.1 h
      · rw [if_pos hm, ih ht]
      · rw [if_neg hm, ih ht]

/-- A form that can be evaluated, for enough steps. -/
theorem visit_eq_getD (steps : Nat) (next : α → List α) (fresh pending : List α) :
    visit next fresh pending =
      (visitWithin next steps fresh pending).getD (visit next fresh pending) := by
  cases h : visitWithin next steps fresh pending with
  | none => rfl
  | some l => exact visit_eq_of_within h

/-- The nodes met, found in the given number of steps where these are enough. -/
def visitUpTo (steps : Nat) (next : α → List α) (fresh pending : List α) : List α :=
  (visitWithin next steps fresh pending).getD (visit next fresh pending)

theorem visit_eq_visitUpTo (steps : Nat) (next : α → List α) (fresh pending : List α) :
    visit next fresh pending = visitUpTo steps next fresh pending :=
  visit_eq_getD steps next fresh pending

end TensorGraph.Reach
