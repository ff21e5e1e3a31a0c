import Mathlib.Algebra.BigOperators.Ring.List
import Mathlib.Algebra.GroupWithZero.Nat
import Mathlib.Algebra.Order.BigOperators.Group.List
import Mathlib.Algebra.Order.Group.Nat
import TensorGraph.Proofs.Except
import TensorGraph.Word

/-! When operations on words have a result. Products are bounded by the one in which an empty length
counts as one, since a zero may come after a partial product that is too large. -/
namespace TensorGraph.Word
variable {a b c : Nat} {ns as bs : List Nat}

theorem mul?_eq_some : mul? a b = some c ↔ a * b < limit ∧ c = a * b := by
  rw [mul?, Option.ite_none_right_eq_some, Option.some.injEq, eq_comm (a := c)]

theorem add?_eq_some : add? a b = some c ↔ a + b < limit ∧ c = a + b := by
  rw [add?, Option.ite_none_right_eq_some, Option.some.injEq, eq_comm (a := c)]

theorem add?_add?_eq_some {d : Nat} :
    (add? a b).bind (add? · c) = some d ↔ a + b + c < limit ∧ d = a + b + c := by
  simp only [Option.bind_eq_some_iff, add?_eq_some]
  constructor
  · rintro ⟨_, ⟨-, rfl⟩, h, rfl⟩
    exact ⟨h, rfl⟩
  · rintro ⟨h, rfl⟩
    exact ⟨_, ⟨by omega, rfl⟩, h, rfl⟩

theorem mul_eq_ok (h : a * b < limit) : mul a b = .ok (a * b) := if_pos h

theorem add_eq_ok (h : a + b < limit) : add a b = .ok (a + b) := if_pos h

theorem sub_eq_ok (h : b ≤ a) : sub a b = .ok (a - b) := if_pos h

theorem div_eq_ok (h : b ≠ 0) : div a b = .ok (a / b) := if_neg h

theorem rem_eq_ok (h : b ≠ 0) : rem a b = .ok (a % b) := if_neg h

/-- Positions within a buffer can be doubled as signed words. -/
theorem two_mul_le_signedLimit (h : a ≤ capacity) : 2 * a ≤ signedLimit :=
  (Nat.mul_le_mul_left 2 h).trans (by decide)

theorem reserve_eq_ok (h : a ≤ capacity) : reserve a = .ok () := if_pos h

theorem reserve_eq_error (h : capacity < a) : reserve a = .error .capacity :=
  if_neg (Nat.not_le.2 h)

theorem foldlM_mul_cons {n : Nat} (h : (n :: ns).foldlM mul a = .ok c) :
    a * n < limit ∧ ns.foldlM mul (a * n) = .ok c := by
  rw [List.foldlM_cons, Except.bind_eq_ok] at h
  obtain ⟨b, hb, h⟩ := h
  rw [mul] at hb
  split at hb
  · cases hb
    exact ⟨‹_›, h⟩
  · cases hb

theorem foldlM_mul_eq_prod (h : ns.foldlM mul a = .ok c) : c = a * ns.prod := by
  induction ns generalizing a with
  | nil =>
    cases h
    simp
  | cons n ns ih => rw [ih (foldlM_mul_cons h).2, List.prod_cons, Nat.mul_assoc]

theorem foldlM_mul_lt (ha : a < limit) (h : ns.foldlM mul a = .ok c) : c < limit := by
  induction ns generalizing a with
  | nil =>
    cases h
    exact ha
  | cons n ns ih =>
    obtain ⟨hlt, h⟩ := foldlM_mul_cons h
    exact ih hlt h

theorem foldlM_mul_of_mul? (h : ns.foldlM mul? a = some c) : ns.foldlM mul a = .ok c := by
  induction ns generalizing a with
  | nil =>
    cases h
    rfl
  | cons n ns ih =>
    rw [List.foldlM_cons, Option.bind_eq_bind, Option.bind_eq_some_iff] at h
    obtain ⟨b, hb, h⟩ := h
    obtain ⟨hlt, rfl⟩ := mul?_eq_some.1 hb
    rw [List.foldlM_cons, mul_eq_ok hlt]
    exact ih h

theorem one_le_prod_max (ns : List Nat) : 1 ≤ (ns.map (max · 1)).prod := by
  induction ns with
  | nil => exact Nat.le_refl 1
  | cons n ns ih =>
    rw [List.map_cons, List.prod_cons]
    exact Nat.mul_le_mul (Nat.le_max_right n 1) ih

theorem prod_max_eq (h : ∀ n ∈ ns, n ≠ 0) : (ns.map (max · 1)).prod = ns.prod := by
  have hmap : ns.map (max · 1) = ns := by
    refine (List.map_congr_left fun n hn => ?_).trans (List.map_id ns)
    exact Nat.max_eq_left (Nat.pos_of_ne_zero (h n hn))
  rw [hmap]

theorem prod_max_set_le (ns : List Nat) (i q : Nat) :
    ((ns.set i q).map (max · 1)).prod ≤ (ns.map (max · 1)).prod * max q 1 := by
  induction ns generalizing i with
  | nil =>
    rw [List.set_nil, List.map_nil, List.prod_nil, Nat.one_mul]
    exact Nat.le_max_right q 1
  | cons n ns ih =>
    cases i with
    | zero =>
      rw [List.set_cons_zero, List.map_cons, List.map_cons, List.prod_cons, List.prod_cons, Nat.mul_comm]
      exact Nat.mul_le_mul_right _ (Nat.le_mul_of_pos_left _ (Nat.le_max_right n 1))
    | succ i =>
      rw [List.set_cons_succ, List.map_cons, List.map_cons, List.prod_cons, List.prod_cons,
        Nat.mul_assoc]
      exact Nat.mul_le_mul_left _ (ih i)

/-- A factor of one can become any other. -/
theorem prod_set_of_one {i q : Nat} (h : ns[i]? = some 1) : (ns.set i q).prod = q * ns.prod := by
  induction ns generalizing i with
  | nil => cases h
  | cons n ns ih =>
    cases i with
    | zero =>
      cases h
      rw [List.set_cons_zero, List.prod_cons, List.prod_cons, Nat.one_mul]
    | succ i => rw [List.set_cons_succ, List.prod_cons, List.prod_cons, ih h, Nat.mul_left_comm]

theorem foldlM_mul?_eq_some (h : a * (ns.map (max · 1)).prod < limit) :
    ns.foldlM mul? a = some (a * ns.prod) := by
  induction ns generalizing a with
  | nil => simp
  | cons n ns ih =>
    rw [List.map_cons, List.prod_cons, ← Nat.mul_assoc] at h
    have hle : a * n ≤ a * max n 1 := Nat.mul_le_mul_left _ (Nat.le_max_left n 1)
    have hlt : a * n < limit := by
      refine Nat.lt_of_le_of_lt (Nat.le_trans hle ?_) h
      exact Nat.le_mul_of_pos_right _ (one_le_prod_max ns)
    rw [List.foldlM_cons, mul?_eq_some.2 ⟨hlt, rfl⟩, List.prod_cons, ← Nat.mul_assoc]
    exact ih (Nat.lt_of_le_of_lt (Nat.mul_le_mul_right _ hle) h)

theorem foldlM_mul_eq_ok (h : a * (ns.map (max · 1)).prod < limit) :
    ns.foldlM mul a = .ok (a * ns.prod) :=
  foldlM_mul_of_mul? (foldlM_mul?_eq_some h)

theorem prod_max_lt (ha : a < limit)
    (h : (ns.foldlM (fun n len => mul? n (max len 1)) a).isSome) :
    a * (ns.map (max · 1)).prod < limit := by
  induction ns generalizing a with
  | nil => simpa using ha
  | cons n ns ih =>
    obtain ⟨c, hc⟩ := Option.isSome_iff_exists.1 h
    rw [List.foldlM_cons, Option.bind_eq_bind, Option.bind_eq_some_iff] at hc
    obtain ⟨b, hb, hc⟩ := hc
    obtain ⟨hlt, rfl⟩ := mul?_eq_some.1 hb
    rw [List.map_cons, List.prod_cons, ← Nat.mul_assoc]
    exact ih hlt (by simp [hc])

theorem foldlM_add_eq_ok (h : a + ns.sum < limit) : ns.foldlM add a = .ok (a + ns.sum) := by
  induction ns generalizing a with
  | nil => rfl
  | cons n ns ih =>
    rw [List.sum_cons, ← Nat.add_assoc] at h ⊢
    rw [List.foldlM_cons, add_eq_ok (Nat.lt_of_le_of_lt (Nat.le_add_right _ _) h)]
    exact ih h

theorem sum_eq_ok (h : ns.sum < limit) : sum ns = .ok ns.sum := by
  have hfold := foldlM_add_eq_ok (a := 0) (by rwa [Nat.zero_add])
  rwa [Nat.zero_add] at hfold

theorem dot_eq_ok (h : (List.zipWith (· * ·) as bs).sum < limit) :
    dot as bs = .ok (List.zipWith (· * ·) as bs).sum := by
  have hzip : List.zipWith (· * ·) as bs = (as.zip bs).map fun p => p.1 * p.2 :=
    (List.map_zip_eq_zipWith (f := fun p : Nat × Nat => p.1 * p.2)).symm
  have hterms : (as.zip bs).mapM (fun p => mul p.1 p.2) = .ok (List.zipWith (· * ·) as bs) := by
    rw [hzip] at h ⊢
    refine Except.mapM_eq_ok_map fun p hp => mul_eq_ok (Nat.lt_of_le_of_lt ?_ h)
    exact List.le_sum_of_mem (List.mem_map_of_mem hp)
  exact (Except.bind_of_ok hterms _).trans (sum_eq_ok h)

theorem signed_eq_ok {i : Int} (hlow : -(signedLimit : Int) ≤ i) (hhigh : i < signedLimit) :
    signed i = .ok i :=
  if_pos ⟨hlow, hhigh⟩

theorem toSigned_of_lt (h : a < signedLimit) : toSigned a = a := by
  have hlimit : (limit : Int) = 2 * signedLimit := by decide
  have hle : (a : Int) < signedLimit := Int.ofNat_lt.2 h
  rw [toSigned, Int.bmod_def, Int.emod_eq_of_lt (by omega) (by omega), if_pos (by omega)]

theorem ofSigned_of_nonneg {i : Int} (hlow : 0 ≤ i) (hhigh : i < limit) : ofSigned i = i.toNat := by
  rw [ofSigned, Int.emod_eq_of_lt hlow hhigh]

end TensorGraph.Word
