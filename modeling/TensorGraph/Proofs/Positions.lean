import TensorGraph.Proofs.Shape

/-! Positions of elements. An index with an entry below each length leads to a place within the span of
the strides, and in row-major layout that span is one less than the number of elements. -/
namespace TensorGraph.Shape
variable {lens strides idx : List Nat} {s : Shape}

/-- The index has an entry for each axis, below its length. -/
abbrev Within (idx lens : List Nat) : Prop :=
  List.Forall₂ (· < ·) idx lens

/-- The place of an index in memory. -/
def place (idx strides : List Nat) : Nat :=
  (List.zipWith (· * ·) idx strides).sum

theorem place_cons (i stride : Nat) (idx strides : List Nat) :
    place (i :: idx) (stride :: strides) = i * stride + place idx strides := rfl

@[simp] theorem place_nil (idx : List Nat) : place idx [] = 0 := by
  simp [place]

/-- Strides of zero in front leave out the first entries of an index. -/
theorem place_replicate_append (idx : List Nat) (k : Nat) (strides : List Nat) :
    place idx (List.replicate k 0 ++ strides) = place (idx.drop k) strides := by
  induction k generalizing idx with
  | zero => rfl
  | succ k ih =>
    cases idx with
    | nil => rfl
    | cons i idx =>
      rw [List.replicate_succ, List.cons_append, place_cons, Nat.mul_zero, Nat.zero_add, ih,
        List.drop_succ_cons]

/-- Strides of zero at the end leave out the last ones. -/
theorem place_append_replicate (idx strides : List Nat) (k : Nat) :
    place idx (strides ++ List.replicate k 0) = place idx strides := by
  induction strides generalizing idx with
  | nil =>
    have hzero := place_replicate_append idx k []
    rw [List.append_nil, place_nil] at hzero
    rw [List.nil_append, hzero, place_nil]
  | cons stride strides ih =>
    cases idx with
    | nil => rfl
    | cons i idx => rw [List.cons_append, place_cons, place_cons, ih]

theorem dot_eq_place (h : place idx strides < Word.limit) :
    Word.dot idx strides = .ok (place idx strides) :=
  Word.dot_eq_ok h

theorem within_unravel (h : ∀ n ∈ lens, n ≠ 0) (i : Nat) : Within (unravel lens i).1 lens := by
  induction lens with
  | nil => exact .nil
  | cons n lens ih =>
    obtain ⟨hn, hlens⟩ := List.forall_mem_cons.1 h
    refine .cons ?_ (ih hlens)
    have hmax : max n 1 = n := Nat.max_eq_left (Nat.pos_of_ne_zero hn)
    rw [hmax]
    exact Nat.mod_lt _ (Nat.pos_of_ne_zero hn)

theorem within_multiIndex (h : ∀ n ∈ s.lens, n ≠ 0) (i : Nat) : Within (s.multiIndex i) s.lens :=
  within_unravel h i

theorem place_le_span (h : Within idx lens) (strides : List Nat) :
    place idx strides ≤ span (lens.zip strides) := by
  induction h generalizing strides with
  | nil => exact Nat.zero_le _
  | @cons i n idx lens hi _ ih =>
    cases strides with
    | nil => exact Nat.zero_le _
    | cons stride strides =>
      have hterm : i * stride ≤ (n - 1) * stride := Nat.mul_le_mul_right _ (by omega)
      rw [place_cons, List.zip_cons_cons, span_cons]
      exact Nat.add_le_add hterm (ih strides)

theorem place_le_of_terms {ks zs : List Nat} (hzs : zs.length = lens.length)
    (hstrides : strides.length = lens.length)
    (h : ∀ i k z n stride : Nat, ks[i]? = some k → zs[i]? = some z → lens[i]? = some n →
      strides[i]? = some stride → k * z ≤ (n - 1) * stride) :
    place ks zs ≤ span (lens.zip strides) := by
  induction lens generalizing ks zs strides with
  | nil =>
    rw [List.length_eq_zero_iff.1 hzs, place_nil]
    exact Nat.zero_le _
  | cons n lens ih =>
    obtain ⟨z, zs, rfl⟩ := List.exists_cons_of_length_eq_add_one hzs
    obtain ⟨stride, strides, rfl⟩ := List.exists_cons_of_length_eq_add_one hstrides
    cases ks with
    | nil => exact Nat.zero_le _
    | cons k ks =>
      rw [place_cons, List.zip_cons_cons, span_cons]
      refine Nat.add_le_add (h 0 k z n stride rfl rfl rfl rfl) ?_
      refine ih (Nat.succ.inj hzs) (Nat.succ.inj hstrides) fun i k z n stride hk hz hn hs => ?_
      exact h (i + 1) k z n stride (by simpa using hk) (by simpa using hz) (by simpa using hn)
        (by simpa using hs)

theorem Within.getElem_lt {i k n : Nat} (h : Within idx lens) (hk : idx[i]? = some k)
    (hn : lens[i]? = some n) : k < n := by
  obtain ⟨hi, rfl⟩ := List.getElem?_eq_some_iff.1 hk
  obtain ⟨hi', rfl⟩ := List.getElem?_eq_some_iff.1 hn
  exact (List.forall₂_iff_get.1 h).2 i hi hi'

/-- Only axes with elements have an index. -/
theorem Within.ne_zero (h : Within idx lens) : ∀ n ∈ lens, n ≠ 0 := by
  induction h with
  | nil => exact nofun
  | cons hi _ ih => exact List.forall_mem_cons.2 ⟨Nat.ne_zero_of_lt hi, ih⟩

/-- Row-major strides without a bound. -/
def rowStrides : List Nat → List Nat
  | [] => []
  | _ :: lens => (lens.map (max · 1)).prod :: rowStrides lens

theorem standardStrides_eq (h : (lens.map (max · 1)).prod < Word.limit) :
    standardStrides lens = rowStrides lens := by
  induction lens with
  | nil => rfl
  | cons n lens ih =>
    have hlens : (lens.map (max · 1)).prod < Word.limit := by
      rw [List.map_cons, List.prod_cons] at h
      exact Nat.lt_of_le_of_lt (Nat.le_mul_of_pos_left _ (Nat.le_max_right n 1)) h
    cases lens with
    | nil => rfl
    | cons len rest =>
      rw [standardStrides, ih hlens]
      have hprod : (rest.map (max · 1)).prod * max len 1 = ((len :: rest).map (max · 1)).prod := by
        rw [List.map_cons, List.prod_cons, Nat.mul_comm]
      have hfits : Word.saturatingMul (rest.map (max · 1)).prod (max len 1) =
          ((len :: rest).map (max · 1)).prod := by
        rw [Word.saturatingMul, hprod]
        exact Nat.min_eq_left (by omega)
      simp only [rowStrides, hfits]

theorem span_rowStrides (lens : List Nat) :
    span (lens.zip (rowStrides lens)) + 1 = (lens.map (max · 1)).prod := by
  induction lens with
  | nil => rfl
  | cons n lens ih =>
    have hmax : max n 1 = n - 1 + 1 := by omega
    rw [rowStrides, List.zip_cons_cons, span_cons, Nat.add_assoc, ih, List.map_cons, List.prod_cons,
      hmax, Nat.succ_mul]

/-- A row-major shape whose elements can be counted. -/
structure RowMajor (s : Shape) : Prop where
  static : s.isDynamic = false
  row : s.strides = standardStrides s.lens
  fits : (s.lens.map (max · 1)).prod < Word.limit

theorem RowMajor.span_eq (h : s.RowMajor) :
    span (s.lens.zip (standardStrides s.lens)) + 1 = (s.lens.map (max · 1)).prod := by
  rw [standardStrides_eq h.fits, span_rowStrides]

/-- A row-major shape without an empty axis. -/
structure Dense (s : Shape) : Prop extends RowMajor s where
  pos : ∀ n ∈ s.lens, n ≠ 0

/-- The elements of a dense shape lie next to each other. -/
theorem Dense.span_eq (h : s.Dense) :
    span (s.lens.zip (standardStrides s.lens)) + 1 = s.lens.prod := by
  rw [h.toRowMajor.span_eq, Word.prod_max_eq h.pos]

theorem Dense.prod_lt (h : s.Dense) : s.lens.prod < Word.limit :=
  Word.prod_max_eq h.pos ▸ h.fits

end TensorGraph.Shape
