import TensorGraph.Proofs.Literal
import TensorGraph.Proofs.Positions

/-! Row-major shapes pass the test for row-major layout, whatever their lengths: their strides fill
the memory that they span, and do not grow. -/
namespace TensorGraph.Shape
variable {lens : List Nat} {t : ElementType} {s : Shape}

private theorem pos_of_mem_rowStrides {z : Nat} (h : z ∈ rowStrides lens) : 0 < z := by
  induction lens with
  | nil => cases h
  | cons n lens ih =>
    rcases List.mem_cons.1 h with rfl | h
    · exact Word.one_le_prod_max lens
    · exact ih h

private theorem le_prod_of_mem_rowStrides {z : Nat} (h : z ∈ rowStrides lens) :
    z ≤ (lens.map (max · 1)).prod := by
  induction lens with
  | nil => cases h
  | cons n lens ih =>
    have hle : (lens.map (max · 1)).prod ≤ ((n :: lens).map (max · 1)).prod := by
      rw [List.map_cons, List.prod_cons]
      exact Nat.le_mul_of_pos_left _ (Nat.le_max_right n 1)
    rcases List.mem_cons.1 h with rfl | h
    · exact hle
    · exact Nat.le_trans (ih h) hle

private theorem pairwise_rowStrides (lens : List Nat) :
    (rowStrides lens).Pairwise fun a b => b ≤ a := by
  induction lens with
  | nil => exact .nil
  | cons n lens ih => exact .cons (fun _ hz => le_prod_of_mem_rowStrides hz) ih

private theorem le_of_mem_zip_tail {zs : List Nat} (h : zs.Pairwise fun a b => b ≤ a) {a b : Nat}
    (hab : (a, b) ∈ zs.zip zs.tail) : b ≤ a := by
  induction zs with
  | nil => cases hab
  | cons z zs ih =>
    cases zs with
    | nil => cases hab
    | cons y zs =>
      rcases List.mem_cons.1 hab with he | hab
      · cases he
        exact List.rel_of_pairwise_cons h (by simp)
      · exact ih h.of_cons hab

/-- Strides that do not grow are not transposed. -/
theorem isTransposed_eq_false (hlen : s.strides.length = s.lens.length)
    (h : s.strides.Pairwise fun a b => b ≤ a) : s.isTransposed = false := by
  have hsub : ∀ p, (((s.lens.zip s.strides).filter p).map Prod.snd).Sublist s.strides := fun p => by
    have hmap := (List.filter_sublist (l := s.lens.zip s.strides) (p := p)).map Prod.snd
    rwa [List.map_snd_zip (Nat.le_of_eq hlen)] at hmap
  rw [isTransposed, List.any_eq_false]
  rintro ⟨a, b⟩ hab
  simpa using le_of_mem_zip_tail (h.sublist (hsub _)) hab

/-- A row-major shape is addressable where its elements fit in memory, an empty axis counting as one. -/
theorem addressable_packedOf_iff (ht : t ≠ .tuple) :
    (packedOf t lens).addressable = true ↔ (lens.map (max · 1)).prod * t.size < Word.limit := by
  have htuple : (packedOf t lens).isTuple = false := by simpa [isTuple, packedOf] using ht
  have hspan := span_rowStrides lens
  constructor
  · intro h
    obtain ⟨hcount, -, hbytes⟩ := addressable_cases htuple h
    replace hcount : (lens.map (max · 1)).prod < Word.limit := hcount
    change (1 + span (lens.zip (standardStrides lens))) * t.size < Word.limit at hbytes
    rwa [standardStrides_eq hcount, Nat.add_comm, hspan] at hbytes
  · intro h
    have hsize : 1 ≤ t.size := by
      cases t <;> first | exact absurd rfl ht | decide
    have hcount : (lens.map (max · 1)).prod < Word.limit :=
      Nat.lt_of_le_of_lt (Nat.le_mul_of_pos_right _ hsize) h
    have hrow : 1 + span (lens.zip (standardStrides lens)) = (lens.map (max · 1)).prod := by
      rw [standardStrides_eq hcount, Nat.add_comm, hspan]
    exact addressable_of_fits htuple hcount (hrow.trans_lt hcount)
      (Nat.lt_of_le_of_lt (Nat.le_of_eq (congrArg (· * t.size) hrow)) h)

section PackedOf
variable (ht : t ≠ .tuple) (ha : (packedOf t lens).addressable = true)
include ht ha

private theorem strides_packedOf : (packedOf t lens).strides = rowStrides lens :=
  standardStrides_eq (addressable_of_not_tuple (by simpa [isTuple, packedOf] using ht) ha).1

private theorem isPacked_packedOf : (packedOf t lens).isPacked = .ok true := by
  have htuple : (packedOf t lens).isTuple = false := by simpa [isTuple, packedOf] using ht
  have hrow := strides_packedOf ht ha
  have hzero : (packedOf t lens).isBroadcasted = false := by
    have hno : 0 ∉ rowStrides lens := fun h => Nat.lt_irrefl 0 (pos_of_mem_rowStrides h)
    rw [isBroadcasted, hrow]
    simpa using fun _ => hno
  obtain ⟨c, hc⟩ := elements_eq_ok ha
  have hspace : (packedOf t lens).elementSpace = .ok c := by
    by_cases hne : c = 0
    · rw [hne] at hc ⊢
      exact elementSpace_of_empty hc
    · obtain ⟨-, hl, hpos⟩ := of_elements_ne_zero hc hne
      have hprod := elements_eq_prod htuple rfl hl ha
      rw [elementSpace_eq_span hc hne ha, hrow]
      refine congrArg Except.ok ((span_rowStrides lens).trans ?_)
      exact (Word.prod_max_eq hpos).trans (Except.ok.inj (hprod.symm.trans hc))
  have hkind : ((packedOf t lens).isDynamic || (packedOf t lens).isTuple ||
      (packedOf t lens).isBroadcasted) = false := by
    rw [htuple, hzero]
    rfl
  rw [isPacked, hkind, hc, hspace]
  change Except.ok (c == c) = Except.ok true
  rw [beq_self_eq_true]

/-- Every row-major shape passes the test, with empty and unit axes and with none. -/
theorem isStandard_packedOf : (packedOf t lens).isStandard = .ok true := by
  have hrow := strides_packedOf ht ha
  have hflat : (packedOf t lens).isTransposed = false :=
    isTransposed_eq_false (length_standardStrides lens) (hrow ▸ pairwise_rowStrides lens)
  rw [isStandard, isPacked_packedOf ht ha, hflat]
  rfl

end PackedOf
end TensorGraph.Shape
