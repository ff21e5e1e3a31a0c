import TensorGraph.Literal.Basic
import TensorGraph.Proofs.Shape

/-! Literals have the row-major shape of the one they are made with, and as many values as it has
elements. -/
namespace TensorGraph

namespace Shape
variable {s : Shape}

@[simp] theorem isTuple_asStandard : s.asStandard.isTuple = s.isTuple := by
  rw [asStandard]
  split <;> rfl

@[simp] theorem isDynamic_asStandard : s.asStandard.isDynamic = s.isDynamic := by
  rw [asStandard]
  split
  · rfl
  · rename_i hs
    simp only [Bool.or_eq_true, not_or, Bool.not_eq_true] at hs
    rw [hs.1]
    rfl

@[simp] theorem lens_asStandard : s.asStandard.lens = s.lens := by
  rw [asStandard]
  split <;> rfl

@[simp] theorem elementType_asStandard : s.asStandard.elementType = s.elementType := by
  rw [asStandard]
  split <;> rfl

@[simp] theorem rank_asStandard : s.asStandard.rank = s.rank := by
  rw [asStandard]
  split
  · rfl
  · rename_i hs
    simp only [Bool.or_eq_true, not_or, Bool.not_eq_true] at hs
    rw [rank_of_static hs.1]
    rfl

@[simp] theorem elements_asStandard : s.asStandard.elements = s.elements := by
  rw [elements, elements, isTuple_asStandard, isDynamic_asStandard, lens_asStandard]

@[simp] theorem asStandard_asStandard : s.asStandard.asStandard = s.asStandard := by
  cases hs : s.isDynamic || s.isTuple with
  | true => simp [asStandard, hs]
  | false =>
    rw [Bool.or_eq_false_iff] at hs
    have hpacked := asStandard_of_static hs.1 hs.2
    rw [asStandard_of_static (by simpa using hs.1) (by simpa using hs.2), hpacked]
    rfl

end Shape

namespace Literal
variable {s : Shape} {data : Array Float} {l : Literal}

/-- A literal is made of as many of the given values as its shape has elements. -/
theorem exists_values (h : ofData s data = .ok l) :
    ∃ values : Array Float, s.elements = .ok values.size ∧ (∀ x ∈ values, x ∈ data) ∧
      l.shape = s.asStandard ∧ l.data = values.map s.elementType.cast := by
  rw [ofData, Except.bind_eq_ok] at h
  obtain ⟨count, hcount, h⟩ := h
  split at h
  · cases h
  rename_i hsize
  split at h
  · cases h
    refine ⟨_, ?_, ?_, rfl, Vector.toArray_map⟩
    · rw [Vector.size_toArray]
      exact Except.lift_eq_ok.1 hcount
    · intro x hx
      split at hx
      · exact hx
      · obtain ⟨-, rfl⟩ := Array.mem_replicate.1 hx
        have hone : 0 < data.size := by omega
        simp [hone]
  · cases h

theorem of_ofData_eq_ok (h : ofData s data = .ok l) :
    l.shape = s.asStandard ∧ s.elements = .ok l.data.size := by
  obtain ⟨values, hcount, -, hshape, hdata⟩ := exists_values h
  exact ⟨hshape, by rw [hdata, Array.size_map, hcount]⟩

/-- Every value is the conversion of one that was given. -/
theorem exists_of_ofData (h : ofData s data = .ok l) {y : Float} (hy : y ∈ l.data) :
    ∃ x ∈ data, y = s.elementType.cast x := by
  obtain ⟨values, -, hmem, -, hdata⟩ := exists_values h
  rw [hdata] at hy
  obtain ⟨x, hx, rfl⟩ := Array.mem_map.1 hy
  exact ⟨x, hmem x hx, rfl⟩

/-- The literal can be made from a shape and values. -/
def Made (l : Literal) : Prop :=
  ∃ s data, ofData s data = .ok l

theorem Made.asStandard (h : l.Made) : l.shape.asStandard = l.shape := by
  obtain ⟨s, data, h⟩ := h
  rw [(of_ofData_eq_ok h).1, Shape.asStandard_asStandard]

theorem Made.elements (h : l.Made) : l.shape.elements = .ok l.data.size := by
  obtain ⟨s, data, h⟩ := h
  rw [(of_ofData_eq_ok h).1, Shape.elements_asStandard, (of_ofData_eq_ok h).2]

theorem ofData_eq_ok (h : s.elements = .ok data.size) (hroom : data.size ≤ Word.capacity) :
    ∃ l, ofData s data = .ok l ∧ l.shape = s.asStandard ∧
      l.data = data.map s.elementType.cast := by
  have hcount : (liftM s.elements : Except Failure Nat) = .ok data.size := Except.lift_eq_ok.2 h
  rw [ofData, Except.bind_of_ok hcount, if_neg fun hsize => hsize.1 rfl, dif_pos hroom]
  refine ⟨_, rfl, rfl, ?_⟩
  simp

theorem made_of_isEmpty (h : s.elements = .ok 0) : Made ⟨s.asStandard, #[], Nat.zero_le _⟩ := by
  obtain ⟨l, hl, hshape, hdata⟩ := @ofData_eq_ok s #[] h (Nat.zero_le _)
  exact ⟨s, #[], hl.trans (congrArg _ (Literal.ext hshape (hdata.trans Array.map_empty)))⟩

theorem ofComputed_eq_ok (h : s.elements = .ok data.size) (hroom : data.size ≤ Word.capacity) :
    ∃ l, ofComputed s data = .ok l ∧ l.shape = s.asStandard ∧
      l.data = data.map s.elementType.cast := by
  obtain ⟨l, hl, hparts⟩ := ofData_eq_ok h hroom
  exact ⟨l, by rw [ofComputed, hl], hparts⟩

/-- Only a literal with values has a value everywhere. -/
theorem size_ne_zero_of_allEqual {x : Float} (h : l.allEqual x = true) : l.data.size ≠ 0 := by
  rintro hempty
  simp [allEqual, Array.isEmpty, hempty] at h

theorem addressable_scalar (t : ElementType) (x : Float) :
    (scalar t x).shape.addressable = true := by
  cases t <;> rfl

theorem made_scalar {t : ElementType} (ht : t ≠ .tuple) (x : Float) : (scalar t x).Made := by
  have hone : (Shape.scalar t).elements = .ok 1 := by cases t <;> first | rfl | exact absurd rfl ht
  have hstandard : (Shape.scalar t).asStandard = Shape.scalar t := by cases t <;> rfl
  obtain ⟨l, hl, hshape, hdata⟩ := @ofData_eq_ok _ #[x] hone (Nat.le_of_ble_eq_true rfl)
  refine ⟨Shape.scalar t, #[x], hl.trans (congrArg _ (Literal.ext (hshape.trans hstandard) ?_))⟩
  rw [hdata, List.map_toArray]
  exact (if_neg ht).symm

/-- Elements are not made from nothing. -/
theorem ofComputed_of_isEmpty {count : Nat} (h : s.elements = .ok count) (hcount : count ≠ 0)
    (hdata : data.size = 0) : ∃ f, ofComputed s data = .error f := by
  have hrefused : ofData s data = refuse (.invalidRecord (.valueCount data.size s)) := by
    rw [ofData, h]
    change (if _ then _ else _) = _
    rw [if_pos ⟨hdata.trans_ne hcount.symm, by omega⟩]
  rw [ofComputed, hrefused]
  exact ⟨_, rfl⟩

end Literal
end TensorGraph
