import TensorGraph.Proofs.RowMajor

/-! The memory that a shape takes. For a shape that was read, counting its elements, its memory span and
its bytes never overflows, as long as it is no tuple. The parts of a tuple are checked one by one, so its
bytes can be counted exactly when those of all parts together fit a word. -/
namespace TensorGraph.Shape
variable {s : Shape}

/-- The elements of memory that a shape spans. -/
def extent (s : Shape) : Nat :=
  if s.isDynamic ∨ s.lens = [] ∨ 0 ∈ s.lens then 0 else span (s.lens.zip s.strides) + 1

mutual

/-- The bytes of a shape, those of all parts for a tuple. -/
def footprint : Shape → Nat
  | ⟨t, lens, strides, dims, subs⟩ =>
    if t = .tuple then footprints subs else extent ⟨t, lens, strides, dims, subs⟩ * t.size

def footprints : List Shape → Nat
  | [] => 0
  | s :: rest => s.footprint + footprints rest

end

private theorem elementSpace_eq_extent (h : s.addressable = true) (ht : s.isTuple = false) :
    s.elementSpace = .ok s.extent := by
  obtain ⟨count, hcount⟩ := elements_eq_ok h
  by_cases hne : count = 0
  · have hempty : s.isDynamic ∨ s.lens = [] ∨ 0 ∈ s.lens := by
      by_contra hno
      simp only [not_or, Bool.not_eq_true] at hno
      obtain ⟨hd, hl, hzero⟩ := hno
      cases hcount.symm.trans (elements_eq_prod ht hd hl h)
      exact hzero (List.prod_eq_zero_iff.1 hne)
    rw [elementSpace_of_empty (hne ▸ hcount), extent, if_pos hempty]
  · obtain ⟨⟨-, hd⟩, hl, hpos⟩ := of_elements_ne_zero hcount hne
    have hfull : ¬ (s.isDynamic ∨ s.lens = [] ∨ 0 ∈ s.lens) := by
      rintro (hdyn | hnil | hzero)
      · exact Bool.false_ne_true (hd.symm.trans hdyn)
      · exact hl hnil
      · exact hpos 0 hzero rfl
    rw [elementSpace_eq_span hcount hne h, extent, if_neg hfull]

private theorem extent_bytes_lt (ht : s.isTuple = false) (h : s.addressable = true) :
    s.extent * s.elementType.size < Word.limit := by
  refine Nat.lt_of_le_of_lt (Nat.mul_le_mul_right _ ?_) (addressable_cases ht h).2.2
  rw [extent]
  split
  · exact Nat.zero_le _
  · exact Nat.le_of_eq (Nat.add_comm _ 1)

mutual

/-- The bytes of an addressable shape are counted, or do not fit a word. -/
theorem bytes_eq : (s : Shape) → s.addressable = true →
    s.bytes = if s.footprint < Word.limit then .ok s.footprint else .error .overflow
  | ⟨t, lens, strides, dims, subs⟩, h => by
    rw [bytes, footprint]
    by_cases ht : t = .tuple
    · rw [addressable, if_pos ht] at h
      rw [if_pos ht, if_pos ht, bytesSum_eq subs h (by decide), Nat.zero_add]
    · have htuple : isTuple ⟨t, lens, strides, dims, subs⟩ = false := by simpa [isTuple] using ht
      have hlt := extent_bytes_lt htuple h
      rw [if_neg ht, if_neg ht, elementSpace_eq_extent h htuple, if_pos hlt]
      exact Word.mul_eq_ok hlt

private theorem bytesSum_eq : (subs : List Shape) → addressableAll subs = true → {total : Nat} →
    total < Word.limit → bytesSum total subs =
      if total + footprints subs < Word.limit then .ok (total + footprints subs)
      else .error .overflow
  | [], _, total, htotal => by
    rw [bytesSum, footprints, Nat.add_zero, if_pos htotal]
  | s :: rest, h, total, htotal => by
    rw [addressableAll, Bool.and_eq_true] at h
    rw [bytesSum, footprints, ← Nat.add_assoc, bytes_eq s h.1]
    by_cases hs : total + s.footprint < Word.limit
    · rw [if_pos (by omega), Except.ok_bind, Word.add_eq_ok hs, Except.ok_bind]
      exact bytesSum_eq rest h.2 hs
    · rw [if_neg (c := total + s.footprint + footprints rest < Word.limit) (by omega)]
      split
      · rw [Except.ok_bind, Word.add, if_neg hs]
        rfl
      · rfl

end

private theorem footprint_of_not_tuple (ht : s.isTuple = false) :
    s.footprint = s.extent * s.elementType.size := by
  obtain ⟨t, lens, strides, dims, subs⟩ := s
  rw [footprint, if_neg (by simpa [isTuple] using ht)]

/-- For every shape that passes the check of reading, the elements and the memory span are counted, and
so are the bytes unless it is a tuple. Those of a tuple are counted exactly when all parts together fit a
word. -/
theorem sizes_of_check {r : Shape} (h : r.check = .ok s) :
    (∃ count, s.elements = .ok count) ∧ (∃ space, s.elementSpace = .ok space) ∧
      (s.isTuple = false → s.footprint < Word.limit) ∧
        s.bytes = if s.footprint < Word.limit then .ok s.footprint else .error .overflow := by
  obtain ⟨-, hs⟩ := of_check_eq_ok h
  have ha := hs.addressable
  refine ⟨elements_eq_ok ha, elementSpace_eq_ok ha, fun ht => ?_, bytes_eq s ha⟩
  rw [footprint_of_not_tuple ht]
  exact extent_bytes_lt ht ha

/-- A tuple within a tuple, next to half of the memory that can be addressed. -/
private def layered : Shape :=
  .tuple [.tuple [⟨.float, [2, 3], [1, 2], [], []⟩, .dynamic .half [.fixed 4]],
    packedOf .uint8 [Word.signedLimit]]

theorem sizes_of_check_layered :
    layered.check = .ok layered ∧ layered.bytes = .ok (Word.signedLimit + 24) := by
  have hcheck : layered.check = .ok layered := by decide +kernel
  refine ⟨hcheck, (sizes_of_check hcheck).2.2.2.trans ?_⟩
  decide +kernel

/-- Two parts that fit a word each, but not together. -/
private def overfull : Shape :=
  .tuple [packedOf .uint8 [Word.signedLimit], packedOf .uint8 [Word.signedLimit]]

/-- The check accepts tuples whose bytes cannot be counted. -/
theorem bytes_overfull : overfull.check = .ok overfull ∧ overfull.bytes = .error .overflow := by
  decide +kernel

end TensorGraph.Shape
