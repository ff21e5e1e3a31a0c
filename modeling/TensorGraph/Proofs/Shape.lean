import TensorGraph.Proofs.Word
import TensorGraph.Shape.Codec

/-! Addressable shapes have an element count, a memory span and a layout. Shapes that are made have no
parts beyond those of their kind, except that what was a tuple keeps its sub-shapes. Shapes that pass
the check of reading are addressable and can be made. -/
namespace TensorGraph
namespace Shape
variable {s : Shape}

/-- How far the last element lies from the first, for axes with the given lengths and strides. -/
def span (axes : List (Nat × Nat)) : Nat :=
  (axes.map fun p => (p.1 - 1) * p.2).sum

theorem span_cons (p : Nat × Nat) (axes : List (Nat × Nat)) :
    span (p :: axes) = (p.1 - 1) * p.2 + span axes := rfl

/-- The last element has the last index along each axis. -/
theorem sum_last_eq_span (lens strides : List Nat) :
    (List.zipWith (· * ·) (lens.map (· - 1)) strides).sum = span (lens.zip strides) := by
  rw [span, List.zipWith_map_left, List.map_zip_eq_zipWith]
  rfl

private theorem span_of_foldlM {axes : List (Nat × Nat)} {a t : Nat} (ha : a < Word.limit)
    (h : axes.foldlM (fun n (len, stride) => (Word.mul? (len - 1) stride).bind (Word.add? · n)) a =
      some t) : t = a + span axes ∧ t < Word.limit := by
  induction axes generalizing a with
  | nil =>
    cases h
    exact ⟨rfl, ha⟩
  | cons p axes ih =>
    simp only [List.foldlM_cons, Option.bind_eq_bind, Option.bind_eq_some_iff, Word.mul?_eq_some,
      Word.add?_eq_some] at h
    obtain ⟨_, ⟨_, ⟨-, rfl⟩, hlt, rfl⟩, h⟩ := h
    obtain ⟨rfl, hlt'⟩ := ih hlt h
    rw [span_cons]
    omega

private theorem foldlM_of_span {axes : List (Nat × Nat)} {a : Nat} (h : a + span axes < Word.limit) :
    axes.foldlM (fun n (len, stride) => (Word.mul? (len - 1) stride).bind (Word.add? · n)) a =
      some (a + span axes) := by
  induction axes generalizing a with
  | nil => rfl
  | cons p axes ih =>
    rw [span_cons] at h ⊢
    have hmul : Word.mul? (p.1 - 1) p.2 = some ((p.1 - 1) * p.2) := Word.mul?_eq_some.2 ⟨by omega, rfl⟩
    have hadd : Word.add? ((p.1 - 1) * p.2) a = some ((p.1 - 1) * p.2 + a) :=
      Word.add?_eq_some.2 ⟨by omega, rfl⟩
    rw [List.foldlM_cons]
    dsimp only
    rw [hmul, Option.bind_some, hadd]
    refine (ih (by omega)).trans (congrArg some ?_)
    omega

/-- The element count, the memory span and its size in bytes fit a word. -/
theorem addressable_cases (ht : s.isTuple = false) (h : s.addressable) :
    (s.lens.map (max · 1)).prod < Word.limit ∧ 1 + span (s.lens.zip s.strides) < Word.limit ∧
      (1 + span (s.lens.zip s.strides)) * s.elementType.size < Word.limit := by
  obtain ⟨t, lens, strides, dims, subs⟩ := s
  have ht : t ≠ .tuple := by simpa [isTuple] using ht
  simp only [addressable, if_neg ht, Bool.and_eq_true, Option.isSome_bind, Option.any_eq_true,
    Option.isSome_iff_exists, Word.mul?_eq_some] at h
  obtain ⟨hcount, n, hn, _, hbytes, -⟩ := h
  have hprod := Word.prod_max_lt (by decide) (Option.isSome_iff_exists.2 hcount)
  rw [Nat.one_mul] at hprod
  obtain ⟨rfl, hspan⟩ := span_of_foldlM (by decide) hn
  exact ⟨hprod, hspan, hbytes⟩

theorem addressable_of_fits (ht : s.isTuple = false) (hcount : (s.lens.map (max · 1)).prod < Word.limit)
    (hspan : 1 + span (s.lens.zip s.strides) < Word.limit)
    (hbytes : (1 + span (s.lens.zip s.strides)) * s.elementType.size < Word.limit) : s.addressable := by
  obtain ⟨t, lens, strides, dims, subs⟩ := s
  have ht : t ≠ .tuple := by simpa [isTuple] using ht
  have hmax : (lens.map (max · 1)).map (max · 1) = lens.map (max · 1) := by simp
  have hfold : lens.foldlM (fun n len => Word.mul? n (max len 1)) 1 = some (lens.map (max · 1)).prod := by
    rw [← List.foldlM_map, Word.foldlM_mul?_eq_some (by rwa [hmax, Nat.one_mul]), Nat.one_mul]
  rw [addressable, if_neg ht]
  dsimp only at hspan hbytes ⊢
  rw [hfold, foldlM_of_span hspan, Option.bind_some, Word.mul?_eq_some.2 ⟨hbytes, rfl⟩]
  rfl

theorem addressable_of_not_tuple (ht : s.isTuple = false) (h : s.addressable) :
    (s.lens.map (max · 1)).prod < Word.limit ∧
      1 + span (s.lens.zip s.strides) < Word.limit :=
  ⟨(addressable_cases ht h).1, (addressable_cases ht h).2.1⟩

/-- The number of elements, where it is the product of the lengths. -/
theorem elements_eq_prod (ht : s.isTuple = false) (hd : s.isDynamic = false) (hl : s.lens ≠ [])
    (h : s.addressable) : s.elements = .ok s.lens.prod := by
  have hne : s.lens.isEmpty = false := by simpa using hl
  have hlt := (addressable_of_not_tuple ht h).1
  rw [elements, ht, hd, hne, Word.product]
  exact (Word.foldlM_mul_eq_ok (by rwa [Nat.one_mul])).trans (by rw [Nat.one_mul])

theorem elements_eq_ok (h : s.addressable) : ∃ c, s.elements = .ok c := by
  cases hs : s.isTuple || s.isDynamic || s.lens.isEmpty with
  | true => exact ⟨0, by simp [elements, hs]⟩
  | false =>
    simp only [Bool.or_eq_false_iff, List.isEmpty_eq_false_iff] at hs
    exact ⟨_, elements_eq_prod hs.1.1 hs.1.2 hs.2 h⟩

/-- A count of elements that exists is the product of the lengths, and fits a word. -/
theorem eq_prod_of_elements {c : Nat} (ht : s.isTuple = false) (hd : s.isDynamic = false)
    (hl : s.lens ≠ []) (h : s.elements = .ok c) : c = s.lens.prod ∧ c < Word.limit := by
  have hne : s.lens.isEmpty = false := by simpa using hl
  rw [elements, ht, hd, hne] at h
  exact ⟨(Word.foldlM_mul_eq_prod h).trans (Nat.one_mul _), Word.foldlM_mul_lt (by decide) h⟩

/-- Where there are elements, the shape is static with axes, and none of them is empty. -/
theorem of_elements_ne_zero {c : Nat} (h : s.elements = .ok c) (hc : c ≠ 0) :
    (s.isTuple = false ∧ s.isDynamic = false) ∧ s.lens ≠ [] ∧ ∀ n ∈ s.lens, n ≠ 0 := by
  rw [elements] at h
  split at h
  · exact absurd (Except.ok.inj h).symm hc
  · rename_i hs
    simp only [Bool.or_eq_true, not_or, Bool.not_eq_true, List.isEmpty_eq_false_iff] at hs
    refine ⟨hs.1, hs.2, ?_⟩
    rintro n hn rfl
    rw [Word.foldlM_mul_eq_prod h, Nat.one_mul] at hc
    exact hc (List.prod_eq_zero hn)

/-- Where there are elements, the memory span ends with the last one. -/
theorem elementSpace_eq_span {c : Nat} (hc : s.elements = .ok c) (hne : c ≠ 0)
    (h : s.addressable) : s.elementSpace = .ok (span (s.lens.zip s.strides) + 1) := by
  obtain ⟨⟨ht, -⟩, -, hpos⟩ := of_elements_ne_zero hc hne
  have hspan := (addressable_of_not_tuple ht h).2
  have hlens : s.lens.mapM (Word.sub · 1) = .ok (s.lens.map (· - 1)) := Except.mapM_eq_ok_map
    fun n hn => Word.sub_eq_ok (Nat.one_le_iff_ne_zero.2 (hpos n hn))
  have hdot := sum_last_eq_span s.lens s.strides
  rw [elementSpace, hc]
  change (if c = 0 then _ else _) = Except.ok _
  rw [if_neg hne, hlens, Except.ok_bind, Word.dot_eq_ok (by omega), hdot]
  exact Word.add_eq_ok (by omega)

theorem elementSpace_of_empty (hc : s.elements = .ok 0) : s.elementSpace = .ok 0 := by
  rw [elementSpace, hc]
  rfl

theorem elementSpace_eq_ok (h : s.addressable) : ∃ c, s.elementSpace = .ok c := by
  obtain ⟨c, hc⟩ := elements_eq_ok h
  by_cases hne : c = 0
  · exact ⟨0, elementSpace_of_empty (hne ▸ hc)⟩
  · exact ⟨_, elementSpace_eq_span hc hne h⟩

theorem isPacked_eq_ok (h : s.addressable) : ∃ b, s.isPacked = .ok b := by
  obtain ⟨c, hc⟩ := elements_eq_ok h
  obtain ⟨d, hd⟩ := elementSpace_eq_ok h
  rw [isPacked, hc, hd]
  split
  · exact ⟨false, rfl⟩
  · exact ⟨c == d, rfl⟩

theorem isStandard_eq_ok (h : s.addressable) : ∃ b, s.isStandard = .ok b := by
  obtain ⟨b, hb⟩ := isPacked_eq_ok h
  exact ⟨b && !s.isTransposed, by rw [isStandard, hb]; rfl⟩

theorem not_isDynamic_of_isPacked (h : s.isPacked = .ok true) :
    s.isDynamic = false ∧ s.isTuple = false := by
  rw [isPacked] at h
  split at h
  · simp [pure, Except.pure] at h
  · rename_i hs
    simp only [Bool.or_eq_true, not_or, Bool.not_eq_true] at hs
    exact hs.1

/-- A packed layout repeats nothing. -/
theorem zero_notMem_of_isPacked (h : s.isPacked = .ok true) : 0 ∉ s.strides := by
  rw [isPacked] at h
  split at h
  · simp [pure, Except.pure] at h
  · rename_i hs
    simp only [Bool.or_eq_true, not_or, Bool.not_eq_true] at hs
    have hd := hs.1.1
    simpa [isBroadcasted, hd] using hs.2

theorem isPacked_of_isStandard (h : s.isStandard = .ok true) : s.isPacked = .ok true := by
  rw [isStandard, Except.bind_eq_ok] at h
  obtain ⟨b, hb, h⟩ := h
  rw [Except.pure_eq_ok, Bool.and_eq_true] at h
  rw [hb, h.1]

theorem rank_of_static (h : s.isDynamic = false) : s.rank = s.lens.length := by
  simp [rank, h]

theorem asStandard_of_static (hd : s.isDynamic = false) (ht : s.isTuple = false) :
    s.asStandard = packedOf s.elementType s.lens := by
  simp [asStandard, hd, ht]

theorem dims_of_static (hd : s.isDynamic = false) (ht : s.isTuple = false) :
    s.toDynamic.dynamicDims = s.lens.map .fixed := by
  rw [toDynamic, hd, ht]
  rfl

theorem rank_eq_length_dims (ht : s.isTuple = false) : s.rank = s.toDynamic.dynamicDims.length := by
  cases hd : s.isDynamic with
  | true => simp [rank, toDynamic, hd]
  | false => rw [rank_of_static hd, dims_of_static hd ht, List.length_map]

/-- Static shapes with the same axes have the same lengths. -/
theorem lens_eq_of_dims {t : Shape} (hs : s.isTuple = false) (ht : t.isTuple = false)
    (hd : s.isDynamic = false) (htd : t.isDynamic = false)
    (h : t.toDynamic.dynamicDims = s.toDynamic.dynamicDims) : t.lens = s.lens := by
  rw [dims_of_static htd ht, dims_of_static hd hs] at h
  have hfixed : Function.Injective DynamicDimension.fixed := fun a b hab =>
    congrArg DynamicDimension.min hab
  exact hfixed.list_map h

/-- The element type matters to the layout only by being that of tuples. -/
theorem isPacked_withType {t : ElementType} (h : s.isTuple = false) (ht : t ≠ .tuple) :
    (s.withType t).isPacked = s.isPacked := by
  have ht' : (s.withType t).isTuple = false := by simpa [isTuple, withType] using ht
  simp only [isPacked, elementSpace, elements, h, ht', isBroadcasted, isDynamic]
  rfl

/-- The parts of a shape that its kind has no use for are absent: a dynamic shape has no lengths, and
only a tuple has sub-shapes. -/
inductive WellFormed : Shape → Prop
  | mk {s : Shape} (lens : s.isDynamic → s.lens = []) (subs : s.isTuple = false → s.subShapes = [])
      (all : ∀ t ∈ s.subShapes, WellFormed t) : WellFormed s

theorem WellFormed.lens (h : s.WellFormed) (hd : s.isDynamic) : s.lens = [] := by
  cases h with
  | mk lens _ _ => exact lens hd

theorem WellFormed.subs (h : s.WellFormed) (ht : s.isTuple = false) : s.subShapes = [] := by
  cases h with
  | mk _ subs _ => exact subs ht

theorem wellFormed_of_static (hd : s.dynamicDims = []) (hs : s.subShapes = []) : s.WellFormed :=
  ⟨by simp [isDynamic, hd], fun _ => hs, by simp [hs]⟩

theorem wellFormed_packedOf (t : ElementType) (lens : List Nat) : (packedOf t lens).WellFormed :=
  wellFormed_of_static rfl rfl

theorem length_standardStrides (lens : List Nat) : (standardStrides lens).length = lens.length := by
  fun_induction standardStrides lens with
  | case1 => rfl
  | case2 => rfl
  | case3 _ len rest hs ih => simp [hs] at ih
  | case4 _ len rest stride strides hs ih => simp_all

/-- A well-formed shape with a stride for each length and no sub-shapes. -/
structure Plain (s : Shape) : Prop where
  lens : s.isDynamic → s.lens = []
  strides : s.strides.length = s.lens.length
  subs : s.subShapes = []

theorem plain_packedOf (t : ElementType) (lens : List Nat) : (packedOf t lens).Plain :=
  ⟨by simp [packedOf, isDynamic], length_standardStrides lens, rfl⟩

theorem plain_dynamic (t : ElementType) (dims : List DynamicDimension) : (dynamic t dims).Plain :=
  ⟨fun _ => rfl, rfl, rfl⟩

theorem plain_of_strided {t : ElementType} {lens strides : List Nat}
    (h : strided t lens strides = .ok s) : s.Plain := by
  rw [strided] at h
  split at h
  · rename_i hlen
    cases h
    exact ⟨by simp [isDynamic], hlen.symm, rfl⟩
  · cases h

theorem Plain.withType (h : s.Plain) (t : ElementType) : (s.withType t).Plain :=
  ⟨h.lens, h.strides, h.subs⟩

theorem asStandard_eq_or_plain (s : Shape) : s.asStandard = s ∨ s.asStandard.Plain := by
  rw [asStandard]
  split
  · exact .inl rfl
  · exact .inr (plain_packedOf _ _)

/-- Static shapes of the same type, axes and strides are the same unless they have sub-shapes. -/
theorem eq_of_static {t : Shape} (hs : s.subShapes = []) (ht : t.subShapes = [])
    (hd : s.isDynamic = false) (hd' : t.isDynamic = false) (htype : t.elementType = s.elementType)
    (hlens : t.lens = s.lens) (hstrides : t.strides = s.strides) : t = s := by
  simp only [isDynamic, Bool.not_eq_false', List.isEmpty_iff] at hd hd'
  cases s
  cases t
  simp_all

/-- A shape as it can be made: of lengths and strides, of ranges, of sub-shapes, or from another shape
by a change of the element type. A tuple that is given another type keeps its sub-shapes. -/
inductive Made : Shape → Prop
  | strided {t : ElementType} {lens strides : List Nat} {s : Shape}
      (h : strided t lens strides = .ok s) : Made s
  | dynamic (t : ElementType) (dims : List DynamicDimension) : Made (dynamic t dims)
  | tuple {subs : List Shape} (h : ∀ s ∈ subs, Made s) : Made (tuple subs)
  | withType {s : Shape} (h : Made s) (t : ElementType) : Made (s.withType t)

theorem Plain.made (h : s.Plain) : s.Made := by
  obtain ⟨t, lens, strides, dims, subs⟩ := s
  obtain ⟨hlens, hstrides, rfl⟩ := h
  cases dims with
  | nil => exact .strided (if_pos hstrides.symm)
  | cons d dims =>
    obtain rfl : lens = [] := hlens rfl
    obtain rfl : strides = [] := List.length_eq_zero_iff.1 hstrides
    exact .dynamic t (d :: dims)

theorem made_of_static (hd : s.dynamicDims = []) (hl : s.strides.length = s.lens.length)
    (hs : s.subShapes = []) : s.Made :=
  Plain.made ⟨by simp [isDynamic, hd], hl, hs⟩

theorem Made.asStandard (h : s.Made) : s.asStandard.Made := by
  rcases asStandard_eq_or_plain s with he | hp
  · rwa [he]
  · exact hp.made

theorem Made.all (h : s.Made) {t : Shape} (ht : t ∈ s.subShapes) : t.Made := by
  induction h with
  | strided h =>
    rw [(plain_of_strided h).subs] at ht
    cases ht
  | dynamic => cases ht
  | tuple h => exact h t ht
  | withType _ _ ih => exact ih ht

/-- A dynamic shape has no lengths, and a tensor with axes has no sub-shapes. -/
structure Tidy (s : Shape) : Prop where
  lens : s.isDynamic → s.lens = []
  subs : s.isTuple = false → s.rank ≠ 0 → s.subShapes = []

theorem WellFormed.tidy (h : s.WellFormed) : s.Tidy :=
  ⟨h.lens, fun ht _ => h.subs ht⟩

theorem Made.tidy (h : s.Made) : s.Tidy := by
  suffices hs : (s.isDynamic → s.lens = []) ∧ (s.rank ≠ 0 → s.subShapes = []) from
    ⟨hs.1, fun _ => hs.2⟩
  induction h with
  | strided h => exact ⟨(plain_of_strided h).lens, fun _ => (plain_of_strided h).subs⟩
  | dynamic => exact ⟨fun _ => rfl, fun _ => rfl⟩
  | tuple => exact ⟨fun _ => rfl, fun hr => absurd rfl hr⟩
  | withType _ _ ih => exact ih

/-- What the check of a shape that is read asks for. -/
structure Passes (s : Shape) : Prop where
  strides : s.lens.length = s.strides.length
  lens : s.isTuple ∨ s.isDynamic → s.lens = []
  subs : s.isTuple = false → s.subShapes = []
  dims : s.isTuple → s.isDynamic = false
  ranges : ∀ d ∈ s.dynamicDims, d.min ≤ d.max
  addressable : s.addressable

theorem of_check_eq_ok {r : Shape} (h : r.check = .ok s) : r = s ∧ s.Passes := by
  rw [check] at h
  dsimp only at h
  split at h
  · cases h
  rename_i hstrides
  split at h
  · cases h
  rename_i hlens
  split at h
  · cases h
  rename_i hsubs
  split at h
  · cases h
  rename_i hdims
  split at h
  · cases h
  rename_i hranges
  split at h
  · rename_i haddr
    cases h
    refine ⟨rfl, not_not.1 hstrides, fun hk => ?_, fun ht => ?_, fun ht => ?_, fun d hd => ?_, haddr⟩
    · simpa [hk] using hlens
    · simpa [ht] using hsubs
    · simpa [ht] using hdims
    · simpa using List.find?_eq_none.1 hranges d hd
  · cases h

theorem Passes.check_eq_ok (h : s.Passes) : s.check = .ok s := by
  have hlens : ((s.isTuple || s.isDynamic) && !s.lens.isEmpty) = false := by
    cases hk : s.isTuple || s.isDynamic with
    | false => rfl
    | true => simp [h.lens (by simpa using hk)]
  have hsubs : (!s.subShapes.isEmpty && !s.isTuple) = false := by
    cases ht : s.isTuple with
    | true => simp
    | false => simp [h.subs ht]
  have hdims : (s.isTuple && s.isDynamic) = false := by
    cases ht : s.isTuple with
    | false => rfl
    | true => simp [h.dims ht]
  have hranges : s.dynamicDims.find? (fun d => d.max < d.min) = none :=
    List.find?_eq_none.2 fun d hd => by simpa using h.ranges d hd
  rw [check]
  simp only [h.strides, ne_eq, not_true_eq_false, if_false, hlens, hsubs, hdims, Bool.false_eq_true,
    hranges, h.addressable, if_true]

end Shape
end TensorGraph
