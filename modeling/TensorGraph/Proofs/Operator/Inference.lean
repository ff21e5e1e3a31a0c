import TensorGraph.Operator.Inference
import TensorGraph.Proofs.Literal

/-! What shape inference accepts and gives: views, reshapes, pads, pointwise operators and conversions.
Every inferred shape is given, part of what is given, or plain, and so it can be made. -/
namespace TensorGraph.Operator
namespace Inference
variable {op : String} {ins : List Shape} {s t : Shape}

theorem has_eq_ok {n : Nat} : has n op ins = .ok () ↔ ins.length = n := by
  rw [has]
  split <;> simp_all [fail, refuse]

theorem without_eq_ok {bad : Shape → Bool} {cause : Shape → InferenceError} :
    without bad cause op ins = .ok () ↔ ∀ s ∈ ins, bad s = false := by
  rw [without]
  split
  · rename_i s hs
    refine iff_of_false (by simp [fail, refuse]) fun h => ?_
    have hb := List.find?_some hs
    rw [h s (List.mem_of_find?_eq_some hs)] at hb
    cases hb
  · rename_i hs
    simpa using List.find?_eq_none.1 hs

private theorem notTuple_eq_ok : notTuple op ins = .ok () ↔ ∀ s ∈ ins, s.isTuple = false :=
  without_eq_ok

theorem onlyStatic_eq_ok :
    onlyStatic op ins = .ok () ↔ (∀ s ∈ ins, s.isTuple = false) ∧ ∀ s ∈ ins, s.isDynamic = false := by
  rw [onlyStatic, Except.seq_eq_ok, notTuple_eq_ok, without_eq_ok]

theorem agree_eq_ok {α : Type} [DecidableEq α] {property : Shape → α}
    {cause : Shape → Shape → InferenceError} :
    agree property cause op (s :: ins) = .ok () ↔ ∀ t ∈ ins, property t = property s := by
  rw [agree, without_eq_ok]
  simp

theorem minRank_eq_ok {n : Nat} : minRank n op ins = .ok () ↔ ∀ s ∈ ins, n ≤ s.rank := by
  rw [minRank, without_eq_ok]
  simp

theorem sameDims_eq_ok : sameDims op (s :: ins) = .ok () ↔
    (∀ t ∈ s :: ins, t.isTuple = false) ∧
      ∀ t ∈ ins, t.toDynamic.dynamicDims = s.toDynamic.dynamicDims := by
  rw [sameDims, Except.seq_eq_ok, notTuple_eq_ok, agree_eq_ok]

/-- A window takes up one element at least, so counting its places does not leave the words. -/
theorem places_eq_ok {padded span stride : Nat} (hlt : padded < Word.limit) (hspan : 0 < span)
    (hstride : stride ≠ 0) (hle : span ≤ padded) :
    (do Word.add (← Word.div (← Word.sub padded span) stride) 1 : Infer Nat) =
      .ok ((padded - span) / stride + 1) := by
  have hdiv : (padded - span) / stride ≤ padded - span := Nat.div_le_self _ _
  rw [Word.sub_eq_ok hle]
  change (liftM (Word.div (padded - span) stride) >>= _ : Infer Nat) = _
  rw [Word.div_eq_ok hstride]
  change (liftM (Word.add ((padded - span) / stride) 1) : Infer Nat) = _
  rw [Word.add_eq_ok (by omega)]
  rfl

/-- A rule for one input that is not a tuple. -/
theorem single_eq_ok {y : Infer Shape} :
    (do has 1 op ins; notTuple op ins; y) = .ok t ↔
      (∃ x, ins = [x] ∧ x.isTuple = false) ∧ y = .ok t := by
  rw [Except.seq_eq_ok, Except.seq_eq_ok, has_eq_ok, notTuple_eq_ok, List.length_eq_one_iff]
  constructor
  · rintro ⟨⟨x, rfl⟩, ht, h⟩
    exact ⟨⟨x, rfl, ht x (by simp)⟩, h⟩
  · rintro ⟨⟨x, rfl, ht⟩, h⟩
    exact ⟨⟨x, rfl⟩, by simpa using ht, h⟩

/-- A rule for inputs of one type with the same axes. -/
theorem alike_eq_ok {n : Nat} :
    (do has n op ins; sameType op ins; sameDims op ins; pointwiseShape ins) = .ok t ↔
      ins.length = n ∧ sameType op ins = .ok () ∧ sameDims op ins = .ok () ∧
        pointwiseShape ins = .ok t := by
  rw [Except.seq_eq_ok, Except.seq_eq_ok, Except.seq_eq_ok, has_eq_ok]

/-- A rule for one input whose lengths are known. -/
theorem static_eq_ok {shape : Shape → Infer Shape} :
    (do has 1 op ins; onlyStatic op ins; shape (← Fault.inRange ins[0]?)) = .ok t ↔
      ∃ x, ins = [x] ∧ x.isTuple = false ∧ x.isDynamic = false ∧ shape x = .ok t := by
  rw [Except.seq_eq_ok, Except.seq_eq_ok, has_eq_ok, onlyStatic_eq_ok, List.length_eq_one_iff]
  constructor
  · rintro ⟨⟨x, rfl⟩, ⟨ht, hd⟩, h⟩
    exact ⟨x, rfl, ht x (by simp), hd x (by simp), h⟩
  · rintro ⟨x, rfl, ht, hd, h⟩
    exact ⟨⟨x, rfl⟩, ⟨by simpa using ht, by simpa using hd⟩, h⟩

private theorem of_strided_eq_ok {type : ElementType} {lens strides : List Nat}
    (h : Shape.strided type lens strides = .ok t) : t = ⟨type, lens, strides, [], []⟩ := by
  rw [Shape.strided] at h
  split at h
  · cases h
    rfl
  · cases h

theorem permute_eq_ok {α : Type} {permutation : List Nat} {xs ys : List α} :
    permute permutation xs = .ok ys ↔ List.Forall₂ (fun p y => xs[p]? = some y) permutation ys := by
  simp only [permute, Except.mapM_eq_ok, Except.lift_eq_ok, Except.inRange_eq_ok]

theorem perm_range_of_isPermutation {permutation : List Nat} {rank : Nat}
    (h : isPermutation permutation rank = true) : permutation.Perm (List.range rank) := by
  simp only [isPermutation, Bool.and_eq_true, beq_iff_eq, List.all_eq_true, decide_eq_true_eq] at h
  obtain ⟨⟨hlen, hlt⟩, hnodup⟩ := h
  refine (List.subperm_of_subset hnodup fun p hp => ?_).perm_of_length_le (by simp [hlen])
  exact List.mem_range.2 (hlt p hp)

/-- A transposed shape has the lengths and the strides of the input at the permuted positions. -/
theorem of_transposeShape_eq_ok {permutation : List Nat} (hd : s.isDynamic = false)
    (h : transposeShape op s permutation = .ok t) :
    permutation.Perm (List.range s.lens.length) ∧ ∃ lens strides,
      List.Forall₂ (fun p n => s.lens[p]? = some n) permutation lens ∧
        List.Forall₂ (fun p stride => s.strides[p]? = some stride) permutation strides ∧
          t = ⟨s.elementType, lens, strides, [], []⟩ := by
  rw [transposeShape] at h
  split at h
  · cases h
  rename_i hperm
  rw [if_neg (by simp [hd])] at h
  obtain ⟨lens, hlens, h⟩ := Except.bind_eq_ok.1 h
  obtain ⟨strides, hstrides, h⟩ := Except.bind_eq_ok.1 h
  have hrank := Shape.rank_of_static hd
  refine ⟨hrank ▸ perm_range_of_isPermutation (by simpa using hperm), lens, strides,
    permute_eq_ok.1 hlens, permute_eq_ok.1 hstrides, ?_⟩
  exact of_strided_eq_ok (Except.lift_eq_ok.1 h)

/-- A broadcast input stands among the lengths of the output, with its strides. -/
theorem of_broadcastShape_eq_ok {axis : Nat} {outLens : List Nat} (hd : s.isDynamic = false)
    (h : broadcastShape op s axis outLens = .ok t) :
    axis + s.lens.length ≤ outLens.length ∧ s.lens = (outLens.drop axis).take s.lens.length ∧
      t = ⟨s.elementType, outLens, List.replicate axis 0 ++ s.strides ++
        List.replicate (outLens.length - (axis + s.lens.length)) 0, [], []⟩ := by
  have hrank := Shape.rank_of_static hd
  rw [broadcastShape, hrank] at h
  obtain ⟨fits, hfits, h⟩ := Except.bind_eq_ok.1 h
  split at h
  · rename_i hyes
    rw [Except.lift_eq_ok, standAt] at hfits
    split at hfits
    · rename_i stop hstop
      obtain ⟨-, rfl⟩ := Word.add?_eq_some.1 hstop
      split at hfits
      · rename_i hle
        rw [Fault.slice, if_pos ⟨Nat.le_add_right _ _, hle⟩, Nat.add_sub_cancel_left] at hfits
        cases hfits
        exact ⟨hle, eq_of_beq hyes, of_strided_eq_ok (Except.lift_eq_ok.1 h)⟩
      · cases hfits
        cases hyes
    · cases hfits
      cases hyes
  · cases h

/-- Behind the added axes, a multibroadcast keeps the stride of an axis or repeats a single position. -/
theorem of_multibroadcastShape_eq_ok {outLens : List Nat} (hd : s.isDynamic = false)
    (h : multibroadcastShape op s outLens = .ok t) :
    s.lens.length ≤ outLens.length ∧ ∃ strides : List Nat, strides.length = s.lens.length ∧
      (∀ i z : Nat, strides[i]? = some z → ∃ len outLen, s.lens[i]? = some len ∧
        outLens[outLens.length - s.lens.length + i]? = some outLen ∧
          (len = outLen ∧ s.strides[i]? = some z ∨ len = 1 ∧ z = 0)) ∧
        t = ⟨s.elementType, outLens,
          List.replicate (outLens.length - s.lens.length) 0 ++ strides, [], []⟩ := by
  have hrank := Shape.rank_of_static hd
  rw [multibroadcastShape, hrank] at h
  split at h
  · cases h
  rename_i hle
  rw [Nat.not_lt] at hle
  obtain ⟨added, hadded, h⟩ := Except.bind_eq_ok.1 h
  rw [Except.lift_eq_ok, Word.sub_eq_ok hle] at hadded
  cases hadded
  obtain ⟨strides, hstrides, h⟩ := Except.bind_eq_ok.1 h
  obtain ⟨hlen, hget⟩ := Except.getElem?_of_mapM_range hstrides
  refine ⟨hle, strides, hlen, fun i z hz => ?_, of_strided_eq_ok (Except.lift_eq_ok.1 h)⟩
  have hstride := hget i z hz
  simp only [repeatedStride, Except.bind_eq_ok, Except.lift_eq_ok, Except.inRange_eq_ok] at hstride
  obtain ⟨len, hl, outLen, ho, hstride⟩ := hstride
  refine ⟨len, outLen, hl, ho, ?_⟩
  split at hstride
  · rename_i heq
    rw [Except.lift_eq_ok, Except.inRange_eq_ok] at hstride
    exact .inl ⟨heq, hstride⟩
  · split at hstride
    · rename_i hone
      cases hstride
      exact .inr ⟨hone, rfl⟩
    · cases hstride

/-- A reshape keeps the number of elements. -/
theorem of_reshapeShape_eq_ok {dims : List Int} (h : reshapeShape op s dims = .ok t) :
    t.elements = s.elements := by
  rw [reshapeShape] at h
  split at h
  · cases h
  rw [Except.bind_eq_ok] at h
  obtain ⟨lens, -, h⟩ := h
  split at h
  · cases h
  simp only [Except.bind_eq_ok, Except.lift_eq_ok] at h
  obtain ⟨elements, he, lens, -, count, hc, h⟩ := h
  split at h
  · rename_i heq
    cases h
    rw [he, hc, heq]
  · cases h

/-- Each padded length is the sum of a length and of its two pads. -/
theorem of_padShape_eq_ok {pads : List Nat} (h : padShape op s pads = .ok t) :
    pads.length = 2 * s.rank ∧ ∃ lens, t = s.withLens lens ∧ lens.length = s.rank ∧
      ∀ i n : Nat, lens[i]? = some n → ∃ len first last, s.lens[i]? = some len ∧
        pads[i]? = some first ∧ pads[i + s.rank]? = some last ∧ n = len + first + last := by
  rw [padShape] at h
  split at h
  · cases h
  rename_i hcount
  obtain ⟨lens, hlens, h⟩ := Except.bind_eq_ok.1 h
  cases h
  obtain ⟨hlen, hget⟩ := Except.getElem?_of_mapM_range hlens
  refine ⟨not_not.1 hcount, lens, rfl, hlen, fun i n hn => ?_⟩
  have hpadded := hget i n hn
  simp only [paddedLen, Except.bind_eq_ok, Except.lift_eq_ok, Except.inRange_eq_ok] at hpadded
  obtain ⟨len, hl, first, hf, last, ht, hsum⟩ := hpadded
  split at hsum
  · cases hsum
    exact ⟨len, first, last, hl, hf, ht, (Word.add?_add?_eq_some.1 ‹_›).2⟩
  · cases hsum

private theorem allM_eq_ok_true {ε α : Type} {f : α → Except ε Bool} {l : List α} :
    l.allM f = .ok true ↔ ∀ a ∈ l, f a = .ok true := by
  induction l with
  | nil => simp [List.allM, pure, Except.pure]
  | cons a l ih =>
    rw [List.allM, Except.bind_eq_ok, List.forall_mem_cons, ← ih]
    constructor
    · rintro ⟨b, hb, h⟩
      cases b with
      | true => exact ⟨hb, h⟩
      | false => cases h
    · rintro ⟨ha, h⟩
      exact ⟨true, ha, h⟩

/-- How the shape of a pointwise result comes about: a dynamic shape or a packed layout of all inputs
is kept, and anything else becomes row-major. -/
inductive Pointwise (s : Shape) (rest : List Shape) : Shape → Prop
  | dynamic (h : s.isDynamic) : Pointwise s rest s
  | shared (hd : s.isDynamic = false)
      (h : ∀ t ∈ s :: rest, t.isPacked = .ok true ∧ t.strides = s.strides) : Pointwise s rest s
  | standard (hd : s.isDynamic = false)
      (h : ¬ ∀ t ∈ s :: rest, t.isPacked = .ok true ∧ t.strides = s.strides) :
      Pointwise s rest s.asStandard

theorem pointwise_of_eq_ok (h : pointwiseShape (s :: ins) = .ok t) : Pointwise s ins t := by
  simp only [pointwiseShape, List.head?_cons, Fault.inRange, Except.bind_eq_ok, Except.lift_eq_ok,
    Except.ok.injEq, exists_eq_left'] at h
  split at h
  · rename_i hd
    cases h
    exact .dynamic hd
  rename_i hd
  simp only [Bool.not_eq_true] at hd
  have hpacked : (s :: ins).allM (fun t => do return (← (liftM t.isPacked : Infer Bool)) &&
      t.strides == s.strides) = .ok true ↔
      ∀ t ∈ s :: ins, t.isPacked = .ok true ∧ t.strides = s.strides := by
    rw [allM_eq_ok_true]
    refine forall₂_congr fun t _ => ?_
    simp only [Except.bind_eq_ok, Except.lift_eq_ok, Except.pure_eq_ok, Bool.and_eq_true, beq_iff_eq]
    constructor
    · rintro ⟨_, hb, rfl, hs⟩
      exact ⟨hb, hs⟩
    · rintro ⟨hb, hs⟩
      exact ⟨true, hb, rfl, hs⟩
  rw [Except.bind_eq_ok] at h
  obtain ⟨b, hb, h⟩ := h
  cases b with
  | false =>
    cases h
    refine .standard hd fun hall => ?_
    cases hb.symm.trans (hpacked.2 hall)
  | true =>
    cases h
    exact .shared hd (hpacked.1 hb)

/-- A pointwise result that differs from its first input is the row-major layout of it. -/
theorem Pointwise.eq_asStandard {rest : List Shape} (h : Pointwise s rest t) (hne : t ≠ s) :
    t = s.asStandard := by
  cases h with
  | dynamic | shared => exact absurd rfl hne
  | standard => rfl

/-- A pointwise result that is not dynamic has the lengths of the first input. -/
theorem Pointwise.of_static {rest : List Shape} (h : Pointwise s rest t) (hd : t.isDynamic = false) :
    s.isDynamic = false ∧ t.lens = s.lens := by
  cases h with
  | dynamic => exact ⟨hd, rfl⟩
  | shared hs => exact ⟨hs, rfl⟩
  | standard hs =>
    refine ⟨hs, ?_⟩
    rw [Shape.asStandard]
    split <;> rfl

theorem Pointwise.isTuple_eq {rest : List Shape} (h : Pointwise s rest t) :
    t.isTuple = s.isTuple := by
  cases h with
  | dynamic | shared => rfl
  | standard =>
    rw [Shape.asStandard]
    split <;> rfl

/-- A pointwise result is kept by further pointwise operators, whatever its element type. -/
theorem Pointwise.withType_idem {type : ElementType} {r : Shape} (h : Pointwise s [] t)
    (hs : s.isTuple = false) (htype : (t.withType type).isTuple = false)
    (h' : Pointwise (t.withType type) [] r) : r = t.withType type := by
  have hne : type ≠ .tuple := by simpa [Shape.isTuple, Shape.withType] using htype
  cases h' with
  | dynamic | shared => rfl
  | standard hd hno =>
    cases h with
    | dynamic hdyn => exact absurd hdyn (by simpa [Shape.isDynamic, Shape.withType] using hd)
    | shared _ hall =>
      refine absurd (fun u hu => ?_) hno
      rw [List.mem_singleton.1 hu, Shape.isPacked_withType hs hne]
      exact ⟨(hall s (by simp)).1, rfl⟩
    | standard hd' =>
      rw [Shape.asStandard_of_static hd htype, Shape.asStandard_of_static hd' hs]
      rfl

theorem Pointwise.idem {r : Shape} (h : Pointwise s [] t) (hs : s.isTuple = false)
    (ht : t.isTuple = false) (h' : Pointwise t [] r) : r = t := by
  have hself : t.withType t.elementType = t := by cases t; rfl
  rw [← hself] at ht h' ⊢
  exact h.withType_idem hs ht h'

/-- Where the second of two inputs has the lengths of a row-major result, but is not the result, the
result is the row-major layout of it. -/
theorem Pointwise.eq_asStandard_right {a b : Shape} (h : Pointwise a [b] t) (ha : a.Tidy)
    (hb : b.Tidy) (hat : a.isTuple = false) (hbt : b.isTuple = false) (hrank : a.rank ≠ 0)
    (htype : b.elementType = a.elementType) (hdims : b.toDynamic.dynamicDims = a.toDynamic.dynamicDims)
    (hne : t ≠ b) (hstd : t.isStandard = .ok true) (hlens : t.lens = b.lens) :
    t = b.asStandard := by
  cases h with
  | dynamic hd =>
    have hp := (Shape.not_isDynamic_of_isPacked (Shape.isPacked_of_isStandard hstd)).1
    rw [hd] at hp
    cases hp
  | shared hd hall =>
    obtain ⟨hp, hs⟩ := hall b (by simp)
    have hbd := (Shape.not_isDynamic_of_isPacked hp).1
    have hrank' : b.rank ≠ 0 := by
      rwa [Shape.rank_eq_length_dims hbt, hdims, ← Shape.rank_eq_length_dims hat]
    exact absurd (Shape.eq_of_static (ha.subs hat hrank) (hb.subs hbt hrank') hd hbd htype
      hlens.symm hs).symm hne
  | standard hd =>
    rw [Shape.asStandard_of_static hd hat] at hlens ⊢
    have hbd : b.isDynamic = false := by
      by_contra hbd
      rw [Bool.not_eq_false] at hbd
      have hl : a.lens = [] := hlens.trans (hb.lens hbd)
      simp only [Shape.toDynamic, hbd, hd, hat, Bool.true_or, Bool.or_false, if_true,
        Bool.false_eq_true, if_false, Shape.dynamic, hl, List.map_nil] at hdims
      simp [Shape.isDynamic, hdims] at hbd
    rw [Shape.asStandard_of_static hbd hbt, htype]
    exact congrArg _ hlens

end Inference

open Inference
variable {ins : List Shape} {mods : List (List Shape)} {s t : Shape}

theorem inferShape_eq_ok {op : Operator} :
    op.inferShape ins mods = .ok s ↔ op.rawShape ins mods = .ok s ∧ s.addressable = true := by
  rw [inferShape, Except.bind_eq_ok]
  constructor
  · rintro ⟨r, hr, h⟩
    split at h
    · cases h
      exact ⟨hr, ‹_›⟩
    · cases h
  · rintro ⟨hr, ha⟩
    exact ⟨s, hr, if_pos ha⟩

theorem rawShape_identity : identity.rawShape ins mods = .ok t ↔ ins = [t] := by
  refine Except.seq_eq_ok.trans ?_
  rw [has_eq_ok, List.length_eq_one_iff]
  constructor
  · rintro ⟨⟨s, rfl⟩, h⟩
    cases h
    rfl
  · rintro rfl
    exact ⟨⟨t, rfl⟩, rfl⟩

theorem rawShape_contiguous :
    contiguous.rawShape ins mods = .ok t ↔ ∃ s, ins = [s] ∧ s.isTuple = false ∧ t = s.asStandard := by
  refine single_eq_ok.trans ?_
  constructor
  · rintro ⟨⟨s, rfl, ht⟩, h⟩
    cases h
    exact ⟨s, rfl, ht, rfl⟩
  · rintro ⟨s, rfl, ht, rfl⟩
    exact ⟨⟨s, rfl, ht⟩, rfl⟩

theorem rawShape_convert {type : ElementType} :
    (convert type).rawShape ins mods = .ok t ↔
      ∃ s p, ins = [s] ∧ s.isTuple = false ∧ pointwiseShape [s] = .ok p ∧ t = p.withType type := by
  refine single_eq_ok.trans ?_
  constructor
  · rintro ⟨⟨s, rfl, ht⟩, h⟩
    obtain ⟨_, hs, h⟩ := Except.bind_eq_ok.1 h
    cases hs
    obtain ⟨p, hp, h⟩ := Except.bind_eq_ok.1 h
    cases h
    exact ⟨s, p, rfl, ht, hp, rfl⟩
  · rintro ⟨s, p, rfl, ht, hp, rfl⟩
    exact ⟨⟨s, rfl, ht⟩, Except.bind_eq_ok.2 ⟨[s], rfl, Except.bind_eq_ok.2 ⟨p, hp, rfl⟩⟩⟩

theorem rawShape_unary {f : Unary} :
    (unary f).rawShape ins mods = .ok t ↔
      ∃ s, ins = [s] ∧ s.isTuple = false ∧ pointwiseShape [s] = .ok t := by
  refine single_eq_ok.trans ?_
  constructor
  · rintro ⟨⟨s, rfl, ht⟩, h⟩
    exact ⟨s, rfl, ht, h⟩
  · rintro ⟨s, rfl, ht, h⟩
    exact ⟨⟨s, rfl, ht⟩, h⟩

theorem rawShape_binary {f : Binary} :
    (binary f).rawShape ins mods = .ok t ↔
      ∃ a b, ins = [a, b] ∧ a.isTuple = false ∧ b.isTuple = false ∧ b.elementType = a.elementType ∧
        b.toDynamic.dynamicDims = a.toDynamic.dynamicDims ∧ pointwiseShape [a, b] = .ok t := by
  refine alike_eq_ok.trans ?_
  rw [List.length_eq_two]
  constructor
  · rintro ⟨⟨a, b, rfl⟩, htype, hdims, h⟩
    rw [sameType, agree_eq_ok] at htype
    rw [sameDims_eq_ok] at hdims
    exact ⟨a, b, rfl, hdims.1 a (by simp), hdims.1 b (by simp), htype b (by simp),
      hdims.2 b (by simp), h⟩
  · rintro ⟨a, b, rfl, ha, hb, htype, hdims, h⟩
    refine ⟨⟨a, b, rfl⟩, ?_, ?_, h⟩
    · rw [sameType, agree_eq_ok]
      simpa using htype
    · rw [sameDims_eq_ok]
      exact ⟨by simp [ha, hb], by simpa using hdims⟩

theorem rawShape_clip (h : clip.rawShape ins mods = .ok t) :
    ∃ a b c, ins = [a, b, c] ∧ (a.isTuple = false ∧ b.isTuple = false ∧ c.isTuple = false) ∧
      b.toDynamic.dynamicDims = a.toDynamic.dynamicDims ∧
        c.toDynamic.dynamicDims = a.toDynamic.dynamicDims ∧ pointwiseShape [a, b, c] = .ok t := by
  obtain ⟨hlen, -, hdims, h⟩ := alike_eq_ok.1 h
  obtain ⟨a, b, c, rfl⟩ := List.length_eq_three.1 hlen
  rw [sameDims_eq_ok] at hdims
  obtain ⟨ht, hdims⟩ := hdims
  exact ⟨a, b, c, rfl, ⟨ht a (by simp), ht b (by simp), ht c (by simp)⟩, hdims b (by simp),
    hdims c (by simp), h⟩

theorem rawShape_transpose {permutation : List Nat}
    (h : (transpose permutation).rawShape ins mods = .ok t) :
    ∃ x, ins = [x] ∧ x.isTuple = false ∧ transposeShape "transpose" x permutation = .ok t := by
  obtain ⟨⟨x, rfl, ht⟩, h⟩ := single_eq_ok.1 h
  exact ⟨x, rfl, ht, h⟩

theorem rawShape_pad {pads : List Nat} {mode : PadMode} {value : Float}
    (h : (pad pads mode value).rawShape ins mods = .ok t) :
    ∃ x, ins = [x] ∧ x.isTuple = false ∧ x.isDynamic = false ∧ padShape "pad" x pads = .ok t :=
  static_eq_ok.1 h

/-- A conversion of a conversion gives the shape that the second alone gives. -/
theorem inferShape_convert_trans {type type' : ElementType} {r : Shape} {mods' : List (List Shape)}
    (h : (convert type).inferShape [s] mods = .ok t)
    (h' : (convert type').inferShape [t] mods' = .ok r) :
    (convert type').inferShape [s] [] = .ok r := by
  rw [inferShape_eq_ok, rawShape_convert] at h h' ⊢
  obtain ⟨⟨s, p, he, hs, hp, rfl⟩, -⟩ := h
  obtain ⟨⟨_, q, he', ht, hq, rfl⟩, ha⟩ := h'
  cases he
  cases he'
  have hidem := (pointwise_of_eq_ok hp).withType_idem hs ht (pointwise_of_eq_ok hq)
  refine ⟨⟨_, p, rfl, hs, hp, ?_⟩, ha⟩
  rw [hidem]
  rfl

/-- The shapes among the attributes. -/
def shapes : Operator → List Shape
  | literal value => [value.shape]
  | parameter _ shape | allocate shape => [shape]
  | _ => []

/-- Where an inferred shape comes from: it is given, taken out of a tuple or converted, it is plain, or
it collects outputs, or inputs and plain shapes. -/
inductive Origin (op : Operator) (ins : List Shape) (mods : List (List Shape)) : Shape → Prop
  | embedded {s : Shape} (h : s ∈ op.shapes) : Origin op ins mods s
  | input {s : Shape} (h : s ∈ ins) : Origin op ins mods s
  | part {s t : Shape} (h : s ∈ ins) (ht : t ∈ s.subShapes) : Origin op ins mods t
  | converted {s : Shape} (h : s ∈ ins) (ht : s.isTuple = false) (type : ElementType) :
      Origin op ins mods (s.withType type)
  | plain {s : Shape} (h : s.Plain) : Origin op ins mods s
  | outputs {outs : List Shape} (h : outs ∈ mods) : Origin op ins mods (.tuple outs)
  | tuple {subs : List Shape} (h : ∀ s ∈ subs, s ∈ ins ∨ s.Plain) : Origin op ins mods (.tuple subs)

private theorem Inference.Pointwise.eq_or_plain {rest : List Shape} (h : Pointwise s rest t) :
    t = s ∨ t.Plain := by
  cases h with
  | dynamic | shared => exact .inl rfl
  | standard => exact s.asStandard_eq_or_plain

private theorem mem_of_inRange {i : Nat}
    (h : (liftM (Fault.inRange ins[i]?) : Infer Shape) = .ok s) : s ∈ ins := by
  rw [Except.lift_eq_ok, Except.inRange_eq_ok] at h
  exact List.mem_of_getElem? h

private theorem mem_of_slice {start stop : Nat} {part : List Shape}
    (h : Fault.slice ins start stop = .ok part) (hs : s ∈ part) : s ∈ ins := by
  rw [Fault.slice] at h
  split at h
  · cases h
    exact List.mem_of_mem_drop (List.mem_of_mem_take hs)
  · cases h

private theorem plain_transposeShape {name : String} {permutation : List Nat}
    (h : transposeShape name s permutation = .ok t) : t.Plain := by
  rw [transposeShape] at h
  split at h
  · cases h
  split at h
  · simp only [Except.bind_eq_ok, Except.pure_eq_ok] at h
    obtain ⟨_, -, rfl⟩ := h
    exact Shape.plain_dynamic _ _
  · simp only [Except.bind_eq_ok, Except.lift_eq_ok] at h
    obtain ⟨_, -, _, -, h⟩ := h
    exact Shape.plain_of_strided h

private theorem plain_reshapeShape {name : String} {dims : List Int}
    (h : reshapeShape name s dims = .ok t) : t.Plain := by
  rw [reshapeShape] at h
  split at h
  · cases h
  rw [Except.bind_eq_ok] at h
  obtain ⟨lens, -, h⟩ := h
  split at h
  · cases h
  simp only [Except.bind_eq_ok] at h
  obtain ⟨elements, -, lens, -, count, -, h⟩ := h
  split at h
  · cases h
    exact Shape.plain_packedOf _ _
  · cases h

private theorem plain_broadcastShape {name : String} {axis : Nat} {outLens : List Nat}
    (h : broadcastShape name s axis outLens = .ok t) : t.Plain := by
  simp only [broadcastShape, Except.bind_eq_ok] at h
  obtain ⟨fits, -, h⟩ := h
  split at h
  · rw [Except.lift_eq_ok] at h
    exact Shape.plain_of_strided h
  · cases h

private theorem plain_multibroadcastShape {name : String} {outLens : List Nat}
    (h : multibroadcastShape name s outLens = .ok t) : t.Plain := by
  rw [multibroadcastShape] at h
  split at h
  · cases h
  simp only [Except.bind_eq_ok, Except.lift_eq_ok] at h
  obtain ⟨_, -, _, -, h⟩ := h
  exact Shape.plain_of_strided h

private theorem plain_padShape {name : String} {pads : List Nat}
    (h : padShape name s pads = .ok t) : t.Plain := by
  rw [padShape] at h
  split at h
  · cases h
  simp only [Except.bind_eq_ok, Except.pure_eq_ok] at h
  obtain ⟨_, -, rfl⟩ := h
  exact Shape.plain_packedOf _ _

private theorem plain_convolutionShape {name : String} {weights : Shape} {window : Window}
    (h : convolutionShape name s weights window = .ok t) : t.Plain := by
  rw [convolutionShape, Except.bind_eq_ok] at h
  obtain ⟨_, -, h⟩ := h
  split at h
  · cases h
  split at h
  · cases h
  simp only [Except.bind_eq_ok] at h
  obtain ⟨_, -, _, -, _, -, _, -, h⟩ := h
  split at h
  · cases h
  simp only [Except.bind_eq_ok, Except.pure_eq_ok] at h
  obtain ⟨_, -, rfl⟩ := h
  exact Shape.plain_packedOf _ _

private theorem plain_dotShape {name : String} {right : Shape}
    (h : dotShape name s right = .ok t) : t.Plain := by
  simp only [dotShape, Except.bind_eq_ok] at h
  obtain ⟨_, -, _, -, _, -, h⟩ := h
  split at h
  · cases h
  simp only [Except.bind_eq_ok] at h
  obtain ⟨_, -, _, -, _, -, h⟩ := h
  split at h
  · cases h
  simp only [Except.bind_eq_ok, Except.pure_eq_ok] at h
  obtain ⟨_, -, rfl⟩ := h
  exact Shape.plain_packedOf _ _

private theorem plain_reduceShape {name : String} {axes : List Nat}
    (h : reduceShape name s axes = .ok t) : t.Plain := by
  simp only [reduceShape, Except.bind_eq_ok, Except.pure_eq_ok] at h
  obtain ⟨_, -, rfl⟩ := h
  exact Shape.plain_packedOf _ _

private theorem plain_quantizeShape {name : String} {scale : Shape} {zeroPoint : Option Shape}
    (h : quantizeShape name s scale zeroPoint = .ok t) : t.Plain := by
  rw [quantizeShape] at h
  split at h
  · cases h
  · cases h
    exact Shape.plain_packedOf _ _

private theorem plain_dequantizeShape {name : String} {scale : Shape} {zeroPoint : Option Shape}
    (h : dequantizeShape name s scale zeroPoint = .ok t) : t.Plain := by
  unfold dequantizeShape at h
  dsimp only at h
  split at h
  · split at h
    · cases h
    · cases h
      exact Shape.plain_packedOf _ _
  · cases h
    exact Shape.plain_packedOf _ _

private theorem exists_outputs_of_branchShape {name : String} (h : branchShape name s mods = .ok t) :
    ∃ outs ∈ mods, t = .tuple outs := by
  have hyes : ∀ (b : Bool) (yes no : List Shape), yes ∈ mods →
      (if !b then fail name (.conditionShape s)
        else if yes = no then return Shape.tuple yes
        else fail name .branchMismatch : Infer Shape) = .ok t → ∃ outs ∈ mods, t = .tuple outs := by
    intro b yes no hyes h
    split at h
    · cases h
    split at h
    · cases h
      exact ⟨yes, hyes, rfl⟩
    · cases h
  have hno : ∀ (b : Bool) (e e' : InferenceError),
      (if !b then fail name e else fail name e' : Infer Shape) ≠ .ok t := by
    intro b e e' h
    cases b <;> cases h
  unfold branchShape at h
  split at h <;> dsimp only at h <;> split at h
  · rw [Except.bind_eq_ok] at h
    obtain ⟨count, -, h⟩ := h
    exact hyes _ _ _ (by simp) h
  · rename_i yes no _
    exact hyes false yes no (by simp) h
  · rw [Except.bind_eq_ok] at h
    obtain ⟨count, -, h⟩ := h
    exact absurd h (hno _ _ _)
  · cases h

private theorem exists_subs_of_loopShape {name : String} {maxIterations : Nat}
    (h : loopShape name ins mods maxIterations = .ok t) :
    ∃ subs, t = .tuple subs ∧ ∀ u ∈ subs, u ∈ ins ∨ u.Plain := by
  unfold loopShape at h
  split at h
  · dsimp only at h
    split at h
    · cases h
    simp only [Except.bind_eq_ok] at h
    obtain ⟨_, -, h⟩ := h
    split at h
    · cases h
    simp only [Except.bind_eq_ok, Except.pure_eq_ok] at h
    obtain ⟨_, -, rfl⟩ := h
    refine ⟨_, rfl, fun u hu => ?_⟩
    rcases List.mem_append.1 hu with hu | hu
    · exact .inl hu
    · obtain ⟨v, -, rfl⟩ := List.mem_map.1 hu
      exact .inr (Shape.plain_packedOf _ _)
  · cases h

/-- What inference gives comes from what it is given. -/
theorem origin_of_rawShape {op : Operator} (h : op.rawShape ins mods = .ok t) :
    Origin op ins mods t := by
  have hstandard : ∀ s ∈ ins, Origin op ins mods s.asStandard := by
    intro s hs
    rcases s.asStandard_eq_or_plain with he | hp
    · rw [he]
      exact .input hs
    · exact .plain hp
  have hpointwise : ∀ {s : Shape} {rest : List Shape}, s ∈ ins → Pointwise s rest t →
      Origin op ins mods t := by
    intro s rest hs hp
    rcases hp.eq_or_plain with rfl | hp
    · exact .input hs
    · exact .plain hp
  cases op with
  | literal value =>
    rw [rawShape, Except.seq_eq_ok] at h
    cases h.2
    exact .embedded (by simp [shapes])
  | parameter name shape =>
    rw [rawShape, Except.seq_eq_ok] at h
    cases h.2
    exact .embedded (by simp [shapes])
  | allocate shape =>
    rw [rawShape, Except.seq_eq_ok] at h
    cases h.2
    exact .embedded (by simp [shapes])
  | output =>
    rcases ins with _ | ⟨a, _ | ⟨b, rest⟩⟩ <;> cases h
    · exact .tuple nofun
    · exact .input (by simp)
    · exact .tuple fun s hs => .inl hs
  | undefined =>
    rw [rawShape, Except.seq_eq_ok] at h
    cases h.2
    exact .plain (Shape.plain_packedOf _ _)
  | identity => exact .input (by simp [rawShape_identity.1 h])
  | contiguous =>
    obtain ⟨s, rfl, -, rfl⟩ := rawShape_contiguous.1 h
    exact hstandard s (by simp)
  | convert type =>
    obtain ⟨s, p, rfl, hs, hp, rfl⟩ := rawShape_convert.1 h
    rcases (pointwise_of_eq_ok hp).eq_or_plain with rfl | hp
    · exact .converted (by simp) hs type
    · exact .plain (hp.withType type)
  | unary f =>
    obtain ⟨s, rfl, -, hp⟩ := rawShape_unary.1 h
    exact hpointwise (by simp) (pointwise_of_eq_ok hp)
  | binary f =>
    obtain ⟨a, b, rfl, -, -, -, -, hp⟩ := rawShape_binary.1 h
    exact hpointwise (by simp) (pointwise_of_eq_ok hp)
  | clip =>
    rw [rawShape, Except.seq_eq_ok, Except.seq_eq_ok, Except.seq_eq_ok, has_eq_ok] at h
    obtain ⟨hlen, -, -, hp⟩ := h
    cases ins with
    | nil => cases hlen
    | cons a rest => exact hpointwise (by simp) (pointwise_of_eq_ok hp)
  | transpose permutation =>
    simp only [rawShape, Except.bind_eq_ok] at h
    obtain ⟨_, -, _, -, u, -, h⟩ := h
    exact .plain (plain_transposeShape h)
  | reshape dims =>
    simp only [rawShape, Except.bind_eq_ok] at h
    obtain ⟨_, -, _, -, u, -, h⟩ := h
    exact .plain (plain_reshapeShape h)
  | broadcast axis outLens =>
    simp only [rawShape, Except.bind_eq_ok] at h
    obtain ⟨_, -, _, -, u, -, h⟩ := h
    exact .plain (plain_broadcastShape h)
  | multibroadcast outLens =>
    simp only [rawShape, Except.bind_eq_ok] at h
    obtain ⟨_, -, _, -, u, -, h⟩ := h
    exact .plain (plain_multibroadcastShape h)
  | pad pads mode value =>
    simp only [rawShape, Except.bind_eq_ok] at h
    obtain ⟨_, -, _, -, u, -, h⟩ := h
    exact .plain (plain_padShape h)
  | convolution window =>
    simp only [rawShape, Except.bind_eq_ok] at h
    obtain ⟨_, -, _, -, _, -, _, -, _, -, u, -, w, -, h⟩ := h
    exact .plain (plain_convolutionShape h)
  | dot =>
    simp only [rawShape, Except.bind_eq_ok] at h
    obtain ⟨_, -, _, -, _, -, _, -, _, -, u, -, w, -, h⟩ := h
    exact .plain (plain_dotShape h)
  | reduceMean axes =>
    simp only [rawShape, Except.bind_eq_ok] at h
    obtain ⟨_, -, _, -, u, -, h⟩ := h
    exact .plain (plain_reduceShape h)
  | layernorm epsilon =>
    simp only [rawShape, Except.bind_eq_ok, Except.pure_eq_ok] at h
    obtain ⟨_, -, _, -, _, -, u, hu, rfl⟩ := h
    exact hstandard u (mem_of_inRange hu)
  | quantizeLinear =>
    simp only [rawShape, Except.bind_eq_ok] at h
    obtain ⟨_, -, _, -, _, -, u, -, w, -, h⟩ := h
    exact .plain (plain_quantizeShape h)
  | dequantizeLinear =>
    simp only [rawShape, Except.bind_eq_ok] at h
    obtain ⟨_, -, _, -, _, -, u, -, w, -, h⟩ := h
    exact .plain (plain_dequantizeShape h)
  | branch =>
    simp only [rawShape, Except.bind_eq_ok] at h
    obtain ⟨_, -, u, -, h⟩ := h
    obtain ⟨outs, houts, rfl⟩ := exists_outputs_of_branchShape h
    exact .outputs houts
  | loop maxIterations =>
    simp only [rawShape, Except.bind_eq_ok, Except.lift_eq_ok] at h
    obtain ⟨_, -, carried, hc, h⟩ := h
    obtain ⟨subs, rfl, hsubs⟩ := exists_subs_of_loopShape h
    exact .tuple fun u hu => (hsubs u hu).imp_left (mem_of_slice hc)
  | getTupleElem index =>
    simp only [rawShape, Except.bind_eq_ok] at h
    obtain ⟨_, -, u, hu, h⟩ := h
    split at h
    · rename_i v hv
      cases h
      exact .part (mem_of_inRange hu) (List.mem_of_getElem? hv)
    · cases h

/-- A shape among the attributes can be made, and so can a literal, with values for such a shape. -/
def Made : Operator → Prop
  | literal value => ∃ s data, s.Made ∧ Literal.ofData s data = .ok value
  | parameter _ shape | allocate shape => shape.Made
  | _ => True

theorem Made.shapes {op : Operator} (h : op.Made) : ∀ s ∈ op.shapes, s.Made := by
  cases op with
  | literal value =>
    obtain ⟨s, data, hs, hv⟩ := h
    simpa [Operator.shapes, (Literal.of_ofData_eq_ok hv).1] using hs.asStandard
  | parameter | allocate => simpa [Operator.shapes, Made] using h
  | _ => exact nofun

theorem Made.literal {op : Operator} (h : op.Made) {value : Literal} (hop : op = .literal value) :
    value.Made := by
  subst hop
  obtain ⟨s, data, -, hv⟩ := h
  exact ⟨s, data, hv⟩

/-- From inputs and attributes that can be made, inference makes shapes. -/
theorem made_rawShape {op : Operator} (hop : op.Made) (hins : ∀ u ∈ ins, u.Made)
    (hmods : ∀ outs ∈ mods, ∀ u ∈ outs, u.Made) (h : op.rawShape ins mods = .ok t) : t.Made := by
  cases origin_of_rawShape h with
  | embedded ht => exact hop.shapes t ht
  | input ht => exact hins t ht
  | part hs ht => exact (hins _ hs).all ht
  | converted hs _ type => exact (hins _ hs).withType type
  | plain ht => exact ht.made
  | outputs houts => exact .tuple (hmods _ houts)
  | tuple hsubs => exact .tuple fun u hu => (hsubs u hu).elim (hins u) Shape.Plain.made

end TensorGraph.Operator
