import TensorGraph.Proofs.Operator.Inference

/-! Shape inference does not break down. From input shapes that are addressable and have a stride for
each length, every operator refuses or gives such a shape again, whatever its attributes. -/
namespace TensorGraph.Shape
variable {s t : Shape}

/-- There is a stride for each length, in the shape and in its sub-shapes. -/
inductive Aligned : Shape → Prop
  | mk {s : Shape} (len : s.strides.length = s.lens.length) (all : ∀ t ∈ s.subShapes, Aligned t) :
      Aligned s

theorem Aligned.len (h : s.Aligned) : s.strides.length = s.lens.length := by
  cases h with
  | mk len _ => exact len

theorem Aligned.all (h : s.Aligned) (ht : t ∈ s.subShapes) : t.Aligned := by
  cases h with
  | mk _ all => exact all t ht

theorem aligned_packedOf (type : ElementType) (lens : List Nat) : (packedOf type lens).Aligned :=
  ⟨length_standardStrides lens, by simp [packedOf]⟩

private theorem aligned_dynamic (type : ElementType) (dims : List DynamicDimension) :
    (dynamic type dims).Aligned :=
  ⟨rfl, by simp [dynamic]⟩

private theorem aligned_tuple {subs : List Shape} (h : ∀ t ∈ subs, t.Aligned) :
    (tuple subs).Aligned :=
  ⟨rfl, h⟩

theorem Aligned.withType (h : s.Aligned) (type : ElementType) : (s.withType type).Aligned :=
  ⟨h.len, fun _ ht => h.all ht⟩

theorem Aligned.asStandard (h : s.Aligned) : s.asStandard.Aligned := by
  rw [Shape.asStandard]
  split
  · exact h
  · exact aligned_packedOf _ _

private theorem strided_eq_ok {type : ElementType} {lens strides : List Nat}
    (h : strides.length = lens.length) : ∃ t, strided type lens strides = .ok t ∧ t.Aligned := by
  rw [strided, if_pos h.symm]
  exact ⟨_, rfl, h, by simp⟩

private theorem elements_lt {c : Nat} (h : s.elements = .ok c) : c < Word.limit := by
  rw [elements] at h
  split at h
  · cases h
    decide
  · exact Word.foldlM_mul_lt (by decide) h

private theorem exists_elements_withLens (s : Shape) {lens : List Nat}
    (h : ∃ c, Word.product lens = .ok c) : ∃ c, (s.withLens lens).elements = .ok c := by
  rw [elements]
  split
  · exact ⟨0, rfl⟩
  · exact h

/-- What shape inference relies on and establishes. -/
structure Sound (s : Shape) : Prop where
  aligned : s.Aligned
  addressable : s.addressable = true

/-- The shape is addressable and has a stride for each length, and so are and have its sub-shapes. -/
inductive Regular : Shape → Prop
  | mk {s : Shape} (addressable : s.addressable = true) (len : s.strides.length = s.lens.length)
      (all : ∀ t ∈ s.subShapes, Regular t) : Regular s

theorem Regular.all (h : s.Regular) (ht : t ∈ s.subShapes) : t.Regular := by
  cases h with
  | mk _ _ all => exact all t ht

theorem Regular.sound (h : s.Regular) : s.Sound := by
  induction h with
  | mk addressable len _ ih => exact ⟨⟨len, fun t ht => (ih t ht).aligned⟩, addressable⟩

private theorem addressable_of_mem {subs : List Shape} (h : (tuple subs).addressable = true)
    (ht : t ∈ subs) : t.addressable = true := by
  have hall : addressableAll subs = true := by simpa [tuple, addressable] using h
  clear h
  induction subs with
  | nil => cases ht
  | cons s rest ih =>
    rw [addressableAll, Bool.and_eq_true] at hall
    rcases List.mem_cons.1 ht with rfl | ht
    · exact hall.1
    · exact ih ht hall.2

end TensorGraph.Shape

namespace TensorGraph.Operator
namespace Inference
open TensorGraph.Except
variable {name : String} {ins : List Shape} {mods : List (List Shape)} {s t : Shape}

@[simp] theorem safe_fail {α : Type} (cause : InferenceError) (Q : α → Prop) :
    Safe (fail name cause) Q :=
  trivial

private theorem safe_inRange {α : Type} {xs : List α} {i : Nat} (h : i < xs.length) {Q : α → Prop}
    (hQ : ∀ x ∈ xs, Q x) : Safe (liftM (Fault.inRange xs[i]?)) Q := by
  rw [safe_lift, List.getElem?_eq_getElem h]
  exact ⟨_, rfl, hQ _ (List.getElem_mem h)⟩

theorem safe_has (n : Nat) : Safe (has n name ins) fun _ => ins.length = n := by
  rw [has]
  exact safe_if (fun h => h) fun _ => safe_fail _ _

private theorem safe_hasBetween (low high : Nat) :
    Safe (hasBetween low high name ins) fun _ => low ≤ ins.length := by
  rw [hasBetween]
  exact safe_if (fun h => h.1) fun _ => safe_fail _ _

private theorem safe_hasAtLeast (low : Nat) :
    Safe (hasAtLeast low name ins) fun _ => low ≤ ins.length := by
  rw [hasAtLeast]
  exact safe_if (fun h => h) fun _ => safe_fail _ _

private theorem safe_without (bad : Shape → Bool) (cause : Shape → InferenceError) :
    Safe (without bad cause name ins) fun _ => ∀ s ∈ ins, bad s = false := by
  cases h : without bad cause name ins with
  | ok _ => exact without_eq_ok.1 h
  | error e =>
    rw [without] at h
    split at h
    · cases h
      trivial
    · cases h

private theorem safe_notTuple : Safe (notTuple name ins) fun _ => ∀ s ∈ ins, s.isTuple = false :=
  safe_without _ _

theorem safe_onlyStatic : Safe (onlyStatic name ins) fun _ => ∀ s ∈ ins, s.isDynamic = false := by
  rw [onlyStatic, safe_bind]
  exact safe_notTuple.mono fun _ _ => safe_without _ _

private theorem safe_agree {α : Type} [DecidableEq α] (property : Shape → α)
    (cause : Shape → Shape → InferenceError) :
    Safe (agree property cause name ins) fun _ => ∀ s ∈ ins, ∀ t ∈ ins, property s = property t := by
  cases ins with
  | nil => simp [agree]
  | cons first rest =>
    rw [agree]
    refine (safe_without _ _).mono fun _ h s hs t ht => ?_
    have hfirst : ∀ u ∈ first :: rest, property u = property first := fun u hu => by simpa using h u hu
    rw [hfirst s hs, hfirst t ht]

private theorem safe_minRank (n : Nat) :
    Safe (minRank n name ins) fun _ => ∀ s ∈ ins, n ≤ s.rank := by
  rw [minRank]
  exact (safe_without _ _).mono fun _ h s hs => by simpa using h s hs

private theorem safe_sameDims : Safe (sameDims name ins) fun _ => ∀ s ∈ ins, s.isTuple = false := by
  rw [sameDims, safe_bind]
  exact safe_notTuple.mono fun _ ht => (safe_agree _ _).mono fun _ _ => ht

private theorem safe_pointwiseShape (hne : ins ≠ []) (h : ∀ s ∈ ins, s.Sound) :
    Safe (pointwiseShape ins) Shape.Aligned := by
  cases ins with
  | nil => exact absurd rfl hne
  | cons first rest =>
    have hfirst : first.Aligned := (h first List.mem_cons_self).aligned
    have hall : ∀ l ⊆ first :: rest, Safe (l.allM fun s => do
        return (← (liftM s.isPacked : Infer Bool)) && s.strides == first.strides) fun _ => True := by
      intro l
      induction l with
      | nil => exact fun _ => trivial
      | cons s l ih =>
        intro hl
        obtain ⟨hs, hl⟩ := List.cons_subset.1 hl
        obtain ⟨b, hb⟩ := Shape.isPacked_eq_ok (h s hs).addressable
        rw [List.allM, safe_bind, safe_bind, safe_lift]
        refine ⟨b, hb, ?_⟩
        rw [safe_pure]
        split
        · exact ih hl
        · trivial
    rw [pointwiseShape, safe_bind, safe_lift]
    refine ⟨first, rfl, safe_if (fun _ => hfirst) fun _ => ?_⟩
    rw [safe_bind]
    refine (hall _ (List.Subset.refl _)).mono fun b _ => ?_
    exact safe_if (fun _ => hfirst) fun _ => hfirst.asStandard

private theorem safe_permute {α : Type} {permutation : List Nat} {xs : List α}
    (h : ∀ p ∈ permutation, p < xs.length) :
    Safe (permute permutation xs) fun ys => ys.length = permutation.length := by
  have hmap := safe_mapM (f := fun p => (liftM (Fault.inRange xs[p]?) : Infer α))
    (R := fun _ _ => True) (l := permutation) fun p hp => safe_inRange (h p hp) fun _ _ => trivial
  exact hmap.mono fun ys hys => hys.length_eq.symm

private theorem lt_of_isPermutation {permutation : List Nat} {rank : Nat}
    (h : isPermutation permutation rank = true) : ∀ p ∈ permutation, p < rank := by
  simp only [isPermutation, Bool.and_eq_true, List.all_eq_true, decide_eq_true_eq] at h
  exact h.1.2

private theorem safe_transposeShape (permutation : List Nat) (h : s.Aligned) :
    Safe (transposeShape name s permutation) Shape.Aligned := by
  rw [transposeShape]
  refine safe_if (fun _ => safe_fail _ _) fun hp => ?_
  have hlt := lt_of_isPermutation (by simpa using hp)
  cases hd : s.isDynamic with
  | true =>
    have hrank : s.rank = s.dynamicDims.length := by simp [Shape.rank, hd]
    simp only [if_true, safe_bind, safe_pure]
    exact (safe_permute (hrank ▸ hlt)).mono fun _ _ => Shape.aligned_dynamic _ _
  | false =>
    rw [Shape.rank_of_static hd] at hlt
    simp only [Bool.false_eq_true, if_false, safe_bind]
    refine (safe_permute hlt).mono fun lens hlens => ?_
    refine (safe_permute (h.len ▸ hlt)).mono fun strides hstrides => ?_
    rw [safe_lift]
    exact Shape.strided_eq_ok (hstrides.trans hlens.symm)

private theorem safe_setAt {α : Type} {xs : List α} {i : Nat} (h : i < xs.length) (a : α)
    {Q : List α → Prop} (hQ : Q (xs.set i a)) : Safe (liftM (Fault.setAt xs i a)) Q := by
  rw [safe_lift, Fault.setAt, if_pos h]
  exact ⟨_, rfl, hQ⟩

private theorem safe_slice {α : Type} {xs : List α} {start stop : Nat} (hle : start ≤ stop)
    (h : stop ≤ xs.length) {Q : List α → Prop} (hQ : Q ((xs.drop start).take (stop - start))) :
    Safe (liftM (Fault.slice xs start stop)) Q := by
  rw [safe_lift, Fault.slice, if_pos ⟨hle, h⟩]
  exact ⟨_, rfl, hQ⟩

private theorem safe_sub {a b : Nat} (h : b ≤ a) {Q : Nat → Prop} (hQ : Q (a - b)) :
    Safe (liftM (Word.sub a b)) Q := by
  rw [safe_lift, Word.sub_eq_ok h]
  exact ⟨_, rfl, hQ⟩

private theorem safe_requestedLen (axis : Nat) (d : Int) :
    Safe (requestedLen name s axis d) fun _ => True := by
  rw [requestedLen]
  refine safe_if (fun _ => ?_) fun _ => safe_if (fun _ => trivial) fun _ =>
    safe_if (fun _ => trivial) fun _ => safe_fail _ _
  split
  · trivial
  · exact safe_fail _ _

private theorem safe_inferredLen (elements known : Nat) (dims : List Int) :
    Safe (inferredLen name elements known dims) fun n => known ≠ 0 ∧ n = elements / known := by
  rw [inferredLen]
  refine safe_if (fun _ => safe_fail _ _) fun hne => ?_
  rw [safe_bind, safe_lift]
  refine ⟨_, Word.rem_eq_ok hne, safe_if (fun _ => safe_fail _ _) fun _ => ?_⟩
  rw [safe_lift]
  exact ⟨_, Word.div_eq_ok hne, hne, rfl⟩

/-- The lengths of a reshape have a product, also with the inferred one in place. -/
theorem safe_completedLens {dims : List Int} {lens : List Nat} {elements known : Nat}
    (hlen : dims.length = lens.length) (hknown : lens.foldlM Word.mul? 1 = some known)
    (helements : elements < Word.limit) :
    Safe (completedLens name dims lens elements known) fun ls => ∃ c, Word.product ls = .ok c := by
  have hmul := Word.foldlM_mul_of_mul? hknown
  have hprod := Word.foldlM_mul_eq_prod hmul
  rw [completedLens]
  split
  · rename_i axis haxis
    obtain ⟨hlt, -⟩ := List.findIdx?_eq_some_iff_getElem.1 haxis
    rw [hlen] at hlt
    rw [safe_bind]
    refine (safe_inferredLen elements known dims).mono fun n hn => safe_setAt hlt n ?_
    obtain ⟨hpos, rfl⟩ := hn
    refine ⟨_, Word.foldlM_mul_eq_ok ?_⟩
    have hmax : (lens.map (max · 1)).prod = known := by
      rw [hprod, Nat.one_mul] at hpos ⊢
      refine Word.prod_max_eq ?_
      rintro n hn rfl
      exact hpos (List.prod_eq_zero hn)
    have hone : known * 1 < Word.limit := by
      rw [Nat.mul_one]
      exact Word.foldlM_mul_lt (by decide) hmul
    have hdiv : known * (elements / known) < Word.limit :=
      Nat.lt_of_le_of_lt (Nat.mul_div_le elements known) helements
    calc 1 * ((lens.set axis (elements / known)).map (max · 1)).prod
        ≤ known * max (elements / known) 1 := by
          rw [Nat.one_mul, ← hmax]
          exact Word.prod_max_set_le _ _ _
      _ < Word.limit := by
          rcases Nat.le_total (elements / known) 1 with hq | hq
          · rwa [Nat.max_eq_right hq]
          · rwa [Nat.max_eq_left hq]
  · exact ⟨known, hmul⟩

theorem safe_reshapeShape (dims : List Int) (h : s.addressable) :
    Safe (reshapeShape name s dims) Shape.Aligned := by
  rw [reshapeShape]
  refine safe_if (fun _ => safe_fail _ _) fun _ => ?_
  rw [safe_bind]
  refine (safe_mapM (R := fun _ _ => True) fun p _ => safe_requestedLen p.2 p.1).mono
    fun lens hlens => ?_
  have hlen : dims.length = lens.length := by rw [← hlens.length_eq, List.length_zipIdx]
  split
  · exact safe_fail _ _
  rename_i known hknown
  obtain ⟨elements, he⟩ := Shape.elements_eq_ok h
  rw [safe_bind, safe_lift]
  refine ⟨elements, he, ?_⟩
  rw [safe_bind]
  refine (safe_completedLens hlen hknown (Shape.elements_lt he)).mono fun completed hproduct => ?_
  rw [safe_bind, safe_lift]
  obtain ⟨count, hc⟩ := s.exists_elements_withLens hproduct
  exact ⟨count, hc, safe_if (fun _ => Shape.aligned_packedOf _ _) fun _ => safe_fail _ _⟩

private theorem safe_standAt (lens : List Nat) (axis rank : Nat) (outLens : List Nat) :
    Safe (liftM (standAt lens axis rank outLens)) fun fits => fits → axis + rank ≤ outLens.length := by
  rw [safe_lift, standAt]
  split
  · rename_i stop hstop
    obtain ⟨-, rfl⟩ := Word.add?_eq_some.1 hstop
    split
    · rename_i hle
      rw [Fault.slice, if_pos ⟨Nat.le_add_right _ _, hle⟩]
      exact ⟨_, rfl, fun _ => hle⟩
    · exact ⟨false, rfl, by simp⟩
  · exact ⟨false, rfl, by simp⟩

private theorem safe_broadcastShape (axis : Nat) (outLens : List Nat) (h : s.Aligned)
    (hd : s.isDynamic = false) : Safe (broadcastShape name s axis outLens) Shape.Aligned := by
  rw [broadcastShape, Shape.rank_of_static hd, safe_bind]
  refine (safe_standAt _ _ _ _).mono fun fits hle => safe_if (fun hfits => ?_) fun _ => safe_fail _ _
  have hle := hle hfits
  rw [safe_lift]
  refine Shape.strided_eq_ok ?_
  simp only [List.length_append, List.length_replicate, h.len]
  omega

/-- Reading at a position that is there. -/
theorem safe_inRange_bind {α : Type} {xs : List Nat} {i : Nat} {f : Nat → Infer α} {Q : α → Prop}
    (hi : i < xs.length) (hf : ∀ n, Safe (f n) Q) : Safe (liftM (Fault.inRange xs[i]?) >>= f) Q := by
  rw [safe_bind]
  exact safe_inRange hi fun n _ => hf n

private theorem safe_multibroadcastShape (outLens : List Nat) (h : s.Aligned)
    (hd : s.isDynamic = false) : Safe (multibroadcastShape name s outLens) Shape.Aligned := by
  rw [multibroadcastShape, Shape.rank_of_static hd]
  refine safe_if (fun _ => safe_fail _ _) fun hle => ?_
  rw [safe_bind]
  refine safe_sub (by omega) ?_
  rw [safe_bind]
  refine (safe_mapM (R := fun _ _ => True) fun axis haxis => ?_).mono fun strides hs => ?_
  · have haxis := List.mem_range.1 haxis
    refine safe_inRange_bind haxis fun len => safe_inRange_bind (by omega) fun outLen => ?_
    refine safe_if (fun _ => safe_inRange (by rwa [h.len]) fun _ _ => trivial) fun _ => ?_
    exact safe_if (fun _ => trivial) fun _ => safe_fail _ _
  · have hlen := hs.length_eq
    rw [List.length_range] at hlen
    rw [safe_lift]
    refine Shape.strided_eq_ok ?_
    rw [List.length_append, List.length_replicate]
    omega

private theorem safe_padShape (pads : List Nat) (hd : s.isDynamic = false) :
    Safe (padShape name s pads) Shape.Aligned := by
  rw [padShape, Shape.rank_of_static hd]
  refine safe_if (fun _ => safe_fail _ _) fun hlen => ?_
  rw [safe_bind]
  refine (safe_mapM (R := fun _ _ => True) fun axis haxis => ?_).mono fun _ _ =>
    Shape.aligned_packedOf _ _
  have haxis := List.mem_range.1 haxis
  have hrank := Shape.rank_of_static hd
  refine safe_inRange_bind haxis fun len => safe_inRange_bind (by omega) fun first =>
    safe_inRange_bind (by omega) fun last => ?_
  split
  · trivial
  · exact safe_fail _ _

/-- The attributes of a window are as many as there are axes. -/
structure Window.Fits (window : Window) (axes : Nat) : Prop where
  padding : window.padding.length = 2 * axes ∨ window.padding.length = axes
  stride : window.stride.length = axes
  dilation : window.dilation.length = axes

private theorem safe_windowLen {x w : List Nat} {window : Window} {axes axis : Nat}
    (h : Window.Fits window axes) (haxis : axis < axes) (hx : x.length = axes + 2)
    (hw : w.length = x.length) : Safe (windowLen name x w window axes axis) fun _ => True := by
  obtain ⟨hp, hs, hd⟩ := h
  rw [windowLen]
  refine safe_inRange_bind (by omega) fun len => safe_inRange_bind (by omega) fun kernel =>
    safe_inRange_bind (by omega) fun first => ?_
  extract_lets count
  have hcount : ∀ last, Safe (count last) fun _ => True := by
    intro last
    refine safe_inRange_bind (by omega) fun dilation => safe_inRange_bind (by omega) fun stride => ?_
    dsimp only
    split
    · rename_i padded span hpadded hspan
      refine safe_if (fun _ => ?_) fun hle => ?_
      · rw [safe_bind]
        refine safe_slice (by omega) (Nat.le_refl _) ?_
        rw [safe_bind]
        exact safe_slice (by omega) (Nat.le_refl _) (safe_fail _ _)
      · obtain ⟨_, -, hlast⟩ := Option.bind_eq_some_iff.1 hpadded
        obtain ⟨hlt, rfl⟩ := Word.add?_eq_some.1 hlast
        obtain ⟨_, -, hone⟩ := Option.bind_eq_some_iff.1 hspan
        obtain ⟨-, rfl⟩ := Word.add?_eq_some.1 hone
        rw [places_eq_ok hlt (Nat.succ_pos _) (by omega) (by omega)]
        trivial
    · exact safe_fail _ _
  refine safe_if (fun _ => hcount first) fun hne => ?_
  exact safe_inRange_bind (by omega) hcount

private theorem safe_convolutionShape {weights : Shape} (window : Window)
    (hrank : weights.lens.length = s.lens.length) (hle : 3 ≤ s.lens.length) :
    Safe (convolutionShape name s weights window) Shape.Aligned := by
  rw [convolutionShape, safe_bind]
  refine safe_sub (by omega) ?_
  refine safe_if (fun _ => safe_fail _ _) fun hp => safe_if (fun _ => safe_fail _ _) fun hc => ?_
  refine safe_inRange_bind (by omega) fun batch => safe_inRange_bind (by omega) fun channels =>
    safe_inRange_bind (by omega) fun features => safe_inRange_bind (by omega) fun weightChannels => ?_
  refine safe_if (fun _ => safe_fail _ _) fun _ => ?_
  rw [safe_bind]
  refine (safe_mapM (R := fun _ _ => True) fun axis haxis => ?_).mono fun lens _ =>
    Shape.aligned_packedOf _ _
  exact safe_windowLen ⟨by omega, by omega, by omega⟩ (List.mem_range.1 haxis) (by omega) hrank

private theorem safe_dotShape {left right : Shape} (hrank : right.lens.length = left.lens.length)
    (hle : 2 ≤ left.lens.length) : Safe (dotShape name left right) Shape.Aligned := by
  rw [dotShape, safe_bind]
  refine safe_sub hle ?_
  rw [safe_bind]
  refine safe_slice (Nat.zero_le _) (by omega) ?_
  rw [safe_bind]
  refine safe_slice (Nat.zero_le _) (by omega) ?_
  refine safe_if (fun _ => safe_fail _ _) fun _ => ?_
  refine safe_inRange_bind (by omega) fun inner => safe_inRange_bind (by omega) fun inner' =>
    safe_inRange_bind (by omega) fun columns => ?_
  refine safe_if (fun _ => safe_fail _ _) fun _ => ?_
  rw [safe_bind]
  exact safe_setAt (by omega) _ (Shape.aligned_packedOf _ _)

private theorem safe_reduceShape (axes : List Nat) :
    Safe (reduceShape name s axes) Shape.Aligned := by
  have hlens : ∀ lens, Safe (axes.foldlM (reduceAxis name) lens) fun _ => True := by
    induction axes with
    | nil => exact fun _ => trivial
    | cons axis axes ih =>
      intro lens
      rw [List.foldlM_cons, safe_bind, reduceAxis]
      exact safe_if (fun _ => safe_fail _ _) fun hlt => safe_setAt (by omega) _ (ih _)
  rw [reduceShape, safe_bind]
  exact (hlens s.lens).mono fun lens _ => Shape.aligned_packedOf _ _

private theorem safe_quantizeShape (scale : Shape) (zeroPoint : Option Shape) :
    Safe (quantizeShape name s scale zeroPoint) Shape.Aligned := by
  rw [quantizeShape]
  exact safe_if (fun _ => safe_fail _ _) fun _ => Shape.aligned_packedOf _ _

private theorem safe_dequantizeShape (scale : Shape) (zeroPoint : Option Shape) :
    Safe (dequantizeShape name s scale zeroPoint) Shape.Aligned := by
  unfold dequantizeShape
  split
  · exact safe_if (fun _ => safe_fail _ _) fun _ => Shape.aligned_packedOf _ _
  · exact Shape.aligned_packedOf _ _

private theorem safe_branchShape (h : s.addressable) (hmods : ∀ outs ∈ mods, ∀ u ∈ outs, u.Aligned) :
    Safe (branchShape name s mods) Shape.Aligned := by
  obtain ⟨c, hc⟩ := Shape.elements_eq_ok h
  unfold branchShape
  extract_lets decided
  have hdecided : ∀ b, Safe (decided b) Shape.Aligned := by
    intro b
    refine safe_if (fun _ => safe_fail _ _) fun _ => ?_
    split
    · exact safe_if (fun _ => Shape.aligned_tuple (hmods _ (by simp))) fun _ => safe_fail _ _
    · exact safe_fail _ _
  refine safe_if (fun _ => ?_) fun _ => hdecided false
  rw [safe_bind, safe_lift]
  exact ⟨c, hc, hdecided _⟩

private theorem safe_loopShape (maxIterations : Nat) (hins : ∀ u ∈ ins, u.Aligned) :
    Safe (loopShape name ins mods maxIterations) Shape.Aligned := by
  unfold loopShape
  split
  · refine safe_if (fun _ => safe_fail _ _) fun hlen => ?_
    rw [safe_bind]
    refine safe_slice (Nat.le_add_right _ _) (by omega) (safe_if (fun _ => safe_fail _ _) fun _ => ?_)
    rw [safe_bind]
    refine safe_slice (by omega) (Nat.le_refl _) (Shape.aligned_tuple fun u hu => ?_)
    rcases List.mem_append.1 hu with hu | hu
    · exact hins u hu
    · obtain ⟨v, -, rfl⟩ := List.mem_map.1 hu
      exact Shape.aligned_packedOf _ _
  · exact safe_fail _ _

end Inference

open Inference TensorGraph.Except
variable {ins : List Shape} {mods : List (List Shape)} {s t : Shape}

/-- The shapes among the attributes have a stride for each length. -/
def Aligned : Operator → Prop
  | literal value => value.shape.Aligned
  | parameter _ shape | allocate shape => shape.Aligned
  | _ => True

/-- Every operator refuses its inputs or gives a shape with a stride for each length. -/
theorem safe_rawShape (op : Operator) (hop : op.Aligned) (hins : ∀ u ∈ ins, u.Sound)
    (hmods : ∀ outs ∈ mods, ∀ u ∈ outs, u.Sound) : Safe (op.rawShape ins mods) Shape.Aligned := by
  have hread : ∀ {i : Nat} {f : Shape → Infer Shape}, i < ins.length →
      (∀ s ∈ ins, Safe (f s) Shape.Aligned) →
      Safe (liftM (Fault.inRange ins[i]?) >>= f) Shape.Aligned := by
    intro i f hi hf
    rw [safe_bind]
    exact safe_inRange hi hf
  have hpointwise : ins ≠ [] → Safe (pointwiseShape ins) Shape.Aligned :=
    fun hne => safe_pointwiseShape hne hins
  have hne : ∀ {n : Nat}, ins.length = n + 1 → ins ≠ [] := fun hlen => List.ne_nil_of_length_eq_add_one hlen
  cases op with
  | literal value => exact safe_seq (safe_has 0) fun _ => hop
  | parameter name shape => exact safe_seq (safe_has 0) fun _ => hop
  | allocate shape => exact safe_seq (safe_has 0) fun _ => hop
  | output =>
    rcases ins with _ | ⟨a, _ | ⟨b, rest⟩⟩
    · exact Shape.aligned_tuple nofun
    · exact (hins a List.mem_cons_self).aligned
    · exact Shape.aligned_tuple fun u hu => (hins u hu).aligned
  | undefined => exact safe_seq (safe_has 0) fun _ => Shape.aligned_packedOf _ _
  | identity =>
    refine safe_seq (safe_has 1) fun hlen => ?_
    exact safe_inRange (by omega) fun s hs => (hins s hs).aligned
  | contiguous =>
    refine safe_seq (safe_has 1) fun hlen => safe_seq safe_notTuple fun _ => ?_
    exact hread (by omega) fun s hs => (hins s hs).aligned.asStandard
  | convert target =>
    refine safe_seq (safe_has 1) fun hlen => safe_seq safe_notTuple fun _ => ?_
    have hone : (ins.drop 0).take (1 - 0) = ins := List.take_of_length_le (by simp [hlen])
    rw [safe_bind]
    refine safe_slice (Nat.zero_le 1) (by omega) ?_
    rw [hone, safe_bind]
    exact (hpointwise (hne hlen)).mono fun s hs => hs.withType target
  | unary f =>
    refine safe_seq (safe_has 1) fun hlen => safe_seq safe_notTuple fun _ => ?_
    exact hpointwise (hne hlen)
  | binary f =>
    refine safe_seq (safe_has 2) fun hlen => safe_seq (safe_agree _ _) fun _ => ?_
    exact safe_seq safe_sameDims fun _ => hpointwise (hne hlen)
  | clip =>
    refine safe_seq (safe_has 3) fun hlen => safe_seq (safe_agree _ _) fun _ => ?_
    exact safe_seq safe_sameDims fun _ => hpointwise (hne hlen)
  | transpose permutation =>
    refine safe_seq (safe_has 1) fun hlen => safe_seq safe_notTuple fun _ => ?_
    exact hread (by omega) fun s hs => safe_transposeShape permutation (hins s hs).aligned
  | reshape dims =>
    refine safe_seq (safe_has 1) fun hlen => safe_seq safe_onlyStatic fun _ => ?_
    exact hread (by omega) fun s hs => safe_reshapeShape dims (hins s hs).addressable
  | broadcast axis outLens =>
    refine safe_seq (safe_has 1) fun hlen => safe_seq safe_onlyStatic fun hd => ?_
    exact hread (by omega) fun s hs => safe_broadcastShape axis outLens (hins s hs).aligned (hd s hs)
  | multibroadcast outLens =>
    refine safe_seq (safe_has 1) fun hlen => safe_seq safe_onlyStatic fun hd => ?_
    exact hread (by omega) fun s hs => safe_multibroadcastShape outLens (hins s hs).aligned (hd s hs)
  | pad pads mode value =>
    refine safe_seq (safe_has 1) fun hlen => safe_seq safe_onlyStatic fun hd => ?_
    exact hread (by omega) fun s hs => safe_padShape pads (hd s hs)
  | convolution window =>
    refine safe_seq (safe_has 2) fun hlen => safe_seq safe_onlyStatic fun hd =>
      safe_seq (safe_agree _ _) fun _ => safe_seq (safe_agree _ _) fun hrank =>
        safe_seq (safe_minRank 3) fun hmin => ?_
    refine hread (by omega) fun s hs => hread (by omega) fun w hw => ?_
    have hs' := Shape.rank_of_static (hd s hs)
    have hw' := Shape.rank_of_static (hd w hw)
    exact safe_convolutionShape window (hw'.symm.trans ((hrank w hw s hs).trans hs')) (hs' ▸ hmin s hs)
  | dot =>
    refine safe_seq (safe_has 2) fun hlen => safe_seq safe_onlyStatic fun hd =>
      safe_seq (safe_agree _ _) fun _ => safe_seq (safe_agree _ _) fun hrank =>
        safe_seq (safe_minRank 2) fun hmin => ?_
    refine hread (by omega) fun s hs => hread (by omega) fun w hw => ?_
    have hs' := Shape.rank_of_static (hd s hs)
    have hw' := Shape.rank_of_static (hd w hw)
    exact safe_dotShape (hw'.symm.trans ((hrank w hw s hs).trans hs')) (hs' ▸ hmin s hs)
  | reduceMean axes =>
    refine safe_seq (safe_has 1) fun hlen => safe_seq safe_onlyStatic fun _ => ?_
    exact hread (by omega) fun s _ => safe_reduceShape axes
  | layernorm epsilon =>
    refine safe_seq (safe_has 1) fun hlen => safe_seq safe_notTuple fun _ =>
      safe_seq (safe_minRank 1) fun _ => ?_
    exact hread (by omega) fun s hs => (hins s hs).aligned.asStandard
  | quantizeLinear =>
    refine safe_seq (safe_hasBetween 2 3) fun hlen => safe_seq safe_onlyStatic fun _ =>
      safe_seq (safe_agree _ _) fun _ => ?_
    exact hread (by omega) fun s _ => hread (by omega) fun scale _ => safe_quantizeShape scale _
  | dequantizeLinear =>
    refine safe_seq (safe_hasBetween 2 3) fun hlen => safe_seq safe_onlyStatic fun _ =>
      safe_seq (safe_agree _ _) fun _ => ?_
    exact hread (by omega) fun s _ => hread (by omega) fun scale _ => safe_dequantizeShape scale _
  | branch =>
    refine safe_seq (safe_has 1) fun hlen => ?_
    refine hread (by omega) fun s hs => safe_branchShape (hins s hs).addressable ?_
    exact fun outs houts u hu => (hmods outs houts u hu).aligned
  | loop maxIterations =>
    refine safe_seq (safe_hasAtLeast 2) fun hlen => ?_
    rw [safe_bind]
    refine safe_slice hlen (Nat.le_refl _) (safe_loopShape maxIterations fun u hu => ?_)
    exact (hins u (List.mem_of_mem_drop (List.mem_of_mem_take hu))).aligned
  | getTupleElem index =>
    refine safe_seq (safe_has 1) fun hlen => hread (by omega) fun s hs => ?_
    dsimp only
    split
    · exact (hins s hs).aligned.all (List.mem_of_getElem? ‹_›)
    · exact safe_fail _ _

theorem safe_inferShape (op : Operator) (hop : op.Aligned) (hins : ∀ u ∈ ins, u.Sound)
    (hmods : ∀ outs ∈ mods, ∀ u ∈ outs, u.Sound) : Safe (op.inferShape ins mods) Shape.Sound := by
  rw [inferShape, safe_bind]
  refine (safe_rawShape op hop hins hmods).mono fun t ht => ?_
  exact safe_if (fun ha => ⟨ht, ha⟩) fun _ => safe_fail _ _

private theorem aligned_of_shapes {op : Operator} (h : ∀ s ∈ op.shapes, s.Aligned) : op.Aligned := by
  cases op with
  | literal | parameter | allocate => exact h _ List.mem_cons_self
  | _ => trivial

/-- A sound shape that comes from regular ones is regular. -/
theorem Origin.regular {op : Operator} (h : Origin op ins mods t) (hop : ∀ s ∈ op.shapes, s.Regular)
    (hins : ∀ s ∈ ins, s.Regular) (hmods : ∀ outs ∈ mods, ∀ s ∈ outs, s.Regular) (ht : t.Sound) :
    t.Regular := by
  refine .mk ht.addressable ht.aligned.len fun u hu => ?_
  cases h with
  | embedded hs => exact (hop t hs).all hu
  | input hs => exact (hins t hs).all hu
  | part hs hpart => exact ((hins _ hs).all hpart).all hu
  | converted hs _ _ => exact (hins _ hs).all hu
  | plain hplain =>
    rw [hplain.subs] at hu
    cases hu
  | outputs houts => exact hmods _ houts u hu
  | tuple hsubs =>
    rcases hsubs u hu with hs | hplain
    · exact hins u hs
    · refine .mk (Shape.addressable_of_mem ht.addressable hu) hplain.strides fun v hv => ?_
      rw [hplain.subs] at hv
      cases hv

/-- Inference is total and closed on regular shapes. Whatever its attributes, every operator gives a
regular shape or refuses with an error; it never overflows, divides by zero or reads out of range. -/
theorem inferShape_total (op : Operator) (hop : ∀ s ∈ op.shapes, s.Regular)
    (hins : ∀ s ∈ ins, s.Regular) (hmods : ∀ outs ∈ mods, ∀ s ∈ outs, s.Regular) :
    (∃ t, op.inferShape ins mods = .ok t ∧ t.Regular) ∨
      ∃ error, op.inferShape ins mods = .error (.refused error) := by
  have hsafe : Safe (op.inferShape ins mods) Shape.Sound :=
    op.safe_inferShape (aligned_of_shapes fun s hs => (hop s hs).sound.aligned)
      (fun s hs => (hins s hs).sound) fun outs houts s hs => (hmods outs houts s hs).sound
  cases h : op.inferShape ins mods with
  | ok t =>
    have horigin := origin_of_rawShape (inferShape_eq_ok.1 h).1
    exact .inl ⟨t, rfl, horigin.regular hop hins hmods (hsafe.ok h)⟩
  | error e =>
    obtain ⟨error, rfl⟩ := hsafe.refused h
    exact .inr ⟨error, rfl⟩

/-- A loop that carries a tuple with a transposed and a dynamic part, and that collects values up to
the largest size there is. -/
theorem inferShape_total_loop :
    let pair := Shape.tuple [⟨.float, [2, 3], [1, 2], [], []⟩, .dynamic .half [⟨1, 8, [4]⟩]]
    let ins := [.scalar .int64, .scalar .bool, pair]
    let body := [.scalar .bool, pair, Shape.packedOf .int8 [4294967296]]
    (∀ s ∈ ins, s.Regular) ∧ (∀ s ∈ body, s.Regular) ∧
      (∃ t, (loop 4294967295).inferShape ins [body] = .ok t ∧ t.Regular) ∧
        ∃ error, (loop 4294967296).inferShape ins [body] = .error (.refused error) := by
  intro pair ins body
  have hpair : pair.Regular := by
    refine .mk rfl rfl fun t ht => ?_
    simp only [pair, Shape.tuple, List.mem_cons, List.not_mem_nil, or_false] at ht
    rcases ht with rfl | rfl
    · exact .mk rfl rfl (by simp)
    · exact .mk rfl rfl (by simp [Shape.dynamic])
  have hplain : ∀ type lens, (Shape.packedOf type lens).addressable = true →
      (Shape.packedOf type lens).Regular := fun type lens ha =>
    .mk ha (Shape.length_standardStrides lens) (by simp [Shape.packedOf])
  have hins : ∀ s ∈ ins, s.Regular := by
    simp only [ins, List.forall_mem_cons, List.not_mem_nil, false_implies, implies_true, and_true]
    exact ⟨hplain _ _ rfl, hplain _ _ rfl, hpair⟩
  have hbody : ∀ s ∈ body, s.Regular := by
    simp only [body, List.forall_mem_cons, List.not_mem_nil, false_implies, implies_true, and_true]
    exact ⟨hplain _ _ rfl, hpair, hplain _ _ (by decide)⟩
  have htotal := fun n => inferShape_total (loop n) (by simp [shapes]) hins
    (by simpa using hbody : ∀ outs ∈ [body], ∀ s ∈ outs, s.Regular)
  have hfits : ((loop 4294967295).inferShape ins [body]).isOk = true := by decide +kernel
  have hlarge : ((loop 4294967296).inferShape ins [body]).isOk = false := by decide +kernel
  refine ⟨hins, hbody, (htotal _).resolve_right ?_, (htotal _).resolve_left ?_⟩
  · rintro ⟨error, herror⟩
    rw [herror] at hfits
    cases hfits
  · rintro ⟨t, ht, -⟩
    rw [ht] at hlarge
    cases hlarge

end TensorGraph.Operator
