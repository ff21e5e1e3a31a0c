import Mathlib.Data.List.Dedup
import Mathlib.Data.List.GetD
import TensorGraph.Proofs.Indexing
import TensorGraph.Proofs.Operator.Evaluation

/-! Means divide the elements of a tensor into groups. The index of an element, with the reduced axes at
zero, says to which sum it is added; every sum has the same number of addends, which is the product of the
lengths that are reduced. -/
namespace TensorGraph.Operator
namespace Evaluation
open TensorGraph.Shape Inference
variable {name : String} {lens idx axes reduced : List Nat} {q : Nat → Bool}

/-- The entries with `v` at the chosen axes. -/
def collapse (q : Nat → Bool) (v : Nat) (xs : List Nat) : List Nat :=
  xs.mapIdx fun axis x => if q axis then v else x

private theorem collapse_cons (q : Nat → Bool) (v x : Nat) (xs : List Nat) :
    collapse q v (x :: xs) = (if q 0 then v else x) :: collapse (fun axis => q (axis + 1)) v xs :=
  List.mapIdx_cons

private theorem getElem?_collapse (q : Nat → Bool) (v : Nat) (xs : List Nat) (axis : Nat) :
    (collapse q v xs)[axis]? = xs[axis]?.map fun x => if q axis then v else x :=
  List.getElem?_mapIdx

/-- Axes can be collapsed one after another. -/
theorem collapse_contains_cons (axis : Nat) (axes : List Nat) (v : Nat) (xs : List Nat) :
    collapse (axis :: axes).contains v xs = collapse axes.contains v (xs.set axis v) := by
  refine List.ext_getElem? fun i => ?_
  rw [getElem?_collapse, getElem?_collapse, List.getElem?_set]
  by_cases hi : axis = i
  · subst hi
    by_cases hlt : axis < xs.length
    · simp [hlt]
    · simp [hlt]
  · have hne : i ≠ axis := Ne.symm hi
    simp [hi, hne]

private theorem collapse_contains_nil (v : Nat) (xs : List Nat) : collapse [].contains v xs = xs := by
  refine List.ext_getElem? fun i => ?_
  rw [getElem?_collapse]
  simp

private theorem foldlM_setAt (v : Nat) {xs : List Nat} (h : ∀ axis ∈ axes, axis < xs.length) :
    axes.foldlM (Fault.setAt · · v) xs = .ok (collapse axes.contains v xs) := by
  induction axes generalizing xs with
  | nil => rw [collapse_contains_nil]; rfl
  | cons axis axes ih =>
    obtain ⟨haxis, haxes⟩ := List.forall_mem_cons.1 h
    rw [List.foldlM_cons, Fault.setAt, if_pos haxis, Except.ok_bind, collapse_contains_cons]
    exact ih fun a ha => by rw [List.length_set]; exact haxes a ha

/-- The axes of an accepted reduction are there, and have length one afterwards. -/
theorem of_reduceAxes (h : axes.foldlM (reduceAxis name) lens = .ok reduced) :
    (∀ axis ∈ axes, axis < lens.length) ∧ reduced = collapse axes.contains 1 lens := by
  induction axes generalizing lens with
  | nil =>
    cases h
    rw [collapse_contains_nil]
    exact ⟨by simp, rfl⟩
  | cons axis axes ih =>
    rw [List.foldlM_cons, Except.bind_eq_ok] at h
    obtain ⟨next, hnext, h⟩ := h
    rw [reduceAxis] at hnext
    split at hnext
    · cases hnext
    rename_i hlt
    rw [Nat.not_le] at hlt
    rw [Except.lift_eq_ok, Fault.setAt, if_pos hlt] at hnext
    cases hnext
    obtain ⟨haxes, rfl⟩ := ih h
    rw [collapse_contains_cons]
    simp only [List.length_set] at haxes
    exact ⟨List.forall_mem_cons.2 ⟨hlt, haxes⟩, rfl⟩

private theorem within_collapse (h : Within idx lens) :
    Within (collapse q 0 idx) (collapse q 1 lens) := by
  induction h generalizing q with
  | nil => exact .nil
  | cons hi _ ih =>
    rw [collapse_cons, collapse_cons]
    refine .cons ?_ ih
    split
    · exact Nat.one_pos
    · exact hi

/-- The lengths of the chosen axes and those of the others make up all of them. -/
theorem prod_collapse_mul (q : Nat → Bool) (lens : List Nat) :
    (collapse q 1 lens).prod * (collapse (fun axis => !q axis) 1 lens).prod = lens.prod := by
  induction lens generalizing q with
  | nil => rfl
  | cons n lens ih =>
    rw [collapse_cons, collapse_cons, List.prod_cons, List.prod_cons, List.prod_cons,
      ← ih fun axis => q (axis + 1)]
    cases q 0
    · simp [Nat.mul_assoc]
    · simp [Nat.mul_left_comm]

/-- The product of the lengths of distinct axes. -/
theorem prod_collapse_of_nodup (h : axes.Nodup) (lens : List Nat) :
    (collapse (fun axis => !axes.contains axis) 1 lens).prod = (axes.map (lens.getD · 1)).prod := by
  induction axes with
  | nil =>
    refine List.prod_eq_one fun n hn => ?_
    obtain ⟨i, hi⟩ := List.getElem?_of_mem hn
    rw [getElem?_collapse] at hi
    simpa [eq_comm] using (Option.map_eq_some_iff.1 hi).choose_spec.2
  | cons axis axes ih =>
    obtain ⟨hnot, h⟩ := List.nodup_cons.1 h
    have hset : collapse (fun a => !(axis :: axes).contains a) 1 lens =
        (collapse (fun a => !axes.contains a) 1 lens).set axis (lens.getD axis 1) := by
      refine List.ext_getElem? fun i => ?_
      rw [List.getElem?_set, getElem?_collapse, getElem?_collapse]
      by_cases hi : axis = i
      · subst hi
        by_cases hlt : axis < lens.length
        · simp [hlt, collapse]
        · simp [hlt, collapse]
      · have hne : i ≠ axis := Ne.symm hi
        simp [hi, hne]
    rw [hset, List.map_cons, List.prod_cons, ← ih h]
    by_cases hlt : axis < lens.length
    · refine Word.prod_set_of_one ?_
      rw [getElem?_collapse, List.getElem?_eq_getElem hlt]
      simp [hnot]
    · rw [List.set_eq_of_length_le (by simpa [collapse] using hlt), List.getD_eq_default _ _ (by omega),
        Nat.one_mul]

/-- Numbers below a product are pairs of numbers below its factors. -/
theorem countP_range_mul (P Q : Nat → Bool) (n m : Nat) :
    (List.range (n * m)).countP (fun i => P (i / m) && Q (i % m)) =
      (List.range n).countP P * (List.range m).countP Q := by
  induction n with
  | zero => simp
  | succ n ih =>
    have hrow : (List.range m).countP (fun j => P ((n * m + j) / m) && Q ((n * m + j) % m)) =
        (List.range m).countP fun j => P n && Q j := by
      refine List.countP_congr fun j hj => ?_
      have hlt := List.mem_range.1 hj
      have hdiv : (n * m + j) / m = n := by
        rw [Nat.mul_comm, Nat.mul_add_div (by omega), Nat.div_eq_of_lt hlt, Nat.add_zero]
      have hmod : (n * m + j) % m = j := by
        rw [Nat.mul_comm, Nat.mul_add_mod, Nat.mod_eq_of_lt hlt]
      rw [hdiv, hmod]
    rw [Nat.succ_mul, List.range_add, List.countP_append, List.countP_map, ih, List.range_succ,
      List.countP_append, Nat.add_mul]
    refine congrArg _ (hrow.trans ?_)
    cases hP : P n
    · simp [hP]
    · simp [hP]

/-- What an index leaves of a number, and the numbers that have the same index. -/
theorem unravel_div_mod (h : ∀ n ∈ lens, n ≠ 0) (i : Nat) :
    (unravel lens i).2 = i / lens.prod ∧ (unravel lens i).1 = (unravel lens (i % lens.prod)).1 := by
  have hsum := place_unravel_add lens i
  have hlt := place_rowStrides_lt (within_unravel h i)
  have hindex := unravel_place (within_unravel h i)
  rw [Word.prod_max_eq h] at hsum hlt
  generalize place (unravel lens i).1 (rowStrides lens) = p at hsum hlt hindex
  have hdiv : i / lens.prod = (unravel lens i).2 := by
    rw [← hsum, Nat.add_mul_div_right _ _ (by omega), Nat.div_eq_of_lt hlt, Nat.zero_add, hsum]
  have hmod : i % lens.prod = p := by
    rw [← hsum, Nat.add_mul_mod_self_right, Nat.mod_eq_of_lt hlt]
  rw [hdiv, hmod, hindex]
  exact ⟨rfl, rfl⟩

/-- Along one axis every entry of the result is that of one element, or the only one that of all. -/
theorem countP_range_axis {n k : Nat} (all : Bool) (hk : k < if all then 1 else n) :
    (List.range n).countP (fun j => (if all then 0 else j % n) = k) = if !all then 1 else n := by
  cases all
  · have heach : (List.range n).countP (fun j => j % n = k) = (List.range n).count k := by
      refine List.countP_congr fun j hj => ?_
      rw [Nat.mod_eq_of_lt (List.mem_range.1 hj), decide_eq_true_iff, beq_iff_eq]
    exact heach.trans (List.count_eq_one_of_mem List.nodup_range (List.mem_range.2 hk))
  · obtain rfl : k = 0 := Nat.lt_one_iff.1 hk
    refine (List.countP_eq_length.2 ?_).trans List.length_range
    simp

/-- Every index of the result is that of as many elements as the chosen axes have. -/
theorem countP_collapse (hpos : ∀ n ∈ lens, n ≠ 0) (h : Within idx (collapse q 1 lens)) :
    (List.range lens.prod).countP (fun i => collapse q 0 (unravel lens i).1 = idx) =
      (collapse (fun axis => !q axis) 1 lens).prod := by
  induction lens generalizing q idx with
  | nil =>
    cases h
    rfl
  | cons n lens ih =>
    obtain ⟨hn, hlens⟩ := List.forall_mem_cons.1 hpos
    rw [collapse_cons] at h
    cases h with
    | @cons k _ idx _ hk hidx =>
    have hsplit : ∀ i, decide (collapse q 0 (unravel (n :: lens) i).1 = k :: idx) =
        (decide ((if q 0 then 0 else i / lens.prod % n) = k) &&
          decide (collapse (fun axis => q (axis + 1)) 0 (unravel lens (i % lens.prod)).1 = idx)) := by
      intro i
      obtain ⟨hrest, hindex⟩ := unravel_div_mod hlens i
      have hmax : max n 1 = n := by omega
      rw [unravel_cons, collapse_cons, hrest, hindex, hmax, ← Bool.decide_and, decide_eq_decide,
        List.cons.injEq]
    rw [List.countP_congr fun i _ => Bool.eq_iff_iff.1 (hsplit i), List.prod_cons,
      collapse_cons, List.prod_cons, ← ih hlens hidx, ← countP_range_axis (q 0) hk]
    exact countP_range_mul (fun j => (if q 0 then 0 else j % n) = k)
      (fun i => collapse (fun axis => q (axis + 1)) 0 (unravel lens i).1 = idx) n lens.prod

variable {x : Literal} {out : Shape}

/-- The numbers of the elements that have an index once the reduced axes are at zero. -/
def addends (x : Literal) (axes idx : List Nat) : List Nat :=
  (List.range x.data.size).filter fun i => collapse axes.contains 0 (x.shape.multiIndex i) = idx

/-- Their sum, in the order of their numbers. -/
def sumAt (x : Literal) (axes idx : List Nat) : Float :=
  ((addends x axes idx).map (x.data.getD · 0)).foldl (· + ·) 0

/-- The product of the lengths of the distinct reduced axes. -/
def groupSize (lens axes : List Nat) : Nat :=
  (axes.dedup.map (lens.getD · 1)).prod

private theorem zipIdx_eq_map (data : Array Float) :
    data.toList.zipIdx = (List.range data.size).map fun i => (data.getD i 0, i) := by
  refine List.ext_getElem (by simp) fun i hi _ => ?_
  have hlt : i < data.size := by simpa using hi
  simp [hlt]

/-- Every sum collects the values whose place it is, in their order. -/
theorem meanSums_collects (x : Literal) (axes strides : List Nat) (slot : Nat → Nat)
    (sums : Array Float)
    (h : ∀ i, ∃ idx, axes.foldlM (Fault.setAt · · 0) (x.shape.multiIndex i) = .ok idx ∧
      Word.dot idx strides = .ok (slot i) ∧ slot i < sums.size) :
    ∃ r, meanSums x axes strides sums = .ok r ∧ r.size = sums.size ∧
      ∀ o z, sums[o]? = some z → r[o]? =
        some ((((List.range x.data.size).filter fun i => slot i = o).map (x.data.getD · 0)).foldl (· + ·) z) := by
  rw [meanSums, zipIdx_eq_map]
  generalize List.range x.data.size = numbers
  -- over the numbers, since a sum goes on from where the last value left it
  induction numbers generalizing sums with
  | nil => exact ⟨sums, rfl, rfl, fun o z ho => ho⟩
  | cons i numbers ih =>
    obtain ⟨idx, hidx, hdot, hlt⟩ := h i
    obtain ⟨r, hr, hsize, hget⟩ := ih (sums.modify (slot i) (· + x.data.getD i 0)) fun j => by
      rw [Array.size_modify]
      exact h j
    refine ⟨r, ?_, hsize.trans Array.size_modify, fun o z ho => ?_⟩
    · rw [List.map_cons, List.foldlM_cons]
      dsimp only
      rw [hidx, Except.ok_bind, hdot, Except.ok_bind, if_pos hlt]
      exact hr
    · by_cases hslot : slot i = o
      · subst hslot
        rw [List.filter_cons_of_pos (by simp), List.map_cons, List.foldl_cons]
        exact hget _ _ (by simp [Array.getElem?_modify, ho])
      · rw [List.filter_cons_of_neg (by simpa using hslot)]
        exact hget _ _ (by simp [Array.getElem?_modify, hslot, ho])

private theorem groupSize_eq (lens axes : List Nat) :
    groupSize lens axes = (collapse (fun axis => !axes.contains axis) 1 lens).prod := by
  have hcontains : axes.dedup.contains = axes.contains := by
    funext axis
    rw [Bool.eq_iff_iff, List.contains_iff_mem, List.contains_iff_mem, List.mem_dedup]
  rw [groupSize, ← prod_collapse_of_nodup (List.nodup_dedup axes), hcontains]

/-- An accepted reduction of a tensor that has elements. -/
structure Reduction (x : Literal) (axes : List Nat) (out : Shape) : Prop where
  lens : out.lens = collapse axes.contains 1 x.shape.lens
  axes : ∀ axis ∈ axes, axis < x.shape.lens.length
  pos : ∀ n ∈ x.shape.lens, n ≠ 0
  size : x.data.size = x.shape.lens.prod
  dense : out.Dense
  count : out.elements = .ok out.lens.prod

private theorem reduction_of_reduceShape (hsize : x.shape.elements = .ok x.data.size)
    (hne : x.data.size ≠ 0) (h : reduceShape name x.shape axes = .ok out)
    (ht : out.isTuple = false) (ha : out.addressable) :
    Reduction x axes out := by
  obtain ⟨reduced, hreduced, h⟩ := Except.bind_eq_ok.1 h
  cases h
  obtain ⟨haxes, hlens⟩ := of_reduceAxes hreduced
  obtain ⟨⟨hst, hsd⟩, hnil, hpos⟩ := of_elements_ne_zero hsize hne
  have hwithin : Within (collapse axes.contains 0 (x.shape.multiIndex 0)) reduced :=
    hlens ▸ within_collapse (within_multiIndex hpos 0)
  refine ⟨hlens, haxes, hpos, (eq_prod_of_elements hst hsd hnil hsize).1,
    ⟨⟨rfl, rfl, (addressable_of_not_tuple ht ha).1⟩, hwithin.ne_zero⟩, ?_⟩
  refine elements_eq_prod ht rfl (fun hempty => hnil ?_) ha
  have hlen : reduced.length = x.shape.lens.length := by rw [hlens, collapse, List.length_mapIdx]
  exact List.length_eq_zero_iff.1 (hlen ▸ List.length_eq_zero_iff.2 hempty)

namespace Reduction

theorem within (h : Reduction x axes out) (i : Nat) :
    Within (collapse axes.contains 0 (x.shape.multiIndex i)) out.lens :=
  h.lens ▸ within_collapse (within_multiIndex h.pos i)

/-- The place of an index is the number of the element that has it. -/
theorem place_lt (h : Reduction x axes out) (hidx : Within idx out.lens) :
    place idx (standardStrides out.lens) < out.lens.prod ∧
      out.multiIndex (place idx (standardStrides out.lens)) = idx := by
  rw [standardStrides_eq h.dense.fits, ← Word.prod_max_eq h.dense.pos]
  exact ⟨place_rowStrides_lt hidx, unravel_place hidx⟩

private theorem place_eq_iff (h : Reduction x axes out) (hidx : Within idx out.lens) {o : Nat}
    (ho : o < out.lens.prod) :
    place idx (standardStrides out.lens) = o ↔ idx = out.multiIndex o := by
  constructor
  · rintro rfl
    exact (h.place_lt hidx).2.symm
  · rintro rfl
    rw [standardStrides_eq h.dense.fits, place_multiIndex ho]

/-- Every element belongs to one group. -/
theorem existsUnique (h : Reduction x axes out) (i : Nat) :
    ∃! o, o < out.lens.prod ∧ out.multiIndex o = collapse axes.contains 0 (x.shape.multiIndex i) := by
  refine ⟨_, h.place_lt (h.within i), fun o ho => ?_⟩
  exact ((h.place_eq_iff (h.within i) ho.1).2 ho.2.symm).symm

/-- All groups have the same size. -/
theorem length_addends (h : Reduction x axes out) (hidx : Within idx out.lens) :
    (addends x axes idx).length = groupSize x.shape.lens axes := by
  rw [addends, ← List.countP_eq_length_filter, h.size, groupSize_eq]
  exact countP_collapse h.pos (h.lens ▸ hidx)

/-- The groups share out the elements. -/
theorem prod_mul_groupSize (h : Reduction x axes out) :
    out.lens.prod * groupSize x.shape.lens axes = x.data.size := by
  have hmul := prod_collapse_mul axes.contains x.shape.lens
  rwa [← h.lens, ← groupSize_eq, ← h.size] at hmul

private theorem one_le_groupSize (h : Reduction x axes out) : 1 ≤ groupSize x.shape.lens axes := by
  have hall : 1 ≤ x.shape.lens.prod := Word.prod_max_eq h.pos ▸ Word.one_le_prod_max _
  have hmul := h.prod_mul_groupSize
  rw [h.size] at hmul
  refine Nat.one_le_iff_ne_zero.2 fun hzero => ?_
  rw [hzero, Nat.mul_zero] at hmul
  omega

/-- The sums are no more than the elements, so a buffer holds them. -/
theorem prod_le_capacity (h : Reduction x axes out) : out.lens.prod ≤ Word.capacity := by
  refine Nat.le_trans ?_ x.size_le
  rw [← h.prod_mul_groupSize]
  exact Nat.le_mul_of_pos_right _ h.one_le_groupSize

/-- The quotient of the numbers of elements is that size. -/
theorem share_eq (h : Reduction x axes out) :
    max (x.data.size / max out.lens.prod 1) 1 = groupSize x.shape.lens axes := by
  have hout : 1 ≤ out.lens.prod := Word.prod_max_eq h.dense.pos ▸ Word.one_le_prod_max _
  rw [← h.prod_mul_groupSize, Nat.max_eq_left hout, Nat.mul_div_cancel_left _ hout,
    Nat.max_eq_left h.one_le_groupSize]

/-- The means are the sums of the groups, divided by their size. -/
theorem means (h : Reduction x axes out) (hsize : x.shape.elements = .ok x.data.size) :
    ∃ values, reduceMeanData x axes out = .ok values ∧ values.size = out.lens.prod ∧
      ∀ o < out.lens.prod, values[o]? =
        some (sumAt x axes (out.multiIndex o) / Float.ofNat (groupSize x.shape.lens axes)) := by
  obtain ⟨sums, hsums, hlen, hget⟩ := meanSums_collects x axes (standardStrides out.lens)
    (fun i => place (collapse axes.contains 0 (x.shape.multiIndex i)) (standardStrides out.lens))
    (Array.replicate out.lens.prod 0) fun i => by
      have hlt := (h.place_lt (h.within i)).1
      have hlens := (within_multiIndex h.pos i).length_eq
      refine ⟨_, foldlM_setAt 0 (hlens ▸ h.axes), dot_eq_place (hlt.trans h.dense.prod_lt), ?_⟩
      rwa [Array.size_replicate]
  rw [Array.size_replicate] at hlen
  refine ⟨sums.map (· / Float.ofNat (groupSize x.shape.lens axes)), ?_, by rw [Array.size_map, hlen],
    fun o ho => ?_⟩
  · rw [reduceMeanData, h.count, Except.ok_bind, Word.reserve_eq_ok h.prod_le_capacity, Except.ok_bind,
      hsums, Except.ok_bind, hsize, Except.ok_bind, h.share_eq]
    rfl
  · have hfilter : (List.range x.data.size).filter (fun i =>
        place (collapse axes.contains 0 (x.shape.multiIndex i)) (standardStrides out.lens) = o) =
        addends x axes (out.multiIndex o) := by
      refine List.filter_congr fun i _ => ?_
      rw [decide_eq_decide]
      exact h.place_eq_iff (h.within i) ho
    have hsum := hget o 0 (by simp [ho])
    rw [hfilter] at hsum
    rw [Array.getElem?_map, hsum]
    rfl

end Reduction

end Evaluation

open Evaluation Inference TensorGraph.Shape
variable {x : Literal} {axes : List Nat} {out : Shape} {mods : List (List Shape)}

/-- Means take every element of a tensor once. Each element is added to the sum whose index is its own with
the reduced axes at zero, and to no other; each sum has as many addends as the distinct reduced axes have
elements, and is divided by that number. -/
theorem reduceMean_partitions (hx : x.Made) (hne : x.data.size ≠ 0)
    (h : (reduceMean axes).inferShape [x.shape] mods = .ok out) :
    ∃ l, (reduceMean axes).evaluate out [x] = .ok (some l) ∧ l.shape = out ∧
      out.elements = .ok l.data.size ∧
      (∀ i < x.data.size, ∃! o, o < l.data.size ∧
        out.multiIndex o = collapse axes.contains 0 (x.shape.multiIndex i)) ∧
      ∀ o < l.data.size,
        (addends x axes (out.multiIndex o)).length = groupSize x.shape.lens axes ∧
        l.data[o]? = some (x.shape.elementType.cast
          (sumAt x axes (out.multiIndex o) / Float.ofNat (groupSize x.shape.lens axes))) := by
  obtain ⟨hraw, ha⟩ := inferShape_eq_ok.1 h
  obtain ⟨_, he, hst, hsd, hreduce⟩ := static_eq_ok.1 hraw
  cases he
  have hshape : out = x.shape.withLens out.lens := by
    obtain ⟨lens, -, hlens⟩ := Except.bind_eq_ok.1 hreduce
    cases hlens
    rfl
  have ht : out.isTuple = false := by rw [hshape]; exact hst
  have hstd : out.asStandard = out := by
    rw [asStandard_of_static (hshape ▸ rfl) ht]
    exact hshape.symm ▸ rfl
  have hreduction := reduction_of_reduceShape hx.elements hne hreduce ht ha
  obtain ⟨values, hvalues, hsize, hget⟩ := hreduction.means hx.elements
  have hcount : out.elements = .ok values.size := by rw [hreduction.count, hsize]
  obtain ⟨l, hl, hlshape, hdata⟩ := Literal.ofComputed_eq_ok hcount
    (hsize.trans_le hreduction.prod_le_capacity)
  have hevaluate : (reduceMean axes).evaluate out [x] = .ok (some l) := by
    have hfill : (reduceMean axes).evaluate out [x] = some <$> Literal.ofComputed out.asStandard values :=
      Except.bind_of_ok (hstd.symm ▸ hvalues) _
    rw [hfill, hstd, hl]
    rfl
  have hlsize : l.data.size = out.lens.prod := by rw [hdata, Array.size_map, hsize]
  refine ⟨l, hevaluate, hlshape.trans hstd, by rw [hcount, hdata, Array.size_map], fun i _ => ?_,
    fun o ho => ?_⟩
  · rw [hlsize]
    exact hreduction.existsUnique i
  · rw [hlsize] at ho
    refine ⟨hreduction.length_addends (within_multiIndex hreduction.dense.pos o), ?_⟩
    rw [hdata, Array.getElem?_map, hget o ho, hshape]
    rfl

/-- Two pages of three rows and two columns. -/
private def pages : Literal :=
  { shape := Shape.packedOf .float [2, 3, 2]
    data := #[0, 1, 2, 3, 4, 5, 6, 7, 8, 9, 10, 11].map ElementType.float.cast
    size_le := by rw [Array.size_map]; decide }

theorem reduceMean_partitions_rows :
    pages.Made ∧ pages.data.size ≠ 0 ∧
      (reduceMean [2, 0, 2]).inferShape [pages.shape] [] = .ok (Shape.packedOf .float [1, 3, 1]) ∧
      ∃ l, (reduceMean [2, 0, 2]).evaluate (Shape.packedOf .float [1, 3, 1]) [pages] = .ok (some l) ∧
        addends pages [2, 0, 2] [0, 1, 0] = [2, 3, 8, 9] ∧
        l.data[1]? = some (ElementType.float.cast (sumAt pages [2, 0, 2] [0, 1, 0] / Float.ofNat 4)) := by
  have hmade : pages.Made :=
    ⟨Shape.packedOf .float [2, 3, 2], #[0, 1, 2, 3, 4, 5, 6, 7, 8, 9, 10, 11], rfl⟩
  have hshape : (reduceMean [2, 0, 2]).inferShape [pages.shape] [] =
      .ok (Shape.packedOf .float [1, 3, 1]) := by decide +kernel
  have hne : pages.data.size ≠ 0 := by decide +kernel
  obtain ⟨l, hl, -, hsize, -, hgroups⟩ := reduceMean_partitions hmade hne hshape
  have hthree : 3 = l.data.size := Except.ok.inj hsize
  exact ⟨hmade, hne, hshape, l, hl, by decide +kernel, (hgroups 1 (by omega)).2⟩

end TensorGraph.Operator
