import TensorGraph.Proofs.Indexing
import TensorGraph.Proofs.Operator.Elements

/-! Views: operators that give the values of their input in another arrangement. Inference describes
the arrangement by strides, and evaluation works out places of its own; both lead to the same
values. -/
namespace TensorGraph

private theorem Literal.Made.data_ne_empty {x : Literal} (hx : x.Made) (hrank : 1 ≤ x.shape.rank)
    (ht : x.shape.isTuple = false) (hd : x.shape.isDynamic = false)
    (hpos : ∀ n ∈ x.shape.lens, n ≠ 0) : x.data.size ≠ 0 := by
  rw [Shape.rank_of_static hd] at hrank
  rw [hx.size_eq ht hd (List.ne_nil_of_length_pos hrank)]
  exact List.prod_ne_zero fun hzero => hpos 0 hzero rfl

namespace Operator
open TensorGraph.Shape TensorGraph.Operator.Inference TensorGraph.Operator.Evaluation
variable {op : Operator} {mods : List (List Shape)} {s : Shape} {x : Literal}
  {locate : List Nat → Except Fault Nat} {name : String}

/-- The operators that give the values of their input in another arrangement. -/
def isView : Operator → Bool
  | transpose _ | broadcast .. | multibroadcast _ => true
  | _ => false

/-- Every index of the shape is located where its strides point, which is within the input. -/
def Follows (s : Shape) (x : Literal) (locate : List Nat → Except Fault Nat) : Prop :=
  s.elements ≠ .ok 0 → ∀ idx, Within idx s.lens →
    locate idx = .ok (place idx s.strides) ∧ place idx s.strides < x.data.size

/-- It is enough to look at dense inputs, where a view with elements is one of a literal with
elements. -/
theorem follows_of_dense (hx : x.Made) (hrank : 1 ≤ x.shape.rank) (ht : x.shape.isTuple = false)
    (ha : s.addressable = true) (hd : s.isDynamic = false → x.shape.isDynamic = false)
    (hpos : x.shape.isDynamic = false → (∀ n ∈ s.lens, n ≠ 0) → ∀ n ∈ x.shape.lens, n ≠ 0)
    (h : x.shape.Dense → ∀ idx, Within idx s.lens →
      locate idx = .ok (place idx s.strides) ∧ place idx s.strides < x.shape.lens.prod) :
    Follows s x locate := by
  intro hne
  obtain ⟨count, hcount⟩ := elements_eq_ok ha
  rw [hcount, ne_eq, Except.ok.injEq] at hne
  obtain ⟨⟨-, hsd⟩, -, hspos⟩ := of_elements_ne_zero hcount hne
  have hfull := hx.data_ne_empty hrank ht (hd hsd) (hpos (hd hsd) hspos)
  obtain ⟨hdense, hsize⟩ := hx.dense hfull
  rw [hsize]
  exact h hdense

/-- A transposed shape has ranges for its axes where the input has. -/
theorem isDynamic_of_transposeShape {t : Shape} {permutation : List Nat} (hrank : 1 ≤ t.rank)
    (hd : t.isDynamic = true) (h : transposeShape name t permutation = .ok s) :
    s.isDynamic = true ∧ s.elementType = t.elementType := by
  rw [transposeShape] at h
  split at h
  · cases h
  rename_i hperm
  obtain ⟨dims, hdims, h⟩ := Except.bind_eq_ok.1 h
  cases h
  have hlen : dims.length = t.rank := by
    rw [← (permute_eq_ok.1 hdims).length_eq,
      (perm_range_of_isPermutation (by simpa using hperm)).length_eq, List.length_range]
  refine ⟨?_, rfl⟩
  simpa [isDynamic, dynamic, ← List.length_eq_zero_iff, hlen] using Nat.one_le_iff_ne_zero.1 hrank

section
variable (hx : x.Made) (hrank : 1 ≤ x.shape.rank) (ht : x.shape.isTuple = false)
  (ha : s.addressable = true)
include hx hrank ht ha

private theorem transpose_follows {permutation : List Nat}
    (h : transposeShape name x.shape permutation = .ok s) :
    s.elementType = x.shape.elementType ∧
      Follows s x (transposePlace x.shape.lens permutation) := by
  cases hd : x.shape.isDynamic with
  | true =>
    obtain ⟨hsd, htype⟩ := isDynamic_of_transposeShape hrank hd h
    exact ⟨htype, fun hne => absurd (by simp [elements, hsd]) hne⟩
  | false =>
    obtain ⟨hperm, lens, _, hlens, -, hs⟩ := of_transposeShape_eq_ok hd h
    refine ⟨by rw [hs], follows_of_dense hx hrank ht ha (fun _ => hd) (fun _ hpos n hn => ?_)
      fun hdense _ => transposePlace_eq hdense h⟩
    refine hpos n ?_
    rw [hs]
    exact (perm_of_forall₂ hperm hlens).mem_iff.2 hn

private theorem broadcast_follows {axis : Nat} {outLens : List Nat} (hd : x.shape.isDynamic = false)
    (h : broadcastShape name x.shape axis outLens = .ok s) :
    s.elementType = x.shape.elementType ∧ Follows s x (broadcastPlace x.shape.lens axis) := by
  obtain ⟨-, hlens, hs⟩ := of_broadcastShape_eq_ok hd h
  refine ⟨by rw [hs], follows_of_dense hx hrank ht ha (fun _ => hd) (fun _ hpos n hn => ?_)
    fun hdense _ => broadcastPlace_eq hdense h⟩
  rw [hlens] at hn
  refine hpos n ?_
  rw [hs]
  exact List.mem_of_mem_drop (List.mem_of_mem_take hn)

private theorem multibroadcast_follows {outLens : List Nat} (hd : x.shape.isDynamic = false)
    (h : multibroadcastShape name x.shape outLens = .ok s) :
    s.elementType = x.shape.elementType ∧
      Follows s x (multibroadcastPlace x.shape.lens (outLens.length - x.shape.lens.length)) := by
  obtain ⟨-, strides, hlen, hstrides, hs⟩ := of_multibroadcastShape_eq_ok hd h
  refine ⟨by rw [hs], follows_of_dense hx hrank ht ha (fun _ => hd) (fun _ hpos n hn => ?_)
    fun hdense _ => multibroadcastPlace_eq hdense h⟩
  obtain ⟨i, hi, rfl⟩ := List.mem_iff_getElem.1 hn
  obtain ⟨len, outLen, hl, ho, hcases⟩ :=
    hstrides i _ (List.getElem?_eq_getElem (hlen ▸ hi))
  rw [List.getElem?_eq_getElem hi] at hl
  cases hl
  rcases hcases with ⟨hsame, -⟩ | ⟨hone, -⟩
  · rw [hsame]
    refine hpos _ ?_
    rw [hs]
    exact List.mem_of_getElem? ho
  · omega

end

/-- What is gathered from the places that the strides point to. -/
theorem reads_of_follows (hx : x.Made) (ha : s.addressable = true)
    (htype : s.elementType = x.shape.elementType) (h : Follows s x locate) :
    ∃ count, s.elements = .ok count ∧
      (Word.capacity < count → (gather s.asStandard x.data locate >>= fun data =>
        some <$> Literal.ofComputed s.asStandard data) = .error .capacity) ∧
      (count ≤ Word.capacity → ∃ v, (gather s.asStandard x.data locate >>= fun data =>
          some <$> Literal.ofComputed s.asStandard data) = .ok (some v) ∧
        v.data.size = count ∧ v.shape = s.asStandard ∧
        ∀ i < count, ∃ p e, s.offset (s.multiIndex i) = .ok p ∧ x.data[p]? = some e ∧
          v.data[i]? = some e) := by
  obtain ⟨count, hcount⟩ := elements_eq_ok ha
  have hout : s.asStandard.elements = .ok count := by rwa [elements_asStandard]
  have hlocate : count ≠ 0 → ∀ idx, Within idx s.lens →
      locate idx = .ok (place idx s.strides) ∧ place idx s.strides < x.data.size := fun hne =>
    h fun hzero => hne (Except.ok.inj (hcount.symm.trans hzero))
  refine ⟨count, hcount, fun hlarge => ?_, fun hroom => ?_⟩
  · rw [gather, tabulate_of_capacity_lt hout hlarge]
    rfl
  obtain ⟨values, hvalues, hsize⟩ := exists_gather hout hroom fun hne idx hidx =>
    ⟨_, hlocate hne idx (lens_asStandard (s := s) ▸ hidx)⟩
  obtain ⟨v, hv, hshape, hdata⟩ :=
    Literal.ofComputed_eq_ok (by rw [hout, hsize]) (hsize.trans_le hroom)
  refine ⟨v, ?_, by rw [hdata, Array.size_map, hsize], by rw [hshape, asStandard_asStandard],
    fun i hi => ?_⟩
  · rw [hvalues, Except.ok_bind, hv]
    rfl
  have hne : count ≠ 0 := by omega
  obtain ⟨⟨hst, -⟩, -, hpos⟩ := of_elements_ne_zero hcount hne
  have hwithin := within_multiIndex hpos i
  have hlt : i < values.size := by omega
  have hget : values[i]? = some values[i] := Array.getElem?_eq_getElem hlt
  obtain ⟨p, hp, he⟩ := of_gather_eq_ok hvalues hget
  have hindex : s.asStandard.multiIndex i = s.multiIndex i := by
    rw [multiIndex, lens_asStandard, multiIndex]
  rw [hindex, (hlocate hne _ hwithin).1] at hp
  cases hp
  refine ⟨_, _, offset_eq_place hst ha hwithin, he, ?_⟩
  rw [hdata, Array.getElem?_map, hget, Option.map_some, elementType_asStandard, htype,
    hx.cast_eq (Array.mem_of_getElem? he)]

/-- A view has the values that its own strides point to in the input: for a literal with axes and a
view whose shape inference accepts, evaluation gives as many values as the shape has elements, and
each is the value of the input at the place of the element. It breaks down exactly if no buffer holds
so many values. -/
theorem view_reads_strides (hop : op.isView = true) (hx : x.Made) (hrank : 1 ≤ x.shape.rank)
    (h : op.inferShape [x.shape] mods = .ok s) :
    ∃ count, s.elements = .ok count ∧
      (Word.capacity < count → op.evaluate s [x] = .error .capacity) ∧
      (count ≤ Word.capacity → ∃ v, op.evaluate s [x] = .ok (some v) ∧ v.data.size = count ∧
        v.shape = s.asStandard ∧
        ∀ i < count, ∃ p e, s.offset (s.multiIndex i) = .ok p ∧ x.data[p]? = some e ∧
          v.data[i]? = some e) := by
  obtain ⟨hraw, ha⟩ := inferShape_eq_ok.1 h
  cases op with
  | transpose permutation =>
    obtain ⟨_, hu, ht, hs⟩ := rawShape_transpose hraw
    cases hu
    obtain ⟨htype, hfollows⟩ := transpose_follows hx hrank ht ha hs
    exact reads_of_follows hx ha htype hfollows
  | broadcast axis outLens =>
    obtain ⟨_, hu, ht, hd, hs⟩ := static_eq_ok.1 hraw
    cases hu
    obtain ⟨htype, hfollows⟩ := broadcast_follows hx hrank ht ha hd hs
    exact reads_of_follows hx ha htype hfollows
  | multibroadcast outLens =>
    obtain ⟨_, hu, ht, hd, hs⟩ := static_eq_ok.1 hraw
    cases hu
    rw [evaluate_multibroadcast (of_multibroadcastShape_eq_ok hd hs).1]
    obtain ⟨htype, hfollows⟩ := multibroadcast_follows hx hrank ht ha hd hs
    exact reads_of_follows hx ha htype hfollows
  | _ => cases hop

/-- Two values along the middle axis of three. -/
theorem view_reads_strides_middle :
    let s : Shape := ⟨.float, [2, 2, 3], [0, 1, 0], [], []⟩
    pairLiteral.Made ∧ 1 ≤ pairLiteral.shape.rank ∧
      (broadcast 1 [2, 2, 3]).inferShape [pairLiteral.shape] [] = .ok s ∧
      ∃ v, (broadcast 1 [2, 2, 3]).evaluate s [pairLiteral] = .ok (some v) ∧ v.data.size = 12 ∧
        v.data[4]? = pairLiteral.data[1]? := by
  intro s
  have hs : (broadcast 1 [2, 2, 3]).inferShape [pairLiteral.shape] [] = .ok s := by decide +kernel
  obtain ⟨count, hcount, -, hvalue⟩ := view_reads_strides rfl made_pairLiteral (by decide) hs
  have htwelve : s.elements = .ok 12 := by decide
  cases hcount.symm.trans htwelve
  obtain ⟨v, hv, hsize, -, hread⟩ := hvalue (by decide)
  obtain ⟨p, e, hp, he, hve⟩ := hread 4 (by decide)
  have hplace : s.offset (s.multiIndex 4) = .ok 1 := by decide
  cases hp.symm.trans hplace
  exact ⟨made_pairLiteral, by decide, hs, v, hv, hsize, hve.trans he.symm⟩

/-- One value is repeated more often than a buffer holds. -/
theorem view_exceeds_capacity :
    let x : Literal := .scalar .float 1
    let s : Shape := ⟨.float, [2305843009213693952], [0], [], []⟩
    x.Made ∧ 1 ≤ x.shape.rank ∧
      (multibroadcast [2305843009213693952]).inferShape [x.shape] [] = .ok s ∧
      (multibroadcast [2305843009213693952]).evaluate s [x] = .error .capacity := by
  intro x s
  exact ⟨Literal.made_scalar (by decide) 1, by decide, by decide +kernel, by decide +kernel⟩

end Operator
end TensorGraph
