import Mathlib.Algebra.BigOperators.Group.List.Lemmas
import TensorGraph.Proofs.Literal
import TensorGraph.Proofs.Operator.Places

/-! Evaluation gives a value of the inferred shape wherever an operator has one. It breaks down in two
cases only: the output has elements, and an input from which each of them is computed has none; or the
output has more elements than a buffer holds. -/
namespace TensorGraph

namespace Shape

private theorem elements_eq_of_lens {s t : Shape} (ht : t.isTuple = s.isTuple)
    (hd : t.isDynamic = s.isDynamic) (hl : t.lens = s.lens) : t.elements = s.elements := by
  rw [elements, elements, ht, hd, hl]

/-- A shape with the axes of a static one has as many elements, or they are given as ranges. -/
theorem elements_eq_or_zero {s t : Shape} (hs : s.isTuple = false) (ht : t.isTuple = false)
    (hd : s.isDynamic = false) (h : t.toDynamic.dynamicDims = s.toDynamic.dynamicDims) :
    t.elements = s.elements ∨ t.elements = .ok 0 := by
  cases htd : t.isDynamic with
  | true => exact .inr (by simp [elements, htd])
  | false =>
    exact .inl (elements_eq_of_lens (ht.trans hs.symm) (htd.trans hd.symm)
      (lens_eq_of_dims hs ht hd htd h))

/-- There are more elements than a buffer holds. -/
def Oversized (s : Shape) : Prop :=
  ∃ n, s.elements = .ok n ∧ Word.capacity < n

private theorem not_oversized {s : Shape} {n : Nat} (h : s.elements = .ok n)
    (hroom : n ≤ Word.capacity) : ¬ s.Oversized := by
  rintro ⟨n', hn', hlarge⟩
  cases h.symm.trans hn'
  exact absurd hlarge (Nat.not_lt.2 hroom)

end Shape

namespace Literal
variable {l : Literal}

theorem Made.row (h : l.Made) (ht : l.shape.isTuple = false) (hd : l.shape.isDynamic = false) :
    l.shape.strides = Shape.standardStrides l.shape.lens := by
  have hrow := congrArg Shape.strides (Shape.asStandard_of_static hd ht)
  rwa [h.asStandard] at hrow

theorem Made.rowMajor (h : l.Made) (ht : l.shape.isTuple = false) (hd : l.shape.isDynamic = false)
    (ha : l.shape.addressable = true) : l.shape.RowMajor :=
  ⟨hd, h.row ht hd, (Shape.addressable_of_not_tuple ht ha).1⟩

theorem Made.size_eq (h : l.Made) (ht : l.shape.isTuple = false) (hd : l.shape.isDynamic = false)
    (hl : l.shape.lens ≠ []) : l.data.size = l.shape.lens.prod :=
  (Shape.eq_prod_of_elements ht hd hl h.elements).1

/-- A literal with values is dense. -/
theorem Made.dense (h : l.Made) (hne : l.data.size ≠ 0) :
    l.shape.Dense ∧ l.data.size = l.shape.lens.prod := by
  obtain ⟨⟨ht, hd⟩, hl, hpos⟩ := Shape.of_elements_ne_zero h.elements hne
  obtain ⟨hsize, hlt⟩ := Shape.eq_prod_of_elements ht hd hl h.elements
  exact ⟨⟨⟨hd, h.row ht hd, by rwa [Word.prod_max_eq hpos, ← hsize]⟩, hpos⟩, hsize⟩

end Literal

namespace Operator
open TensorGraph.Shape TensorGraph.Operator.Inference TensorGraph.Operator.Evaluation
variable {op : Operator} {inputs : List Literal} {mods : List (List Shape)} {s : Shape}

/-- Each element of the output is computed from elements of every input. -/
def readsEach : Operator → Bool
  | identity | contiguous | reshape _ | convert _ | unary _ | binary _ | clip | transpose _
  | broadcast .. | multibroadcast _ | pad _ .edge _ | pad _ .reflect _ => true
  | _ => false

/-- The operators that have a value on literals. -/
def hasValue : Operator → Bool
  | literal _ | pad .. | reduceMean _ => true
  | op => op.readsEach

private theorem hasValue_of_readsEach (h : op.readsEach = true) : op.hasValue = true := by
  cases op <;> first | exact h | rfl

/-- A value is a literal of the shape, whatever it was computed from. -/
def Filled (s : Shape) (r : Except Fault (Option Literal)) : Prop :=
  ∀ v, r = .ok (some v) → v.Made ∧ v.shape = s.asStandard

private theorem filled_none : Filled s (.ok none) := fun _ h => (nomatch h)

private theorem filled_bind {α : Type} {x : Except Fault α} {f : α → Except Fault (Option Literal)}
    (h : ∀ a, Filled s (f a)) : Filled s (x >>= f) := by
  intro v hv
  obtain ⟨a, -, hv⟩ := Except.bind_eq_ok.1 hv
  exact h a v hv

private theorem filled_ofComputed (data : Array Float) :
    Filled s (some <$> Literal.ofComputed s.asStandard data) := by
  intro v hv
  cases hl : Literal.ofComputed s.asStandard data with
  | error f =>
    rw [hl] at hv
    cases hv
  | ok l =>
    rw [hl] at hv
    cases hv
    rw [Literal.ofComputed] at hl
    split at hl
    · rename_i l' hdata
      cases hl
      exact ⟨⟨_, _, hdata⟩, (Literal.of_ofData_eq_ok hdata).1.trans Shape.asStandard_asStandard⟩
    · cases hl
    · cases hl

/-- Whatever an operator other than a literal is evaluated on, its value fills the shape. -/
theorem filled_evaluate (h : ∀ value, op ≠ literal value) : Filled s (op.evaluate s inputs) := by
  have hone : ∀ {α : Type} {x : Except Fault α} (f : α → Array Float), Filled s
      (x >>= fun a => some <$> Literal.ofComputed s.asStandard (f a)) := fun f =>
    filled_bind fun _ => filled_ofComputed _
  cases op with
  | literal value => exact absurd rfl (h value)
  | identity | contiguous | reshape | convert | unary => exact hone _
  | binary => exact filled_bind fun _ => hone _
  | clip => exact filled_bind fun _ => filled_bind fun _ => hone _
  | transpose | broadcast | pad | reduceMean => exact filled_bind fun _ => hone _
  | multibroadcast => exact filled_bind fun _ => filled_bind fun _ => hone _
  | _ => exact filled_none

/-- Elements are to be computed from an input that has none. -/
def Starved (op : Operator) (s : Shape) (inputs : List Literal) : Prop :=
  op.readsEach = true ∧ s.elements ≠ .ok 0 ∧ ∃ l ∈ inputs, l.data.size = 0

/-- What evaluation starts from: literals that can be made, whose shapes inference accepts for an output
that is neither a tuple nor dynamic. -/
structure Evaluable (op : Operator) (inputs : List Literal) (mods : List (List Shape)) (s : Shape) :
    Prop where
  embedded : ∀ value, op = literal value → value.Made
  given : ∀ l ∈ inputs, l.Made ∧ l.shape.addressable = true
  inferred : op.inferShape (inputs.map Literal.shape) mods = .ok s
  single : s.isTuple = false
  static : s.isDynamic = false

/-- The result is a value of the given shape, unless elements come from nothing or no buffer holds
them. -/
structure Answers (starved : Prop) (s : Shape) (r : Except Fault (Option Literal)) : Prop where
  fault : starved → ∃ f, r = .error f
  capacity : s.Oversized → r = .error .capacity
  value : ¬ starved → ¬ s.Oversized →
    ∃ v, r = .ok (some v) ∧ v.shape = s.asStandard ∧ s.elements = .ok v.data.size

private theorem exists_filled {data : Array Float} (hs : s.elements = .ok data.size)
    (hroom : data.size ≤ Word.capacity) :
    ∃ v, some <$> Literal.ofComputed s.asStandard data = .ok (some v) ∧ v.shape = s.asStandard ∧
      s.elements = .ok v.data.size := by
  have hcount : s.asStandard.elements = .ok data.size := by rwa [elements_asStandard]
  obtain ⟨v, hv, hshape, hdata⟩ := Literal.ofComputed_eq_ok hcount hroom
  refine ⟨v, by rw [hv]; rfl, ?_, ?_⟩
  · rw [hshape, asStandard_asStandard]
  · rw [hdata, Array.size_map, hs]

private theorem answers_filled {starved : Prop} {data : Array Float} (hs : s.elements = .ok data.size)
    (hroom : data.size ≤ Word.capacity) (hno : ¬ starved) :
    Answers starved s (some <$> Literal.ofComputed s.asStandard data) where
  fault hyes := absurd hyes hno
  capacity hlarge := absurd hlarge (not_oversized hs hroom)
  value _ _ := exists_filled hs hroom

/-- The values of an input are passed on one by one. -/
theorem answers_each {x : Literal} {data : Array Float} (hs : s.elements = .ok x.data.size)
    (hdata : data.size = x.data.size) :
    Answers (op.Starved s [x]) s (some <$> Literal.ofComputed s.asStandard data) := by
  refine answers_filled (hs.trans (by rw [hdata])) (hdata.trans_le x.size_le) ?_
  rintro ⟨-, hne, l, hl, hempty⟩
  rw [List.mem_singleton.1 hl] at hempty
  exact hne (hs.trans (by rw [hempty]))

/-- Values at the same index are combined, as many as the input with the fewest has. -/
theorem answers_zipped {count : Nat} {data : Array Float} (hread : op.readsEach = true)
    (hs : s.elements = .ok count) (hroom : count ≤ Word.capacity)
    (hsize : ∀ l ∈ inputs, l.data.size = count ∨ l.data.size = 0)
    (hall : (∀ l ∈ inputs, l.data.size = count) → data.size = count)
    (hnone : (∃ l ∈ inputs, l.data.size = 0) → data.size = 0) :
    Answers (op.Starved s inputs) s (some <$> Literal.ofComputed s.asStandard data) := by
  by_cases hzero : ∃ l ∈ inputs, l.data.size = 0
  · have hdata := hnone hzero
    by_cases hc : count = 0
    · refine answers_filled (by rw [hs, hc, hdata]) (hdata.trans_le (Nat.zero_le _)) ?_
      rintro ⟨-, hne, -⟩
      exact hne (by rw [hs, hc])
    · have hcount : s.asStandard.elements = .ok count := by rwa [elements_asStandard]
      obtain ⟨f, hf⟩ := Literal.ofComputed_of_isEmpty hcount hc hdata
      have hstarved : op.Starved s inputs := by
        refine ⟨hread, ?_, hzero⟩
        rw [hs]
        exact fun h => hc (Except.ok.inj h)
      exact ⟨fun _ => ⟨f, by rw [hf]; rfl⟩, fun hlarge => absurd hlarge (not_oversized hs hroom),
        fun hno => absurd hstarved hno⟩
  · have hfull : ∀ l ∈ inputs, l.data.size = count := fun l hl =>
      (hsize l hl).resolve_right fun h0 => hzero ⟨l, hl, h0⟩
    have hdata := hall hfull
    exact answers_filled (by rw [hs, hdata]) (hdata.trans_le hroom) fun hstarved => hzero hstarved.2.2

/-- Values are computed into a new table, if a buffer holds it. -/
theorem answers_table {starved : Prop} {table : Except Fault (Array Float)} {count : Nat}
    (hs : s.elements = .ok count) (hlarge : Word.capacity < count → table = .error .capacity)
    (hfault : starved → ∃ e, table = .error e)
    (htable : ¬ starved → count ≤ Word.capacity →
      ∃ values, table = .ok values ∧ values.size = count) :
    Answers starved s (table >>= fun data => some <$> Literal.ofComputed s.asStandard data) := by
  refine ⟨?_, ?_, ?_⟩
  · intro hyes
    obtain ⟨e, he⟩ := hfault hyes
    exact ⟨e, by rw [he]; rfl⟩
  · rintro ⟨n, hn, hcapacity⟩
    cases hs.symm.trans hn
    rw [hlarge hcapacity]
    rfl
  · intro hno hfits
    have hroom : count ≤ Word.capacity := Nat.not_lt.1 fun hcapacity => hfits ⟨count, hs, hcapacity⟩
    obtain ⟨values, hvalues, hsize⟩ := htable hno hroom
    rw [hvalues, Except.ok_bind]
    exact exists_filled (by rw [hs, hsize]) (hsize.trans_le hroom)

/-- Values that are all read from one input are starved if there are none to read. -/
theorem starved_iff {x : Literal} {count : Nat} (hread : op.readsEach = true)
    (hs : s.elements = .ok count) : op.Starved s [x] ↔ count ≠ 0 ∧ x.data.size = 0 := by
  simp [Starved, hread, hs]

theorem Inference.Pointwise.elements_eq {t : Shape} {rest : List Shape} (h : Pointwise t rest s)
    (hd : s.isDynamic = false) : s.elements = t.elements := by
  obtain ⟨hsd, hlens⟩ := h.of_static hd
  exact elements_eq_of_lens h.isTuple_eq (hd.trans hsd.symm) hlens

/-- Inputs with the same axes have as many values as the output has elements, or they are dynamic and
have none. -/
theorem sizes_of_pointwise {x : Literal} {rest : List Literal} (hmade : ∀ l ∈ x :: rest, l.Made)
    (h : Pointwise x.shape (rest.map Literal.shape) s) (hd : s.isDynamic = false)
    (ht : ∀ l ∈ x :: rest, l.shape.isTuple = false)
    (hdims : ∀ l ∈ rest, l.shape.toDynamic.dynamicDims = x.shape.toDynamic.dynamicDims) :
    s.elements = .ok x.data.size ∧
      ∀ l ∈ x :: rest, l.data.size = x.data.size ∨ l.data.size = 0 := by
  have hx := (hmade x List.mem_cons_self).elements
  refine ⟨(h.elements_eq hd).trans hx, fun l hl => ?_⟩
  rcases List.mem_cons.1 hl with rfl | hrest
  · exact .inl rfl
  have hl' := (hmade l hl).elements
  rcases elements_eq_or_zero (ht x List.mem_cons_self) (ht l hl) (h.of_static hd).1
    (hdims l hrest) with heq | hzero
  · exact .inl (Except.ok.inj (hl'.symm.trans (heq.trans hx)))
  · exact .inr (Except.ok.inj (hl'.symm.trans hzero))

/-- A view reads its input within the places that are filled. -/
theorem answers_gathered {x : Literal} {place : List Nat → Except Fault Nat}
    (hx : x.Made) (ha : s.addressable = true) (hread : op.readsEach = true)
    (h : x.shape.Dense → ∀ idx, Within idx s.lens →
      ∃ p, place idx = .ok p ∧ p < x.shape.lens.prod) :
    Answers (op.Starved s [x]) s (gather s.asStandard x.data place >>= fun data =>
      some <$> Literal.ofComputed s.asStandard data) := by
  obtain ⟨count, hcount⟩ := elements_eq_ok ha
  have hout : s.asStandard.elements = .ok count := by rwa [elements_asStandard]
  rw [starved_iff hread hcount]
  refine answers_table hcount (tabulate_of_capacity_lt hout) ?_ ?_
  · rintro ⟨hne, hempty⟩
    exact gather_eq_error hout hne hempty
  · intro hvalues hroom
    refine exists_gather hout hroom fun hne idx hidx => ?_
    obtain ⟨hdense, hsize⟩ := hx.dense fun hempty => hvalues ⟨hne, hempty⟩
    rw [lens_asStandard] at hidx
    rw [hsize]
    exact h hdense idx hidx

theorem evaluate_multibroadcast {x : Literal} {outLens : List Nat}
    (h : x.shape.lens.length ≤ outLens.length) :
    (multibroadcast outLens).evaluate s [x] =
      gather s.asStandard x.data (multibroadcastPlace x.shape.lens
        (outLens.length - x.shape.lens.length)) >>= fun data =>
          some <$> Literal.ofComputed s.asStandard data :=
  Except.bind_of_ok (Word.sub_eq_ok h) _

section
variable {x : Literal} {pads : List Nat} {mode : PadMode} {value : Float}
  (hx : x.Made ∧ x.shape.addressable = true) (ht : x.shape.isTuple = false)
  (hd : x.shape.isDynamic = false) (h : padShape "pad" x.shape pads = .ok s)
  (ha : s.addressable = true)
include hx ht hd h ha

/-- A padded table is filled where the input has values to extend, or the border is constant. -/
theorem exists_padTable {count : Nat} (hcount : s.elements = .ok count)
    (hroom : count ≤ Word.capacity) (hvalues : mode ≠ .constant → count ≠ 0 → x.data.size ≠ 0) :
    ∃ values, tabulate s.asStandard (padValue x pads mode value) = .ok values ∧
      values.size = count := by
  refine exists_tabulate (by rwa [elements_asStandard]) hroom fun hne idx hidx => ?_
  rw [lens_asStandard] at hidx
  obtain ⟨⟨hst, hsd⟩, hlens, -⟩ := of_elements_ne_zero hcount hne
  cases hcount.symm.trans (elements_eq_prod hst hsd hlens ha)
  have hlong : ∀ n ∈ s.lens, 2 * n ≤ Word.signedLimit := by
    intro n hn
    have hle : n ≤ s.lens.prod := Nat.le_of_dvd (Nat.pos_of_ne_zero hne) (List.dvd_prod hn)
    exact Word.two_mul_le_signedLimit (hle.trans hroom)
  have hrank : x.shape.lens ≠ [] := by
    obtain ⟨-, lens, rfl, hlen, -⟩ := of_padShape_eq_ok h
    intro hnil
    refine hlens (List.length_eq_zero_iff.1 (hlen.trans ?_))
    rw [rank_of_static hd, hnil, List.length_nil]
  refine exists_padValue (hx.1.rowMajor ht hd hx.2) (hx.1.size_eq ht hd hrank) h hlong ?_ hidx
  by_cases hmode : mode = .constant
  · exact .inl hmode
  · exact .inr (hvalues hmode hne)

private theorem answers_pad :
    Answers ((pad pads mode value).Starved s [x]) s ((pad pads mode value).evaluate s [x]) := by
  obtain ⟨count, hcount⟩ := elements_eq_ok ha
  have hout : s.asStandard.elements = .ok count := by rwa [elements_asStandard]
  refine answers_table hcount (tabulate_of_capacity_lt hout) ?_ ?_
  · rintro ⟨hread, hne, l, hl, hempty⟩
    rw [List.mem_singleton.1 hl] at hempty
    have hmode : mode ≠ .constant := by
      rintro rfl
      cases hread
    exact tabulate_eq_error hout (fun hzero => hne (by rw [hcount, hzero]))
      fun idx v => padValue_ne_ok hmode hempty idx
  · intro hno hroom
    refine exists_padTable hx ht hd h ha hcount hroom fun hmode hne hempty => hno ?_
    have hread : (pad pads mode value).readsEach = true := by
      cases mode with
      | constant => exact absurd rfl hmode
      | edge => rfl
      | reflect => rfl
    exact (starved_iff hread hcount).2 ⟨hne, hempty⟩

end

/-- Means are sums that start from zero, so an empty input does no harm. -/
theorem answers_reduceMean {x : Literal} {axes : List Nat} (hx : x.Made)
    (h : reduceShape "reduce_mean" x.shape axes = .ok s) (ha : s.addressable = true)
    (ht : s.isTuple = false) (hd : s.isDynamic = false) :
    Answers ((reduceMean axes).Starved s [x]) s ((reduceMean axes).evaluate s [x]) := by
  have hstd : s.asStandard = s := by
    obtain ⟨lens, -, h⟩ := Except.bind_eq_ok.1 h
    cases h
    exact asStandard_of_static hd ht
  obtain ⟨count, hcount⟩ := elements_eq_ok ha
  change Answers _ s (reduceMeanData x axes s.asStandard >>= _)
  refine answers_table hcount ?_ ?_ ?_
  · rw [hstd]
    exact reduceMeanData_of_capacity_lt hcount
  · rintro ⟨hread, -⟩
    cases hread
  · intro _ hroom
    rw [hstd]
    exact exists_reduceMeanData hx.elements h ht ha hcount hroom

/-- An operator that has a value gives one of the inferred shape, unless it is starved or the shape is
oversized. -/
theorem answers_evaluate (hvalue : op.hasValue = true) (h : op.Evaluable inputs mods s) :
    Answers (op.Starved s inputs) s (op.evaluate s inputs) := by
  obtain ⟨hop, hins, hs, ht, hd⟩ := h
  obtain ⟨hraw, ha⟩ := inferShape_eq_ok.1 hs
  cases op with
  | literal value =>
    have hmade := hop value rfl
    rw [rawShape, Except.seq_eq_ok] at hraw
    cases hraw.2
    refine ⟨fun hstarved => ?_, fun hlarge => ?_,
      fun _ _ => ⟨value, rfl, hmade.asStandard.symm, hmade.elements⟩⟩
    · cases hstarved.1
    · exact absurd hlarge (not_oversized hmade.elements value.size_le)
  | identity =>
    obtain ⟨x, rfl, rfl⟩ := List.map_eq_singleton_iff.1 (rawShape_identity.1 hraw)
    exact answers_each (hins x (by simp)).1.elements rfl
  | contiguous =>
    obtain ⟨u, hu, -, rfl⟩ := rawShape_contiguous.1 hraw
    obtain ⟨x, rfl, rfl⟩ := List.map_eq_singleton_iff.1 hu
    exact answers_each (by rw [elements_asStandard, (hins x (by simp)).1.elements]) rfl
  | reshape dims =>
    obtain ⟨u, hu, -, -, h⟩ := static_eq_ok.1 hraw
    obtain ⟨x, rfl, rfl⟩ := List.map_eq_singleton_iff.1 hu
    exact answers_each ((of_reshapeShape_eq_ok h).trans (hins x (by simp)).1.elements) rfl
  | convert type =>
    obtain ⟨u, p, hu, hut, hp, rfl⟩ := rawShape_convert.1 hraw
    obtain ⟨x, rfl, rfl⟩ := List.map_eq_singleton_iff.1 hu
    have hpointwise := pointwise_of_eq_ok hp
    have htype : (p.withType type).elements = p.elements :=
      elements_eq_of_lens (ht.trans (hpointwise.isTuple_eq.trans hut).symm) rfl rfl
    refine answers_each ?_ rfl
    rw [htype, hpointwise.elements_eq hd, (hins x (by simp)).1.elements]
  | unary f =>
    obtain ⟨u, hu, -, hp⟩ := rawShape_unary.1 hraw
    obtain ⟨x, rfl, rfl⟩ := List.map_eq_singleton_iff.1 hu
    refine answers_each ?_ Array.size_map
    rw [(pointwise_of_eq_ok hp).elements_eq hd, (hins x (by simp)).1.elements]
  | binary f =>
    obtain ⟨_, _, hu, hat, hbt, -, hdims, hp⟩ := rawShape_binary.1 hraw
    obtain ⟨a, _, rfl, rfl, hrest⟩ := List.map_eq_cons_iff.1 hu
    obtain ⟨b, rfl, rfl⟩ := List.map_eq_singleton_iff.1 hrest
    obtain ⟨hs, hsize⟩ := sizes_of_pointwise (fun l hl => (hins l hl).1) (pointwise_of_eq_ok hp) hd
      (by simp [hat, hbt]) (by simpa using hdims)
    refine answers_zipped rfl hs a.size_le hsize (fun hall => ?_) ?_
    · simp [hall b (by simp)]
    · simp
  | clip =>
    obtain ⟨_, _, _, hu, ⟨hat, hbt, hct⟩, hb, hc, hp⟩ := rawShape_clip hraw
    obtain ⟨a, _, rfl, rfl, hrest⟩ := List.map_eq_cons_iff.1 hu
    obtain ⟨b, _, rfl, rfl, hlast⟩ := List.map_eq_cons_iff.1 hrest
    obtain ⟨c, rfl, rfl⟩ := List.map_eq_singleton_iff.1 hlast
    obtain ⟨hs, hsize⟩ := sizes_of_pointwise (fun l hl => (hins l hl).1) (pointwise_of_eq_ok hp) hd
      (by simp [hat, hbt, hct]) (by simp [hb, hc])
    refine answers_zipped rfl hs a.size_le hsize (fun hall => ?_) ?_
    · simp [hall b (by simp), hall c (by simp)]
    · simp
  | transpose permutation =>
    obtain ⟨u, hu, -, h⟩ := rawShape_transpose hraw
    obtain ⟨x, rfl, rfl⟩ := List.map_eq_singleton_iff.1 hu
    exact answers_gathered (hins x (by simp)).1 ha rfl fun hdense _ hidx =>
      ⟨_, transposePlace_eq hdense h hidx⟩
  | broadcast axis outLens =>
    obtain ⟨u, hu, -, -, h⟩ := static_eq_ok.1 hraw
    obtain ⟨x, rfl, rfl⟩ := List.map_eq_singleton_iff.1 hu
    exact answers_gathered (hins x (by simp)).1 ha rfl fun hdense _ hidx =>
      ⟨_, broadcastPlace_eq hdense h hidx⟩
  | multibroadcast outLens =>
    obtain ⟨u, hu, -, hxd, h⟩ := static_eq_ok.1 hraw
    obtain ⟨x, rfl, rfl⟩ := List.map_eq_singleton_iff.1 hu
    rw [evaluate_multibroadcast (of_multibroadcastShape_eq_ok hxd h).1]
    exact answers_gathered (hins x (by simp)).1 ha rfl fun hdense _ hidx =>
      ⟨_, multibroadcastPlace_eq hdense h hidx⟩
  | pad pads mode value =>
    obtain ⟨u, hu, hxt, hxd, h⟩ := rawShape_pad hraw
    obtain ⟨x, rfl, rfl⟩ := List.map_eq_singleton_iff.1 hu
    exact answers_pad (hins x (by simp)) hxt hxd h ha
  | reduceMean axes =>
    obtain ⟨u, hu, -, -, h⟩ := static_eq_ok.1 hraw
    obtain ⟨x, rfl, rfl⟩ := List.map_eq_singleton_iff.1 hu
    exact answers_reduceMean (hins x (by simp)).1 h ha ht hd
  | parameter | output | undefined | allocate | convolution | dot | layernorm | quantizeLinear
  | dequantizeLinear | branch | loop | getTupleElem => cases hvalue

/-- On literals whose shapes inference accepts, evaluation faults exactly where elements are to be
computed from an input that has none, or where no buffer holds the value. Otherwise it answers, and a
value has the inferred shape in row-major layout and as many values as the shape has elements. -/
theorem evaluate_unless_starved_or_oversized (h : op.Evaluable inputs mods s) :
    (op.Starved s inputs → ∃ f, op.evaluate s inputs = .error f) ∧
      (op.hasValue = true → s.Oversized → op.evaluate s inputs = .error .capacity) ∧
      (¬ op.Starved s inputs → (op.hasValue = true → ¬ s.Oversized) →
        ∃ r, op.evaluate s inputs = .ok r ∧ r.isSome = op.hasValue ∧
          ∀ v, r = some v → v.shape = s.asStandard ∧ s.elements = .ok v.data.size) := by
  cases hvalue : op.hasValue with
  | true =>
    have hanswers := answers_evaluate hvalue h
    refine ⟨hanswers.fault, fun _ => hanswers.capacity, fun hno hfits => ?_⟩
    obtain ⟨v, hv, hshape, hsize⟩ := hanswers.value hno (hfits rfl)
    refine ⟨some v, hv, rfl, ?_⟩
    rintro _ ⟨⟩
    exact ⟨hshape, hsize⟩
  | false =>
    have hnone : op.evaluate s inputs = .ok none := by
      cases op <;> first | rfl | cases hvalue
    refine ⟨fun hstarved => ?_, fun hyes => ?_, fun _ _ => ⟨none, hnone, rfl, nofun⟩⟩
    · rw [hasValue_of_readsEach hstarved.1] at hvalue
      cases hvalue
    · cases hyes

/-- Two values. -/
def pairLiteral : Literal :=
  ⟨packedOf .float [2], #[1, 2], by decide⟩

theorem made_pairLiteral : pairLiteral.Made :=
  ⟨packedOf .float [2], #[1, 2], by decide +kernel⟩

theorem evaluate_unless_starved_or_oversized_reflect :
    ∃ v, (pad [1, 1] .reflect 0).evaluate (packedOf .float [4]) [pairLiteral] = .ok (some v) ∧
      v.shape = packedOf .float [4] ∧ v.data.size = 4 := by
  have h : (pad [1, 1] .reflect 0).Evaluable [pairLiteral] [] (packedOf .float [4]) :=
    ⟨nofun, by simpa using ⟨made_pairLiteral, by decide⟩, rfl, rfl, rfl⟩
  have hfull : ¬ (pad [1, 1] .reflect 0).Starved (packedOf .float [4]) [pairLiteral] := by
    rw [starved_iff rfl rfl]
    simp [pairLiteral]
  have hfits : ¬ (packedOf .float [4]).Oversized := not_oversized rfl (by decide)
  obtain ⟨r, hr, hsome, hvalue⟩ := (evaluate_unless_starved_or_oversized h).2.2 hfull fun _ => hfits
  obtain ⟨v, rfl⟩ := Option.isSome_iff_exists.1 hsome
  obtain ⟨hshape, hsize⟩ := hvalue v rfl
  exact ⟨v, hr, hshape, (Except.ok.inj hsize).symm⟩

/-- Inference accepts the inputs, and evaluation faults. -/
def BreaksDown (op : Operator) (inputs : List Literal) (s : Shape) : Prop :=
  op.Evaluable inputs [] s ∧ ∃ f, op.evaluate s inputs = .error f

private theorem breaksDown_of_isEmpty {n : Nat} (h : op.Evaluable inputs [] s)
    (hread : op.readsEach = true) (hcount : s.elements = .ok n) (hn : n ≠ 0)
    (hempty : ∃ l ∈ inputs, l.data.size = 0) : BreaksDown op inputs s := by
  refine ⟨h, (answers_evaluate (hasValue_of_readsEach hread) h).fault ⟨hread, ?_, hempty⟩⟩
  rw [hcount]
  exact fun hzero => hn (Except.ok.inj hzero)

/-- An axis of length zero is extended, a literal of rank zero is repeated, ranges stand for the lengths
of the other input, and one value is repeated more often than a buffer holds. -/
theorem evaluate_breaks_down :
    BreaksDown (pad [1, 1] .edge 4) [⟨packedOf .float [0], #[], by decide⟩] (packedOf .float [2]) ∧
      BreaksDown (multibroadcast [2]) [⟨packedOf .float [], #[], by decide⟩] ⟨.float, [2], [0], [], []⟩ ∧
        BreaksDown add [pairLiteral, ⟨dynamic .float [.fixed 2], #[], by decide⟩]
          (packedOf .float [2]) ∧
        BreaksDown (multibroadcast [2305843009213693952]) [.scalar .float 1]
          ⟨.float, [2305843009213693952], [0], [], []⟩ := by
  have haxis : Literal.Made ⟨packedOf .float [0], #[], by decide⟩ :=
    Literal.made_of_isEmpty (s := packedOf .float [0]) rfl
  have hpoint : Literal.Made ⟨packedOf .float [], #[], by decide⟩ :=
    Literal.made_of_isEmpty (s := packedOf .float []) rfl
  have hrange : Literal.Made ⟨dynamic .float [.fixed 2], #[], by decide⟩ :=
    Literal.made_of_isEmpty (s := dynamic .float [.fixed 2]) rfl
  have hlarge : (multibroadcast [2305843009213693952]).Evaluable [.scalar .float 1] []
      ⟨.float, [2305843009213693952], [0], [], []⟩ :=
    ⟨nofun, by simpa using ⟨Literal.made_scalar (by decide) 1, by decide⟩, rfl, rfl, rfl⟩
  refine ⟨breaksDown_of_isEmpty ⟨nofun, ?_, rfl, rfl, rfl⟩ rfl rfl two_ne_zero ⟨_, .head _, rfl⟩,
    breaksDown_of_isEmpty ⟨nofun, ?_, rfl, rfl, rfl⟩ rfl rfl two_ne_zero ⟨_, .head _, rfl⟩,
    breaksDown_of_isEmpty ⟨nofun, ?_, rfl, rfl, rfl⟩ rfl rfl two_ne_zero ⟨_, .tail _ (.head _), rfl⟩,
    hlarge, .capacity, (answers_evaluate rfl hlarge).capacity ⟨_, rfl, by decide⟩⟩
  · simpa using ⟨haxis, by decide⟩
  · simpa using ⟨hpoint, by decide⟩
  · simpa using ⟨⟨made_pairLiteral, by decide⟩, hrange, by decide⟩

end Operator
end TensorGraph
