import TensorGraph.Operator.Evaluation
import TensorGraph.Proofs.Operator.Inference
import TensorGraph.Proofs.Positions

/-! The places that evaluation reads and adds to. A view reads where the strides of its shape point,
which is within its input; a padded index is led back into the input; and a reduced index lies in the
output. -/
namespace TensorGraph.Operator.Evaluation
open TensorGraph.Shape TensorGraph.Operator.Inference
variable {out input : Shape} {data : Array Float} {count : Nat} {lens idx : List Nat}

theorem tabulate_of_capacity_lt {f : List Nat → Except Fault Float}
    (hcount : out.elements = .ok count) (hlarge : Word.capacity < count) :
    tabulate out f = .error .capacity := by
  rw [tabulate, hcount, Except.ok_bind, Word.reserve_eq_error hlarge]
  rfl

/-- A table that a buffer holds is filled where there is a value at each index. -/
theorem exists_tabulate {f : List Nat → Except Fault Float} (hcount : out.elements = .ok count)
    (hroom : count ≤ Word.capacity)
    (h : count ≠ 0 → ∀ idx, Within idx out.lens → ∃ v, f idx = .ok v) :
    ∃ values, tabulate out f = .ok values ∧ values.size = count := by
  have hall : ∀ i ∈ List.range count, ∃ v, f (out.multiIndex i) = .ok v := by
    intro i hi
    have hne : count ≠ 0 := by
      have := List.mem_range.1 hi
      omega
    obtain ⟨-, -, hpos⟩ := of_elements_ne_zero hcount hne
    exact h hne _ (within_multiIndex hpos i)
  obtain ⟨values, hvalues⟩ := Except.exists_mapM_eq_ok hall
  have hlen := (Except.mapM_eq_ok.1 hvalues).length_eq
  refine ⟨values.toArray, ?_, ?_⟩
  · rw [tabulate, hcount, Except.ok_bind, Word.reserve_eq_ok hroom, Except.ok_bind,
      Array.mapM_eq_mapM_toList, Array.toList_range, hvalues]
    rfl
  · rw [List.size_toArray, ← hlen, List.length_range]

/-- The values of a table are those at the indices of its elements. -/
theorem of_tabulate_eq_ok {f : List Nat → Except Fault Float} {values : Array Float}
    (h : tabulate out f = .ok values) :
    out.elements = .ok values.size ∧
      ∀ (i : Nat) v, values[i]? = some v → f (out.multiIndex i) = .ok v := by
  obtain ⟨count, hcount, h⟩ := Except.bind_eq_ok.1 h
  obtain ⟨-, -, h⟩ := Except.bind_eq_ok.1 h
  rw [Array.mapM_eq_mapM_toList, Array.toList_range] at h
  cases hlist : (List.range count).mapM fun i => f (out.multiIndex i) with
  | error e =>
    rw [hlist] at h
    cases h
  | ok list =>
    rw [hlist] at h
    cases h
    obtain ⟨hlen, hget⟩ := Except.getElem?_of_mapM_range hlist
    refine ⟨by rw [hcount, List.size_toArray, hlen], fun i v hv => hget i v ?_⟩
    rwa [List.getElem?_toArray] at hv

/-- A table that is not empty needs a value at some index. -/
theorem tabulate_eq_error {f : List Nat → Except Fault Float} (hcount : out.elements = .ok count)
    (hne : count ≠ 0) (h : ∀ idx v, f idx ≠ .ok v) : ∃ e, tabulate out f = .error e := by
  cases htable : tabulate out f with
  | error e => exact ⟨e, rfl⟩
  | ok values =>
    obtain ⟨hsize, hget⟩ := of_tabulate_eq_ok htable
    cases hcount.symm.trans hsize
    exact absurd (hget 0 _ (Array.getElem?_eq_getElem (Nat.pos_of_ne_zero hne))) (h _ _)

theorem exists_gather {place : List Nat → Except Fault Nat} (hcount : out.elements = .ok count)
    (hroom : count ≤ Word.capacity)
    (h : count ≠ 0 → ∀ idx, Within idx out.lens → ∃ p, place idx = .ok p ∧ p < data.size) :
    ∃ values, gather out data place = .ok values ∧ values.size = count := by
  refine exists_tabulate hcount hroom fun hne idx hidx => ?_
  obtain ⟨p, hp, hlt⟩ := h hne idx hidx
  refine ⟨data[p], ?_⟩
  rw [hp, Except.ok_bind, Array.getElem?_eq_getElem hlt]
  rfl

theorem of_gather_eq_ok {place : List Nat → Except Fault Nat} {values : Array Float}
    (h : gather out data place = .ok values) {i : Nat} {v : Float} (hv : values[i]? = some v) :
    ∃ p, place (out.multiIndex i) = .ok p ∧ data[p]? = some v := by
  obtain ⟨p, hp, hv⟩ := Except.bind_eq_ok.1 ((of_tabulate_eq_ok h).2 i v hv)
  exact ⟨p, hp, Except.inRange_eq_ok.1 hv⟩

/-- Nothing is read from an empty array. -/
theorem gather_eq_error {place : List Nat → Except Fault Nat} (hcount : out.elements = .ok count)
    (hne : count ≠ 0) (hdata : data.size = 0) : ∃ e, gather out data place = .error e := by
  refine tabulate_eq_error hcount hne fun idx v h => ?_
  obtain ⟨p, -, h⟩ := Except.bind_eq_ok.1 h
  rw [Except.inRange_eq_ok, Array.getElem?_eq_none (by omega)] at h
  cases h

/-- The places of a view are sums of entries of the index times strides. -/
theorem mapM_zipIdx_eq_ok {α : Type} {l : List α} {g : α × Nat → Except Fault Nat} {ks zs : List Nat}
    (hks : l.length ≤ ks.length) (hzs : l.length = zs.length)
    (hlt : place ks zs < Word.limit)
    (h : ∀ (i : Nat) a k z, l[i]? = some a → ks[i]? = some k → zs[i]? = some z → k * z < Word.limit →
      g (a, i) = .ok (k * z)) :
    l.zipIdx.mapM g = .ok (List.zipWith (· * ·) ks zs) := by
  rw [Except.mapM_eq_ok, List.forall₂_iff_get]
  refine ⟨by simp only [List.length_zipIdx, List.length_zipWith]; omega, fun i hi hi' => ?_⟩
  simp only [List.length_zipIdx, List.length_zipWith] at hi hi'
  simp only [List.get_eq_getElem, List.getElem_zipIdx, List.getElem_zipWith, Nat.zero_add]
  refine h i _ _ _ (List.getElem?_eq_getElem hi) (List.getElem?_eq_getElem (by omega))
    (List.getElem?_eq_getElem (by omega)) (Nat.lt_of_le_of_lt ?_ hlt)
  exact List.le_sum_of_mem (List.mem_iff_getElem.2 ⟨i, by simpa using hi', List.getElem_zipWith⟩)

private theorem term_eq_ok {i k stride : Nat} (hk : idx[i]? = some k)
    (hlt : k * stride < Word.limit) : term idx i stride = .ok (k * stride) := by
  rw [term, hk]
  exact Word.mul_eq_ok hlt

private theorem transposePlace_eq_ok {permutation zs : List Nat}
    (hzs : List.Forall₂ (fun p z => (standardStrides lens)[p]? = some z) permutation zs)
    (hidx : idx.length = permutation.length) (hlt : place idx zs < Word.limit) :
    transposePlace lens permutation idx = .ok (place idx zs) := by
  have hterms : permutation.zipIdx.mapM
      (fun a => do term idx a.2 (← Fault.inRange (standardStrides lens)[a.1]?)) =
        .ok (List.zipWith (· * ·) idx zs) := by
    refine mapM_zipIdx_eq_ok (by omega) hzs.length_eq hlt fun i p k z hp hk hz hkz => ?_
    have hread : (standardStrides lens)[p]? = some z := by
      obtain ⟨hi, rfl⟩ := List.getElem?_eq_some_iff.1 hp
      obtain ⟨hi', rfl⟩ := List.getElem?_eq_some_iff.1 hz
      exact (List.forall₂_iff_get.1 hzs).2 i hi hi'
    dsimp only
    rw [hread]
    exact term_eq_ok hk hkz
  rw [transposePlace]
  exact (Except.bind_of_ok hterms _).trans (Word.sum_eq_ok hlt)

private theorem broadcastPlace_eq_ok {axis : Nat} (hidx : axis + lens.length ≤ idx.length)
    (hlt : place (idx.drop axis) (standardStrides lens) < Word.limit) :
    broadcastPlace lens axis idx = .ok (place (idx.drop axis) (standardStrides lens)) := by
  have hlen := length_standardStrides lens
  have hterms : (standardStrides lens).zipIdx.mapM (fun a => term idx (axis + a.2) a.1) =
      .ok (List.zipWith (· * ·) (idx.drop axis) (standardStrides lens)) := by
    refine mapM_zipIdx_eq_ok (by rw [List.length_drop]; omega) rfl hlt
      fun i stride k z hs hk hz hkz => ?_
    cases hs.symm.trans hz
    rw [List.getElem?_drop] at hk
    exact term_eq_ok hk hkz
  rw [broadcastPlace]
  exact (Except.bind_of_ok hterms _).trans (Word.sum_eq_ok hlt)

/-- Terms that are left out count as zero. -/
theorem sum_mapM_filter {α : Type} {l : List α} {p : α → Bool} {g : α → Except Fault Nat}
    {ns : List Nat} (h : l.mapM (fun a => if p a then g a else .ok 0) = .ok ns) :
    ∃ ms, (l.filter p).mapM g = .ok ms ∧ ms.sum = ns.sum := by
  induction l generalizing ns with
  | nil =>
    cases h
    exact ⟨[], rfl, rfl⟩
  | cons a l ih =>
    rw [List.mapM_cons, Except.bind_eq_ok] at h
    obtain ⟨n, hn, h⟩ := h
    obtain ⟨rest, hrest, h⟩ := Except.bind_eq_ok.1 h
    cases h
    obtain ⟨ms, hms, hsum⟩ := ih hrest
    cases hp : p a with
    | true =>
      rw [hp, if_pos rfl] at hn
      refine ⟨n :: ms, ?_, by rw [List.sum_cons, List.sum_cons, hsum]⟩
      rw [List.filter_cons_of_pos hp, List.mapM_cons, hn, hms]
      rfl
    | false =>
      rw [hp, if_neg Bool.false_ne_true] at hn
      cases hn
      refine ⟨ms, ?_, by rw [List.sum_cons, hsum, Nat.zero_add]⟩
      rw [List.filter_cons_of_neg (by simp [hp]), hms]

private theorem multibroadcastPlace_eq_ok {added : Nat} {zs : List Nat}
    (hzs : zs.length = lens.length)
    (hidx : added + lens.length ≤ idx.length) (hlt : place (idx.drop added) zs < Word.limit)
    (h : ∀ i k z n stride : Nat, (idx.drop added)[i]? = some k → zs[i]? = some z → lens[i]? = some n →
      (standardStrides lens)[i]? = some stride → k * z = if n = 1 then 0 else k * stride) :
    multibroadcastPlace lens added idx = .ok (place (idx.drop added) zs) := by
  have hlen := length_standardStrides lens
  have hterms : (lens.zip (standardStrides lens)).zipIdx.mapM
      (fun a => if a.1.1 != 1 then term idx (added + a.2) a.1.2 else .ok 0) =
        .ok (List.zipWith (· * ·) (idx.drop added) zs) := by
    refine mapM_zipIdx_eq_ok (by rw [List.length_zip, List.length_drop]; omega)
      (by rw [List.length_zip]; omega) hlt fun i a k z ha hk hz hkz => ?_
    obtain ⟨hn, hstride⟩ := List.getElem?_zip_eq_some.1 ha
    have hterm := h i k z a.1 a.2 hk hz hn hstride
    rw [List.getElem?_drop] at hk
    by_cases hone : a.1 = 1
    · rw [if_pos hone] at hterm
      simp [hone, hterm]
    · rw [if_neg hone] at hterm
      simp only [bne_iff_ne, ne_eq, hone, not_false_eq_true, if_true, hterm]
      exact term_eq_ok hk (hterm ▸ hkz)
  obtain ⟨ms, hms, hsum⟩ := sum_mapM_filter hterms
  rw [multibroadcastPlace]
  refine (Except.bind_of_ok hms _).trans ?_
  rw [Word.sum_eq_ok (by rw [hsum]; exact hlt), hsum]
  rfl

/-- Entries taken at permuted positions are a permutation of all. -/
theorem perm_of_forall₂ {α : Type} {permutation : List Nat} {xs ys : List α}
    (hperm : permutation.Perm (List.range xs.length))
    (h : List.Forall₂ (fun p y => xs[p]? = some y) permutation ys) : ys.Perm xs := by
  have hread : List.Forall₂ Eq (permutation.map fun p => xs[p]?) (ys.map some) :=
    List.forall₂_map_left_iff.2 (List.forall₂_map_right_iff.2 h)
  rw [List.forall₂_eq_eq_eq] at hread
  have hall : (List.range xs.length).map (fun p => xs[p]?) = xs.map some :=
    List.ext_getElem (by simp) (by simp)
  rw [← List.map_perm_map_iff (Option.some_injective α), ← hread, ← hall]
  exact hperm.map _

private theorem forall₂_zip_getElem {permutation as bs ns ms : List Nat}
    (hns : List.Forall₂ (fun p n => as[p]? = some n) permutation ns)
    (hms : List.Forall₂ (fun p m => bs[p]? = some m) permutation ms) :
    List.Forall₂ (fun p y => (as.zip bs)[p]? = some y) permutation (ns.zip ms) := by
  induction hns generalizing ms with
  | nil =>
    cases hms
    exact .nil
  | cons hn _ ih =>
    cases hms with
    | cons hm hms => exact .cons (List.getElem?_zip_eq_some.2 ⟨hn, hm⟩) (ih hms)

theorem transposePlace_eq {name : String} {permutation : List Nat} (hin : input.Dense)
    (h : transposeShape name input permutation = .ok out) (hidx : Within idx out.lens) :
    transposePlace input.lens permutation idx = .ok (place idx out.strides) ∧
      place idx out.strides < input.lens.prod := by
  obtain ⟨hperm, lens, strides, hlens, hstrides, rfl⟩ := of_transposeShape_eq_ok hin.static h
  rw [hin.row] at hstrides
  have hspan : span (lens.zip strides) = span (input.lens.zip (standardStrides input.lens)) := by
    have hzip : (input.lens.zip (standardStrides input.lens)).length = input.lens.length := by
      rw [List.length_zip, length_standardStrides, Nat.min_self]
    exact ((perm_of_forall₂ (hzip ▸ hperm) (forall₂_zip_getElem hlens hstrides)).map _).sum_nat
  have hplace : place idx strides ≤ span (lens.zip strides) := place_le_span hidx strides
  have hlt : place idx strides < input.lens.prod := by
    have := hin.span_eq
    omega
  refine ⟨transposePlace_eq_ok hstrides ?_ (hlt.trans hin.prod_lt), hlt⟩
  exact hidx.length_eq.trans hlens.length_eq.symm

theorem broadcastPlace_eq {name : String} {axis : Nat} {outLens : List Nat} (hin : input.Dense)
    (h : broadcastShape name input axis outLens = .ok out) (hidx : Within idx out.lens) :
    broadcastPlace input.lens axis idx = .ok (place idx out.strides) ∧
      place idx out.strides < input.lens.prod := by
  obtain ⟨hle, hlens, rfl⟩ := of_broadcastShape_eq_ok hin.static h
  dsimp only
  rw [place_append_replicate, place_replicate_append, hin.row]
  have hlen : idx.length = outLens.length := hidx.length_eq
  have hstrides := length_standardStrides input.lens
  have hplace : place (idx.drop axis) (standardStrides input.lens) ≤
      span (input.lens.zip (standardStrides input.lens)) := by
    refine place_le_of_terms hstrides hstrides fun i k z n stride hk hz hn hs => ?_
    cases hz.symm.trans hs
    have hi : i < input.lens.length := (List.getElem?_eq_some_iff.1 hn).1
    rw [hlens, List.getElem?_take_of_lt hi, List.getElem?_drop] at hn
    rw [List.getElem?_drop] at hk
    have hlt := hidx.getElem_lt hk hn
    exact Nat.mul_le_mul_right _ (by omega)
  have hlt : place (idx.drop axis) (standardStrides input.lens) < input.lens.prod := by
    have := hin.span_eq
    omega
  exact ⟨broadcastPlace_eq_ok (by omega) (hlt.trans hin.prod_lt), hlt⟩

theorem multibroadcastPlace_eq {name : String} {outLens : List Nat} (hin : input.Dense)
    (h : multibroadcastShape name input outLens = .ok out) (hidx : Within idx out.lens) :
    multibroadcastPlace input.lens (outLens.length - input.lens.length) idx =
        .ok (place idx out.strides) ∧
      place idx out.strides < input.lens.prod := by
  obtain ⟨hle, strides, hlen, hget, rfl⟩ := of_multibroadcastShape_eq_ok hin.static h
  dsimp only
  rw [place_replicate_append]
  have hidxlen : idx.length = outLens.length := hidx.length_eq
  have hstrides := length_standardStrides input.lens
  have hcases : ∀ i k z n : Nat, (idx.drop (outLens.length - input.lens.length))[i]? = some k →
      strides[i]? = some z → input.lens[i]? = some n →
        k < n ∧ (standardStrides input.lens)[i]? = some z ∨ n = 1 ∧ z = 0 := by
    intro i k z n hk hz hn
    obtain ⟨len, outLen, hl, ho, hstride⟩ := hget i z hz
    cases hl.symm.trans hn
    rw [List.getElem?_drop] at hk
    refine hstride.imp_left fun hsame => ?_
    rw [← hin.row, hsame.1]
    exact ⟨hidx.getElem_lt hk ho, hsame.2⟩
  have hplace : place (idx.drop (outLens.length - input.lens.length)) strides ≤
      span (input.lens.zip (standardStrides input.lens)) := by
    refine place_le_of_terms hlen hstrides fun i k z n stride hk hz hn hs => ?_
    rcases hcases i k z n hk hz hn with ⟨hlt, hs'⟩ | ⟨-, rfl⟩
    · cases hs.symm.trans hs'
      exact Nat.mul_le_mul_right _ (by omega)
    · exact Nat.zero_le _
  have hlt : place (idx.drop (outLens.length - input.lens.length)) strides < input.lens.prod := by
    have := hin.span_eq
    omega
  refine ⟨multibroadcastPlace_eq_ok hlen (by omega) (hlt.trans hin.prod_lt) ?_, hlt⟩
  intro i k z n stride hk hz hn hs
  rcases hcases i k z n hk hz hn with ⟨hlt, hs'⟩ | ⟨rfl, rfl⟩
  · cases hs.symm.trans hs'
    split
    · have hzero : k = 0 := by omega
      rw [hzero, Nat.zero_mul]
    · rfl
  · rfl

theorem reflectedPosition_bounds {pos len : Int} (h : 0 < len) :
    0 ≤ reflectedPosition pos len ∧ reflectedPosition pos len < len := by
  rw [reflectedPosition]
  split
  · omega
  · have hperiod : (0 : Int) < 2 * (len - 1) := by omega
    have hlow := Int.emod_nonneg pos (Int.ne_of_gt hperiod)
    have hhigh := Int.emod_lt_of_pos pos hperiod
    dsimp only
    split <;> omega

/-- A padded position is led back to the axis, or lies in a constant border. -/
theorem exists_padPosition {mode : PadMode} (pos len : Int)
    (hfits : 2 * len ≤ Word.signedLimit) (hmode : mode = .constant ∨ 0 < len) :
    ∃ r, padPosition mode pos len = .ok r ∧ ∀ q ∈ r, 0 ≤ q ∧ q < len := by
  cases mode with
  | constant =>
    refine ⟨_, rfl, fun q hq => ?_⟩
    split at hq
    · cases hq
    · cases hq
      omega
  | edge =>
    have hpos : 0 < len := hmode.resolve_left nofun
    have hlast : Word.signed (len - 1) = .ok (len - 1) := Word.signed_eq_ok (by omega) (by omega)
    refine ⟨some (max 0 (min pos (len - 1))), ?_, fun q hq => ?_⟩
    · rw [padPosition, hlast, Except.ok_bind, if_neg (by omega)]
      rfl
    · cases hq
      omega
  | reflect =>
    have hpos : 0 < len := hmode.resolve_left nofun
    refine ⟨some (reflectedPosition pos len), ?_, fun q hq => ?_⟩
    · have hlast : Word.signed (len - 1) = .ok (len - 1) := Word.signed_eq_ok (by omega) (by omega)
      have hperiod : Word.signed (2 * (len - 1)) = .ok (2 * (len - 1)) :=
        Word.signed_eq_ok (by omega) (by omega)
      rw [padPosition]
      split
      · rw [hlast, Except.ok_bind, hperiod]
        rfl
      · rfl
    · cases hq
      exact reflectedPosition_bounds hpos

private theorem padPosition_ne_none {mode : PadMode} (hmode : mode ≠ .constant) (pos len : Int) :
    padPosition mode pos len ≠ .ok none := by
  intro h
  cases mode with
  | constant => exact hmode rfl
  | edge =>
    rw [padPosition, Except.bind_eq_ok] at h
    obtain ⟨last, -, h⟩ := h
    split at h <;> cases h
  | reflect =>
    rw [padPosition] at h
    split at h
    · simp only [Except.bind_eq_ok] at h
      obtain ⟨_, -, _, -, h⟩ := h
      cases h
    · cases h

/-- Only a constant border has nothing to read. -/
theorem padPlace_ne_none {mode : PadMode} (hmode : mode ≠ .constant) (axes : List (Nat × Nat))
    (idx pads : List Nat) (place : Nat) : padPlace mode axes idx pads place ≠ .ok none := by
  intro h
  induction axes generalizing idx pads place with
  | nil =>
    rw [padPlace] at h
    cases h
  | cons axis axes ih =>
    cases idx with
    | nil => cases h
    | cons i idx =>
      cases pads with
      | nil => cases h
      | cons first pads =>
        rw [padPlace, Except.bind_eq_ok] at h
        obtain ⟨pos, -, h⟩ := h
        obtain ⟨r, hr, h⟩ := Except.bind_eq_ok.1 h
        cases r with
        | none => exact padPosition_ne_none hmode _ _ hr
        | some q =>
          simp only [Except.bind_eq_ok] at h
          obtain ⟨_, -, _, -, h⟩ := h
          exact ih _ _ _ h

private theorem exists_padPlace (mode : PadMode) (axes : List (Nat × Nat)) (idx pads : List Nat)
    (place : Nat) (hidx : axes.length ≤ idx.length) (hpads : axes.length ≤ pads.length)
    (h : ∀ k len stride i first : Nat, axes[k]? = some (len, stride) → idx[k]? = some i →
      pads[k]? = some first → (2 * len ≤ Word.signedLimit ∧ 2 * i ≤ Word.signedLimit ∧
        2 * first ≤ Word.signedLimit) ∧ (mode = .constant ∨ 0 < len))
    (hlt : place + span axes < Word.limit) :
    ∃ r, padPlace mode axes idx pads place = .ok r ∧
      ∀ p ∈ r, p ≤ place + span axes ∧ ∀ a ∈ axes, a.1 ≠ 0 := by
  induction axes generalizing idx pads place with
  | nil => exact ⟨some place, by rw [padPlace], by simp [span]⟩
  | cons axis axes ih =>
    obtain ⟨len, stride⟩ := axis
    obtain ⟨i, idx, rfl⟩ := List.exists_cons_of_length_pos (Nat.lt_of_lt_of_le (Nat.succ_pos _) hidx)
    obtain ⟨first, pads, rfl⟩ :=
      List.exists_cons_of_length_pos (Nat.lt_of_lt_of_le (Nat.succ_pos _) hpads)
    obtain ⟨⟨hlen, hi, hfirst⟩, hmode⟩ := h 0 len stride i first rfl rfl rfl
    have hlimits : 0 < Word.signedLimit ∧ Word.limit = 2 * Word.signedLimit := by decide
    have hpos : Word.signed (Word.toSigned i - Word.toSigned first) = .ok ((i : Int) - first) := by
      rw [Word.toSigned_of_lt (by omega), Word.toSigned_of_lt (by omega)]
      exact Word.signed_eq_ok (by omega) (by omega)
    obtain ⟨r, hr, hq⟩ := exists_padPosition ((i : Int) - first) len
      (by omega) (hmode.imp_right (by omega))
    rw [padPlace, hpos, Except.ok_bind, Word.toSigned_of_lt (by omega), hr, Except.ok_bind]
    cases r with
    | none => exact ⟨none, rfl, by simp⟩
    | some q =>
      obtain ⟨hlow, hhigh⟩ := hq q rfl
      have hterm : Word.ofSigned q * stride ≤ (len - 1) * stride := by
        rw [Word.ofSigned_of_nonneg hlow (by omega)]
        exact Nat.mul_le_mul_right _ (by omega)
      rw [span_cons] at hlt ⊢
      dsimp only at hlt ⊢
      rw [Word.mul_eq_ok (by omega), Except.ok_bind, Word.add_eq_ok (by omega), Except.ok_bind]
      obtain ⟨r, hr, hp⟩ := ih idx pads (place + Word.ofSigned q * stride)
        (Nat.le_of_succ_le_succ hidx) (Nat.le_of_succ_le_succ hpads)
        (fun k len stride i first ha hi hf => h (k + 1) len stride i first (by simpa using ha)
          (by simpa using hi) (by simpa using hf)) (by omega)
      refine ⟨r, hr, fun p hmem => ?_⟩
      obtain ⟨hle, hne⟩ := hp p hmem
      exact ⟨by omega, List.forall_mem_cons.2 ⟨by dsimp only; omega, hne⟩⟩

theorem exists_padValue {name : String} {x : Literal} {pads : List Nat} {mode : PadMode}
    {value : Float} (hx : x.shape.RowMajor) (hsize : x.data.size = x.shape.lens.prod)
    (h : padShape name x.shape pads = .ok out) (hlong : ∀ n ∈ out.lens, 2 * n ≤ Word.signedLimit)
    (hmode : mode = .constant ∨ x.data.size ≠ 0) (hidx : Within idx out.lens) :
    ∃ v, padValue x pads mode value idx = .ok v := by
  obtain ⟨hcount, lens, rfl, hlen, hget⟩ := of_padShape_eq_ok h
  have hrank := rank_of_static hx.static
  have hstrides := length_standardStrides x.shape.lens
  have hidxlen : idx.length = lens.length := hidx.length_eq
  have hzip : (x.shape.lens.zip (standardStrides x.shape.lens)).length = x.shape.lens.length := by
    rw [List.length_zip, hstrides, Nat.min_self]
  have hspan := hx.span_eq
  have hfits := hx.fits
  obtain ⟨r, hr, hplace⟩ := exists_padPlace mode
    (x.shape.lens.zip (standardStrides x.shape.lens)) idx pads 0
    (by omega) (by omega) (fun k len stride i first ha hi hf => by
      obtain ⟨hn, -⟩ := List.getElem?_zip_eq_some.1 ha
      have hk : k < lens.length := by
        have := (List.getElem?_eq_some_iff.1 hi).1
        omega
      obtain ⟨len', first', last, hlen', hfirst', -, hsum⟩ := hget k _ (List.getElem?_eq_getElem hk)
      cases hn.symm.trans hlen'
      cases hf.symm.trans hfirst'
      have hlt := hidx.getElem_lt hi (List.getElem?_eq_getElem hk)
      have hbound := hlong _ (List.getElem_mem hk)
      refine ⟨by omega, hmode.imp_right fun hne => Nat.pos_of_ne_zero ?_⟩
      rintro rfl
      exact hne (hsize ▸ List.prod_eq_zero (List.mem_of_getElem? hn))) (by omega)
  rw [padValue, hr, Except.ok_bind]
  cases r with
  | none => exact ⟨value, rfl⟩
  | some p =>
    obtain ⟨hle, hpos⟩ := hplace p rfl
    have hmax : (x.shape.lens.map (max · 1)).prod = x.shape.lens.prod := by
      refine Word.prod_max_eq fun n hn => ?_
      obtain ⟨k, hk, rfl⟩ := List.mem_iff_getElem.1 hn
      exact hpos _ (List.mem_iff_getElem.2 ⟨k, by omega, List.getElem_zip⟩)
    have hlt : p < x.data.size := by omega
    refine ⟨x.data[p], ?_⟩
    dsimp only
    rw [Array.getElem?_eq_getElem hlt]
    rfl

/-- An empty input leaves nothing to extend. -/
theorem padValue_ne_ok {x : Literal} {pads : List Nat} {mode : PadMode} {value v : Float}
    (hmode : mode ≠ .constant) (hdata : x.data.size = 0) (idx : List Nat) :
    padValue x pads mode value idx ≠ .ok v := by
  intro h
  obtain ⟨r, hr, h⟩ := Except.bind_eq_ok.1 h
  cases r with
  | none => exact padPlace_ne_none hmode _ _ _ _ hr
  | some p =>
    dsimp only at h
    rw [Except.inRange_eq_ok, Array.getElem?_eq_none (by omega)] at h
    cases h

private theorem within_set (h : Within idx lens) (axis : Nat) :
    Within (idx.set axis 0) (lens.set axis 1) := by
  induction h generalizing axis with
  | nil => exact .nil
  | cons hi hrest ih =>
    cases axis with
    | zero => exact .cons Nat.one_pos hrest
    | succ axis => exact .cons hi (ih axis)

/-- Where the lengths are reduced, an index can be reduced as well. -/
theorem exists_reduced {name : String} {axes reduced : List Nat}
    (h : axes.foldlM (reduceAxis name) lens = .ok reduced) (hidx : Within idx lens) :
    ∃ r, axes.foldlM (Fault.setAt · · 0) idx = .ok r ∧ Within r reduced ∧
      reduced.length = lens.length := by
  induction axes generalizing lens idx with
  | nil =>
    cases h
    exact ⟨idx, rfl, hidx, rfl⟩
  | cons axis axes ih =>
    rw [List.foldlM_cons, Except.bind_eq_ok] at h
    obtain ⟨next, hnext, h⟩ := h
    rw [reduceAxis] at hnext
    split at hnext
    · cases hnext
    rename_i hlt
    rw [Nat.not_le] at hlt
    rw [Except.lift_eq_ok, Fault.setAt, if_pos hlt] at hnext
    cases hnext
    have hset : Fault.setAt idx axis 0 = .ok (idx.set axis 0) := if_pos (hidx.length_eq ▸ hlt)
    obtain ⟨r, hr, hwithin, hlen⟩ := ih h (within_set hidx axis)
    rw [List.foldlM_cons, hset]
    exact ⟨r, hr, hwithin, hlen.trans List.length_set⟩

private theorem exists_meanSums (x : Literal) (axes strides : List Nat) (sums : Array Float)
    (h : x.data.size ≠ 0 → ∀ i, ∃ idx p,
      axes.foldlM (Fault.setAt · · 0) (x.shape.multiIndex i) = .ok idx ∧
        Word.dot idx strides = .ok p ∧ p < sums.size) :
    ∃ r, meanSums x axes strides sums = .ok r ∧ r.size = sums.size := by
  by_cases hdata : x.data.size = 0
  · rw [meanSums, Array.eq_empty_of_size_eq_zero hdata]
    exact ⟨sums, rfl, rfl⟩
  have hstep := h hdata
  rw [meanSums]
  generalize x.data.toList.zipIdx = entries
  clear h
  induction entries generalizing sums with
  | nil => exact ⟨sums, rfl, rfl⟩
  | cons entry entries ih =>
    obtain ⟨v, i⟩ := entry
    obtain ⟨idx, p, hidx, hp, hlt⟩ := hstep i
    obtain ⟨r, hr, hsize⟩ := ih (sums.modify p (· + v)) fun j => by
      rw [Array.size_modify]
      exact hstep j
    refine ⟨r, ?_, hsize.trans Array.size_modify⟩
    rw [List.foldlM_cons]
    dsimp only
    rw [hidx, Except.ok_bind, hp, Except.ok_bind, if_pos hlt]
    exact hr

theorem reduceMeanData_of_capacity_lt {x : Literal} {axes : List Nat}
    (hcount : out.elements = .ok count) (hlarge : Word.capacity < count) :
    reduceMeanData x axes out = .error .capacity := by
  rw [reduceMeanData, hcount, Except.ok_bind, Word.reserve_eq_error hlarge]
  rfl

theorem exists_reduceMeanData {name : String} {x : Literal} {axes : List Nat}
    (hsize : x.shape.elements = .ok x.data.size) (h : reduceShape name x.shape axes = .ok out)
    (ht : out.isTuple = false) (ha : out.addressable) (hcount : out.elements = .ok count)
    (hroom : count ≤ Word.capacity) :
    ∃ values, reduceMeanData x axes out = .ok values ∧ values.size = count := by
  obtain ⟨reduced, hreduced, h⟩ := Except.bind_eq_ok.1 h
  cases h
  obtain ⟨sums, hsums, hlen⟩ := exists_meanSums x axes (standardStrides reduced)
    (Array.replicate count 0) (by
      intro hne i
      obtain ⟨-, hlens, hpos⟩ := of_elements_ne_zero hsize hne
      obtain ⟨idx, hidx, hwithin, hlen⟩ := exists_reduced hreduced (within_multiIndex hpos i)
      have hdense : (x.shape.withLens reduced).Dense :=
        ⟨⟨rfl, rfl, (addressable_of_not_tuple ht ha).1⟩, hwithin.ne_zero⟩
      have hprod : (x.shape.withLens reduced).elements = .ok reduced.prod := by
        refine elements_eq_prod ht rfl (fun hnil => hlens ?_) ha
        exact List.length_eq_zero_iff.1 (hlen ▸ List.length_eq_zero_iff.2 hnil)
      cases hcount.symm.trans hprod
      have hplace : place idx (standardStrides reduced) < reduced.prod := by
        have hspan : span (reduced.zip (standardStrides reduced)) + 1 = reduced.prod := hdense.span_eq
        have hle := place_le_span hwithin (standardStrides reduced)
        omega
      rw [Array.size_replicate]
      exact ⟨idx, _, hidx, dot_eq_place (hplace.trans hdense.prod_lt), hplace⟩)
  refine ⟨sums.map (· / Float.ofNat (max (x.data.size / max count 1) 1)), ?_, ?_⟩
  · rw [reduceMeanData, hcount, Except.ok_bind, Word.reserve_eq_ok hroom, Except.ok_bind]
    change (meanSums x axes (standardStrides reduced) (Array.replicate count 0) >>= _) = _
    rw [hsums, Except.ok_bind, hsize, Except.ok_bind]
    rfl
  · rw [Array.size_map, hlen, Array.size_replicate]

end TensorGraph.Operator.Evaluation
