import Mathlib.Algebra.Ring.Periodic
import TensorGraph.Proofs.Indexing
import TensorGraph.Proofs.Operator.Elements

/-! Padded tensors, element by element. An index of the output, less the pads in front, is a list of
positions along the axes of the input, which may lie outside. What each mode reads there is stated
without the loop over the axes that stops in a constant border; the positions of a reflection are
fixed by the symmetries at the two ends of an axis. -/
namespace TensorGraph

/-- The element at an index, in row-major order. -/
def Literal.entry? (l : Literal) (idx : List Nat) : Option Float :=
  l.data[Shape.place idx (Shape.rowStrides l.shape.lens)]?

namespace Operator
open TensorGraph.Operator.Evaluation TensorGraph.Operator.Inference TensorGraph.Shape
variable {mode : PadMode} {lens strides idx pads : List Nat} {len : Nat} {pos : Int}

/-- Positions are led back to an axis by reflecting them at its first and at its last position. -/
structure Reflects (len : Nat) (r : Int → Int) : Prop where
  bounds : ∀ p, 0 ≤ r p ∧ r p < len
  inside : ∀ p : Int, 0 ≤ p → p < len → r p = p
  first : ∀ p, r (-p) = r p
  last : ∀ p, r (2 * (len - 1) - p) = r p

private theorem Reflects.periodic {r : Int → Int} (h : Reflects len r) :
    Function.Periodic r (2 * (len - 1)) := by
  intro p
  rw [← h.first p, ← h.last (-p)]
  congr 1
  omega

/-- The symmetries leave one position to read. -/
theorem Reflects.eq_reflectedPosition {r : Int → Int} (h : Reflects len r) (p : Int) :
    r p = reflectedPosition p len := by
  rw [reflectedPosition]
  split
  · have := h.bounds p
    omega
  · rename_i hlen
    have hpos := h.bounds 0
    have hperiod : (0 : Int) < 2 * (len - 1) := by omega
    have hlow := Int.emod_nonneg p (Int.ne_of_gt hperiod)
    have hhigh := Int.emod_lt_of_pos p hperiod
    have hmod : r (p % (2 * (len - 1))) = r p := by
      rw [Int.emod_def, Int.mul_comm]
      exact h.periodic.sub_int_mul_eq (p / (2 * (len - 1)))
    rw [← hmod]
    dsimp only
    split
    · exact h.inside _ hlow ‹_›
    · rw [← h.last]
      exact h.inside _ (by omega) (by omega)

private theorem reflectedPosition_neg (hlen : 0 < len) (p : Int) :
    reflectedPosition (-p) len = reflectedPosition p len := by
  rw [reflectedPosition, reflectedPosition]
  split
  · rfl
  · have hperiod : (0 : Int) < 2 * (len - 1) := by omega
    have hlow := Int.emod_nonneg p (Int.ne_of_gt hperiod)
    have hhigh := Int.emod_lt_of_pos p hperiod
    have hneg : -p % (2 * (len - 1)) =
        if p % (2 * (len - 1)) = 0 then 0 else 2 * (len - 1) - p % (2 * (len - 1)) := by
      simp only [Int.neg_emod, Int.dvd_iff_emod_eq_zero]
      split <;> omega
    dsimp only
    rw [hneg]
    split <;> split <;> split <;> omega

private theorem reflects_reflectedPosition (hlen : 0 < len) :
    Reflects len fun p => reflectedPosition p len where
  bounds p := reflectedPosition_bounds (by omega)
  inside p hlow hhigh := by
    rw [reflectedPosition]
    split
    · omega
    · dsimp only
      by_cases hlast : p = 2 * (len - 1)
      · omega
      · rw [Int.emod_eq_of_lt hlow (by omega), if_pos hhigh]
  first := reflectedPosition_neg hlen
  last p := by
    have hturn : (2 * ((len : Int) - 1) - p) % (2 * (len - 1)) = -p % (2 * (len - 1)) := by
      rw [Int.sub_eq_add_neg, Int.add_emod_left]
    rw [← reflectedPosition_neg hlen p]
    simp only [reflectedPosition, hturn]

/-- The position on the axis that is read, where there is one. -/
def sourcePosition : PadMode → Int → Nat → Int
  | .constant, pos, _ => pos
  | .edge, pos, len => max 0 (min pos (len - 1))
  | .reflect, pos, len => reflectedPosition pos len

/-- The positions along the input of an index of the output. -/
def offsets (idx pads : List Nat) : List Int :=
  List.zipWith (fun (i first : Nat) => (i : Int) - first) idx pads

/-- Every position lies on its axis. -/
def Inside (positions : List Int) (lens : List Nat) : Prop :=
  List.Forall₂ (fun (p : Int) (len : Nat) => 0 ≤ p ∧ p < len) positions lens

def sourceIndex (mode : PadMode) (positions : List Int) (lens : List Nat) : List Nat :=
  List.zipWith (fun (p : Int) (len : Nat) => (sourcePosition mode p len).toNat) positions lens

private theorem sourcePosition_of_inside (hlow : 0 ≤ pos) (hhigh : pos < len) :
    sourcePosition mode pos len = pos := by
  cases mode with
  | constant => rfl
  | edge =>
    rw [sourcePosition]
    omega
  | reflect => exact (reflects_reflectedPosition (by omega)).inside pos hlow hhigh

/-- Positions on their axes are read as they are, in every mode. -/
theorem sourceIndex_of_inside {positions : List Int} (h : Inside positions lens) :
    sourceIndex mode positions lens = positions.map Int.toNat := by
  induction h with
  | nil => rfl
  | cons hp _ ih =>
    rw [sourceIndex, List.zipWith_cons_cons, sourcePosition_of_inside hp.1 hp.2, List.map_cons]
    exact congrArg _ ih

private theorem of_padPosition_eq_ok {r : Option Int} (hlen : 0 < len)
    (h : padPosition mode pos len = .ok r) :
    (r = none ∧ mode = .constant ∧ ¬ (0 ≤ pos ∧ pos < len)) ∨
      r = some (sourcePosition mode pos len) ∧ (mode = .constant → 0 ≤ pos ∧ pos < len) ∧
        0 ≤ sourcePosition mode pos len ∧ sourcePosition mode pos len < len := by
  cases mode with
  | constant =>
    cases h
    split
    · exact .inl ⟨rfl, rfl, by omega⟩
    · refine .inr ⟨rfl, fun _ => by omega, ?_⟩
      rw [sourcePosition]
      omega
  | edge =>
    rw [padPosition, Except.bind_eq_ok] at h
    obtain ⟨last, hlast, h⟩ := h
    rw [Word.signed] at hlast
    split at hlast
    · cases hlast
      split at h
      · cases h
      · cases h
        refine .inr ⟨rfl, (fun hmode => by cases hmode), ?_⟩
        rw [sourcePosition]
        omega
    · cases hlast
  | reflect =>
    have hr : r = some (reflectedPosition pos len) := by
      rw [padPosition] at h
      split at h
      · simp only [Except.bind_eq_ok] at h
        obtain ⟨_, -, _, -, h⟩ := h
        cases h
        rfl
      · cases h
        rfl
    exact .inr ⟨hr, (fun hmode => by cases hmode), reflectedPosition_bounds (by omega)⟩

/-- The place that is read, axis by axis. The first axis in a constant border decides. -/
theorem of_padPlace_eq_ok {start : Nat} {r : Option Nat} (hstrides : strides.length = lens.length)
    (hidx : idx.length = lens.length)
    (hfits : ∀ k len i first : Nat, lens[k]? = some len → idx[k]? = some i →
      pads[k]? = some first → 0 < len ∧ len < Word.signedLimit ∧ i < Word.signedLimit ∧
        first < Word.signedLimit)
    (h : padPlace mode (lens.zip strides) idx pads start = .ok r) :
    (r = none ∧ mode = .constant ∧ ¬ Inside (offsets idx pads) lens) ∨
      r = some (start + place (sourceIndex mode (offsets idx pads) lens) strides) ∧
        (mode = .constant → Inside (offsets idx pads) lens) := by
  induction lens generalizing strides idx pads start with
  | nil =>
    rw [List.zip_nil_left, padPlace] at h
    cases h
    cases List.length_eq_zero_iff.1 hidx
    cases List.length_eq_zero_iff.1 hstrides
    exact .inr ⟨rfl, fun _ => .nil⟩
  | cons len lens ih =>
    obtain ⟨stride, strides, rfl⟩ := List.exists_cons_of_length_eq_add_one hstrides
    obtain ⟨i, idx, rfl⟩ := List.exists_cons_of_length_eq_add_one hidx
    cases pads with
    | nil => cases h
    | cons first pads =>
      obtain ⟨hlen, hl, hi, hf⟩ := hfits 0 len i first rfl rfl rfl
      have hlimits : Word.limit = 2 * Word.signedLimit := by decide
      rw [List.zip_cons_cons, padPlace, Word.toSigned_of_lt hi, Word.toSigned_of_lt hf,
        Word.toSigned_of_lt hl, Word.signed_eq_ok (by omega) (by omega), Except.ok_bind] at h
      obtain ⟨q, hq, h⟩ := Except.bind_eq_ok.1 h
      have hoffsets : offsets (i :: idx) (first :: pads) = ((i : Int) - first) :: offsets idx pads := rfl
      rw [hoffsets]
      rcases of_padPosition_eq_ok hlen hq with ⟨rfl, hmode, hout⟩ | ⟨rfl, hin, hlow, hhigh⟩
      · cases h
        exact .inl ⟨rfl, hmode, fun hinside => hout (List.forall₂_cons.1 hinside).1⟩
      · dsimp only at h
        rw [Word.ofSigned_of_nonneg hlow (by omega)] at h
        simp only [Except.bind_eq_ok] at h
        obtain ⟨term, hterm, sum, hsum, h⟩ := h
        have hrest := ih (Nat.succ.inj hstrides) (Nat.succ.inj hidx)
          (fun k len i first ha hb hc => hfits (k + 1) len i first (by simpa using ha)
            (by simpa using hb) (by simpa using hc)) h
        rw [Word.mul] at hterm
        rw [Word.add] at hsum
        split at hterm <;> cases hterm
        split at hsum <;> cases hsum
        rcases hrest with ⟨rfl, hmode, hout⟩ | ⟨rfl, hin'⟩
        · exact .inl ⟨rfl, hmode, fun hinside => hout (List.forall₂_cons.1 hinside).2⟩
        · refine .inr ⟨?_, fun hmode => .cons (hin hmode) (hin' hmode)⟩
          rw [Nat.add_assoc]
          rfl

/-- A padded value is the one of a constant border, or an element of the input. -/
theorem of_padValue_eq_ok {x : Literal} {value e : Float} (hx : x.shape.Dense)
    (hidx : idx.length = x.shape.lens.length)
    (hfits : ∀ k len i first : Nat, x.shape.lens[k]? = some len → idx[k]? = some i →
      pads[k]? = some first → 0 < len ∧ len < Word.signedLimit ∧ i < Word.signedLimit ∧
        first < Word.signedLimit)
    (h : padValue x pads mode value idx = .ok e) :
    (e = value ∧ mode = .constant ∧ ¬ Inside (offsets idx pads) x.shape.lens) ∨
      x.entry? (sourceIndex mode (offsets idx pads) x.shape.lens) = some e ∧
        (mode = .constant → Inside (offsets idx pads) x.shape.lens) := by
  obtain ⟨r, hr, h⟩ := Except.bind_eq_ok.1 h
  rcases of_padPlace_eq_ok (length_standardStrides x.shape.lens) hidx hfits hr with
    ⟨rfl, hborder⟩ | ⟨rfl, hinside⟩
  · cases h
    exact .inl ⟨rfl, hborder⟩
  · rw [standardStrides_eq hx.fits, Nat.zero_add] at h
    exact .inr ⟨Except.inRange_eq_ok.1 h, hinside⟩

/-- The length of each axis with its pads in front and behind. -/
def paddedLens (lens pads : List Nat) : List Nat :=
  List.zipWith (· + ·) (List.zipWith (· + ·) lens pads) (pads.drop lens.length)

/-- The row-major shape of a padded tensor. -/
def paddedShape (s : Shape) (pads : List Nat) : Shape :=
  packedOf s.elementType (paddedLens s.lens pads)

private theorem length_paddedLens (hpads : pads.length = 2 * lens.length) :
    (paddedLens lens pads).length = lens.length := by
  simp only [paddedLens, List.length_zipWith, List.length_drop]
  omega

private theorem pos_paddedLens (h : ∀ n ∈ lens, 0 < n) : ∀ n ∈ paddedLens lens pads, 0 < n := by
  intro n hn
  obtain ⟨k, hk⟩ := List.mem_iff_getElem?.1 hn
  obtain ⟨_, last, hsum, -, rfl⟩ := List.getElem?_zipWith_eq_some.1 hk
  obtain ⟨len, first, hlen, -, rfl⟩ := List.getElem?_zipWith_eq_some.1 hsum
  have := h len (List.mem_of_getElem? hlen)
  omega

private theorem getElem?_paddedLens {k len first last : Nat} (hlen : lens[k]? = some len)
    (hfirst : pads[k]? = some first) (hlast : pads[k + lens.length]? = some last) :
    (paddedLens lens pads)[k]? = some (len + first + last) := by
  simp [paddedLens, List.getElem?_zipWith, hlen, hfirst, Nat.add_comm lens.length k, hlast]

private theorem paddedLen_eq_ok {op : String} {s : Shape} {k len first last : Nat}
    (hlen : s.lens[k]? = some len) (hfirst : pads[k]? = some first)
    (hlast : pads[k + s.rank]? = some last) (hfit : len + first + last < Word.limit) :
    paddedLen op s pads k = .ok (len + first + last) := by
  have hadd := Word.add?_add?_eq_some.2 ⟨hfit, rfl⟩
  rw [paddedLen, hlen, hfirst, hlast]
  refine (Except.bind_of_ok (Except.lift_eq_ok.2 (Except.inRange_eq_ok.2 rfl)) _).trans ?_
  refine (Except.bind_of_ok (Except.lift_eq_ok.2 (Except.inRange_eq_ok.2 rfl)) _).trans ?_
  refine (Except.bind_of_ok (Except.lift_eq_ok.2 (Except.inRange_eq_ok.2 rfl)) _).trans ?_
  rw [hadd]
  rfl

theorem padShape_eq_ok {op : String} {s : Shape} (hd : s.isDynamic = false)
    (hpads : pads.length = 2 * s.lens.length) (hfit : ∀ n ∈ paddedLens s.lens pads, n < Word.limit) :
    padShape op s pads = .ok (paddedShape s pads) := by
  have hlength := length_paddedLens hpads
  have hmap : (List.range s.lens.length).mapM (paddedLen op s pads) =
      .ok (paddedLens s.lens pads) := by
    rw [Except.mapM_eq_ok, List.forall₂_iff_get]
    refine ⟨by simp [hlength], fun k hk hk' => ?_⟩
    replace hk : k < s.lens.length := by simpa using hk
    have hlen := List.getElem?_eq_getElem hk
    have hfirst := List.getElem?_eq_getElem (show k < pads.length by omega)
    have hlast := List.getElem?_eq_getElem (show k + s.lens.length < pads.length by omega)
    obtain ⟨_, hsum⟩ := List.getElem?_eq_some_iff.1 (getElem?_paddedLens hlen hfirst hlast)
    have hlt := hfit _ (List.getElem_mem hk')
    rw [List.get_eq_getElem, List.get_eq_getElem, List.getElem_range, hsum]
    exact paddedLen_eq_ok hlen hfirst (by rw [rank_of_static hd]; exact hlast) (hsum ▸ hlt)
  rw [padShape, rank_of_static hd, if_neg (not_not.2 hpads)]
  exact Except.bind_of_ok hmap _

/-- Lengths, indices and pads are signed words where the output is not too long. -/
theorem fits_of_within (hlens : ∀ n ∈ lens, 0 < n) (hpads : pads.length = 2 * lens.length)
    (hfit : ∀ n ∈ paddedLens lens pads, n < Word.signedLimit)
    (hidx : Within idx (paddedLens lens pads)) :
    ∀ k len i first : Nat, lens[k]? = some len → idx[k]? = some i → pads[k]? = some first →
      0 < len ∧ len < Word.signedLimit ∧ i < Word.signedLimit ∧ first < Word.signedLimit := by
  intro k len i first hlen hi hfirst
  have hk := (List.getElem?_eq_some_iff.1 hlen).1
  have hlast := List.getElem?_eq_getElem (show k + lens.length < pads.length by omega)
  have hsum := getElem?_paddedLens hlen hfirst hlast
  have hlt := hidx.getElem_lt hi hsum
  have hbound := hfit _ (List.mem_of_getElem? hsum)
  exact ⟨hlens len (List.mem_of_getElem? hlen), by omega, by omega, by omega⟩

/-- An index of the input, moved by the pads in front, is one of the output. -/
theorem within_shifted {firsts lasts : List Nat} (h : Within idx lens)
    (hfirsts : lens.length ≤ firsts.length) (hlasts : lens.length ≤ lasts.length) :
    Within (List.zipWith (· + ·) idx firsts)
      (List.zipWith (· + ·) (List.zipWith (· + ·) lens firsts) lasts) := by
  induction h generalizing firsts lasts with
  | nil => exact .nil
  | cons hi _ ih =>
    obtain ⟨first, firsts, rfl⟩ :=
      List.exists_cons_of_length_pos (Nat.lt_of_lt_of_le (Nat.succ_pos _) hfirsts)
    obtain ⟨last, lasts, rfl⟩ :=
      List.exists_cons_of_length_pos (Nat.lt_of_lt_of_le (Nat.succ_pos _) hlasts)
    refine .cons ?_ (ih (Nat.le_of_succ_le_succ hfirsts) (Nat.le_of_succ_le_succ hlasts))
    dsimp only
    omega

private theorem offsets_shifted {firsts : List Nat} (h : Within idx lens)
    (hfirsts : lens.length ≤ firsts.length) :
    Inside (offsets (List.zipWith (· + ·) idx firsts) firsts) lens ∧
      (offsets (List.zipWith (· + ·) idx firsts) firsts).map Int.toNat = idx := by
  induction h generalizing firsts with
  | nil => exact ⟨.nil, rfl⟩
  | @cons i len idx lens hi _ ih =>
    obtain ⟨first, firsts, rfl⟩ :=
      List.exists_cons_of_length_pos (Nat.lt_of_lt_of_le (Nat.succ_pos _) hfirsts)
    obtain ⟨hinside, hmap⟩ := ih (Nat.le_of_succ_le_succ hfirsts)
    have hback : ((i + first : Nat) : Int) - first = i := by omega
    refine ⟨.cons (by dsimp only; omega) hinside, ?_⟩
    rw [offsets, List.zipWith_cons_cons, List.zipWith_cons_cons, List.map_cons, hback]
    exact congrArg _ hmap

/-- A table holds at each index what is computed there. -/
theorem entry_of_tabulate {out : Shape} {f : List Nat → Except Fault Float} {values : Array Float}
    (hcount : out.elements = .ok out.lens.prod) (h : tabulate out f = .ok values)
    (hidx : Within idx out.lens) :
    ∃ e, f idx = .ok e ∧ values[place idx (rowStrides out.lens)]? = some e := by
  obtain ⟨hsize, hget⟩ := of_tabulate_eq_ok h
  have hlt : place idx (rowStrides out.lens) < values.size := by
    have hplace := place_rowStrides_lt hidx
    rw [Word.prod_max_eq hidx.ne_zero] at hplace
    rwa [← Except.ok.inj (hcount.symm.trans hsize)]
  have hvalue := Array.getElem?_eq_getElem hlt
  have hindex : out.multiIndex (place idx (rowStrides out.lens)) = idx := unravel_place hidx
  refine ⟨_, ?_, hvalue⟩
  rw [← hget _ _ hvalue, hindex]

/-- The tensor is the other one with pads at the ends of its axes, element by element. -/
structure Padded (x : Literal) (pads : List Nat) (mode : PadMode) (value : Float) (v : Literal) :
    Prop where
  shape : v.shape = paddedShape x.shape pads
  isSome : ∀ idx, Within idx v.shape.lens → (v.entry? idx).isSome
  constant : mode = .constant → ∀ idx, Within idx v.shape.lens →
    (Inside (offsets idx pads) x.shape.lens →
      v.entry? idx = x.entry? ((offsets idx pads).map Int.toNat)) ∧
    (¬ Inside (offsets idx pads) x.shape.lens →
      v.entry? idx = some (x.shape.elementType.cast value))
  edge : mode = .edge → ∀ idx, Within idx v.shape.lens →
    v.entry? idx = x.entry? (List.zipWith (fun (p : Int) (len : Nat) =>
      (max 0 (min p (len - 1))).toNat) (offsets idx pads) x.shape.lens)
  /-- The reflection is any one that has the symmetries. -/
  reflect : mode = .reflect → ∀ r : Nat → Int → Int, (∀ len ∈ x.shape.lens, Reflects len (r len)) →
    ∀ idx, Within idx v.shape.lens →
      v.entry? idx = x.entry? (List.zipWith (fun (p : Int) (len : Nat) =>
        (r len p).toNat) (offsets idx pads) x.shape.lens)
  interior : ∀ idx, Within idx x.shape.lens →
    v.entry? (List.zipWith (· + ·) idx pads) = x.entry? idx

private theorem sourceIndex_reflect {r : Nat → Int → Int} (hr : ∀ len ∈ lens, Reflects len (r len))
    (positions : List Int) :
    sourceIndex .reflect positions lens =
      List.zipWith (fun (p : Int) (len : Nat) => (r len p).toNat) positions lens := by
  induction lens generalizing positions with
  | nil => simp [sourceIndex]
  | cons len lens ih =>
    cases positions with
    | nil => rfl
    | cons p positions =>
      obtain ⟨hlen, hlens⟩ := List.forall_mem_cons.1 hr
      rw [sourceIndex, List.zipWith_cons_cons, List.zipWith_cons_cons, hlen.eq_reflectedPosition]
      exact congrArg _ (ih hlens positions)

/-- What is read at each index makes a padded tensor. -/
theorem Padded.of_entries {x v : Literal} {value : Float} (hpads : pads.length = 2 * x.shape.lens.length)
    (hshape : v.shape = paddedShape x.shape pads)
    (hborder : mode = .constant → ∀ idx, Within idx v.shape.lens →
      ¬ Inside (offsets idx pads) x.shape.lens →
        v.entry? idx = some (x.shape.elementType.cast value))
    (hread : ∀ idx, Within idx v.shape.lens →
      (mode = .constant → Inside (offsets idx pads) x.shape.lens) → ∃ e, v.entry? idx = some e ∧
        x.entry? (sourceIndex mode (offsets idx pads) x.shape.lens) = some e) :
    Padded x pads mode value v := by
  have heq : ∀ idx, Within idx v.shape.lens →
      (mode = .constant → Inside (offsets idx pads) x.shape.lens) →
        v.entry? idx = x.entry? (sourceIndex mode (offsets idx pads) x.shape.lens) := by
    intro idx hidx hmode
    obtain ⟨e, hv, hx⟩ := hread idx hidx hmode
    rw [hv, hx]
  refine ⟨hshape, fun idx hidx => ?_, fun hmode idx hidx => ⟨fun hin => ?_, hborder hmode idx hidx⟩,
    ?_, ?_, fun idx hidx => ?_⟩
  · by_cases hin : mode = .constant → Inside (offsets idx pads) x.shape.lens
    · obtain ⟨e, hv, -⟩ := hread idx hidx hin
      rw [hv, Option.isSome_some]
    · obtain ⟨hmode, hout⟩ := Classical.not_imp.1 hin
      rw [hborder hmode idx hidx hout, Option.isSome_some]
  · rw [heq idx hidx fun _ => hin, sourceIndex_of_inside hin]
  · rintro rfl idx hidx
    exact heq idx hidx fun hmode => by cases hmode
  · rintro rfl r hr idx hidx
    rw [← sourceIndex_reflect hr]
    exact heq idx hidx fun hmode => by cases hmode
  · obtain ⟨hin, hback⟩ := offsets_shifted hidx (show x.shape.lens.length ≤ pads.length by omega)
    have hwithin : Within (List.zipWith (· + ·) idx pads) v.shape.lens := by
      rw [hshape]
      exact within_shifted hidx (by omega) (by rw [List.length_drop]; omega)
    rw [heq _ hwithin fun _ => hin, sourceIndex_of_inside hin, hback]

/-- A tensor with axes, none of them empty, and two pads for each axis. The output can be addressed. -/
structure Paddable (x : Literal) (pads : List Nat) : Prop where
  made : x.Made
  notTuple : x.shape.isTuple = false
  static : x.shape.isDynamic = false
  axes : x.shape.lens ≠ []
  pos : ∀ n ∈ x.shape.lens, 0 < n
  count : pads.length = 2 * x.shape.lens.length
  addressable : (paddedShape x.shape pads).addressable = true

namespace Paddable
variable {x : Literal} {value : Float} (h : Paddable x pads)
include h

private theorem size_ne_zero : x.data.size ≠ 0 := by
  rw [h.made.size_eq h.notTuple h.static h.axes]
  exact List.prod_ne_zero fun hzero => absurd (h.pos 0 hzero) (Nat.lt_irrefl 0)

private theorem axes_ne_nil : (paddedShape x.shape pads).lens ≠ [] := by
  intro hnil
  refine h.axes (List.length_eq_zero_iff.1 ?_)
  exact (length_paddedLens h.count).symm.trans (congrArg _ hnil)

theorem elements_eq : (paddedShape x.shape pads).elements =
    .ok (paddedLens x.shape.lens pads).prod :=
  elements_eq_prod h.notTuple rfl h.axes_ne_nil h.addressable

private theorem le_prod :
    ∀ n ∈ paddedLens x.shape.lens pads, n ≤ (paddedLens x.shape.lens pads).prod := by
  have hpos : (paddedLens x.shape.lens pads).prod ≠ 0 :=
    List.prod_ne_zero fun hzero => absurd (pos_paddedLens h.pos 0 hzero) (Nat.lt_irrefl 0)
  exact fun n hn => Nat.le_of_dvd (Nat.pos_of_ne_zero hpos) (List.dvd_prod hn)

private theorem padShape_eq : padShape "pad" x.shape pads = .ok (paddedShape x.shape pads) := by
  have hsingle : (paddedShape x.shape pads).isTuple = false := h.notTuple
  have hlimit := (eq_prod_of_elements hsingle rfl h.axes_ne_nil h.elements_eq).2
  exact padShape_eq_ok h.static h.count fun n hn => (h.le_prod n hn).trans_lt hlimit

section
variable (hroom : (paddedLens x.shape.lens pads).prod ≤ Word.capacity)
include hroom

/-- Nothing out of range is read. -/
theorem exists_table (mode : PadMode) (value : Float) :
    ∃ values, tabulate (paddedShape x.shape pads) (padValue x pads mode value) = .ok values ∧
      values.size = (paddedLens x.shape.lens pads).prod := by
  obtain ⟨hdense, hsize⟩ := h.made.dense h.size_ne_zero
  refine exists_tabulate h.elements_eq hroom fun _ idx hidx => ?_
  refine exists_padValue hdense.toRowMajor hsize h.padShape_eq (fun n hn => ?_)
    (.inr h.size_ne_zero) hidx
  exact Word.two_mul_le_signedLimit ((h.le_prod n hn).trans hroom)

private theorem padded_of_table {values : Array Float}
    (hvalues : tabulate (paddedShape x.shape pads) (padValue x pads mode value) = .ok values)
    {v : Literal} (hshape : v.shape = paddedShape x.shape pads)
    (hdata : v.data = values.map x.shape.elementType.cast) : Padded x pads mode value v := by
  obtain ⟨hdense, -⟩ := h.made.dense h.size_ne_zero
  have hshort : Word.capacity < Word.signedLimit := by decide
  have hsigned : ∀ n ∈ paddedLens x.shape.lens pads, n < Word.signedLimit := fun n hn =>
    ((h.le_prod n hn).trans hroom).trans_lt hshort
  have hentry : ∀ idx, Within idx (paddedLens x.shape.lens pads) → ∃ e,
      v.entry? idx = some (x.shape.elementType.cast e) ∧
      ((e = value ∧ mode = .constant ∧ ¬ Inside (offsets idx pads) x.shape.lens) ∨
        x.entry? (sourceIndex mode (offsets idx pads) x.shape.lens) = some e ∧
          (mode = .constant → Inside (offsets idx pads) x.shape.lens)) := by
    intro idx hidx
    obtain ⟨e, hvalue, hget⟩ := entry_of_tabulate h.elements_eq hvalues hidx
    have hlength := hidx.length_eq.trans (length_paddedLens h.count)
    have hfits := fits_of_within h.pos h.count hsigned hidx
    refine ⟨e, ?_, of_padValue_eq_ok hdense hlength hfits hvalue⟩
    rw [Literal.entry?, hshape, hdata]
    exact Array.getElem?_map.trans (congrArg _ hget)
  have hlens : v.shape.lens = paddedLens x.shape.lens pads := congrArg Shape.lens hshape
  refine .of_entries h.count hshape (fun hmode idx hidx hout => ?_) fun idx hidx hin => ?_
  · obtain ⟨e, he, ⟨rfl, -⟩ | ⟨-, hin⟩⟩ := hentry idx (hlens ▸ hidx)
    · exact he
    · exact absurd (hin hmode) hout
  · obtain ⟨e, he, ⟨-, hmode, hout⟩ | ⟨hread, -⟩⟩ := hentry idx (hlens ▸ hidx)
    · exact absurd (hin hmode) hout
    · rw [h.made.cast_eq (Array.mem_of_getElem? hread)] at he
      exact ⟨e, he, hread⟩

end

end Paddable

/-- Padding evaluates to its definition, for every tensor with elements, all pads and every mode: the
shape is inferred, and each element of the value is the one of the input that the mode leads to, or that
of the border. It breaks down exactly if no buffer holds the value. There is exactly one reflection for
each length of an axis. -/
theorem pad_evaluates {x : Literal} (h : Paddable x pads) (mode : PadMode) (value : Float)
    (mods : List (List Shape)) :
    (∀ len : Nat, 0 < len → ∃! r, Reflects len r) ∧
    (pad pads mode value).inferShape [x.shape] mods = .ok (paddedShape x.shape pads) ∧
    (Word.capacity < (paddedLens x.shape.lens pads).prod →
      (pad pads mode value).evaluate (paddedShape x.shape pads) [x] = .error .capacity) ∧
    ((paddedLens x.shape.lens pads).prod ≤ Word.capacity →
      ∃ v, (pad pads mode value).evaluate (paddedShape x.shape pads) [x] = .ok (some v) ∧
        Padded x pads mode value v) := by
  have hstd : (paddedShape x.shape pads).asStandard = paddedShape x.shape pads :=
    asStandard_of_static rfl h.notTuple
  refine ⟨fun len hlen => ⟨_, reflects_reflectedPosition hlen, fun r hr => ?_⟩, ?_, ?_, ?_⟩
  · exact funext hr.eq_reflectedPosition
  · exact inferShape_eq_ok.2
      ⟨static_eq_ok.2 ⟨x.shape, rfl, h.notTuple, h.static, h.padShape_eq⟩, h.addressable⟩
  · intro hlarge
    change tabulate (paddedShape x.shape pads).asStandard _ >>= _ = _
    rw [hstd, tabulate_of_capacity_lt h.elements_eq hlarge]
    rfl
  · intro hroom
    obtain ⟨values, hvalues, hsize⟩ := h.exists_table hroom mode value
    obtain ⟨v, hv, hshape, hdata⟩ :=
      Literal.ofComputed_eq_ok (h.elements_eq.trans (congrArg _ hsize.symm)) (hsize.trans_le hroom)
    have hevaluate : (pad pads mode value).evaluate (paddedShape x.shape pads) [x] =
        some <$> Literal.ofComputed (paddedShape x.shape pads).asStandard values :=
      Except.bind_of_ok (hstd.symm ▸ hvalues) _
    rw [hstd, hv] at hevaluate
    exact ⟨v, hevaluate, h.padded_of_table hroom hvalues (hshape.trans hstd) hdata⟩

/-- One row of two elements. -/
def rowLiteral : Literal :=
  { pairLiteral with shape := packedOf .float [1, 2] }

/-- A reflection by more than the lengths of the axes, one of which has no other position. -/
theorem pad_evaluates_row :
    Paddable rowLiteral [1, 3, 0, 2] ∧
      ∃ v, (pad [1, 3, 0, 2] .reflect 0).evaluate (packedOf .float [2, 7]) [rowLiteral] = .ok (some v) ∧
        Padded rowLiteral [1, 3, 0, 2] .reflect 0 v ∧ v.entry? [0, 0] = some 2 ∧
          v.entry? [1, 4] = some 2 := by
  have hp : Paddable rowLiteral [1, 3, 0, 2] :=
    ⟨⟨packedOf .float [1, 2], #[1, 2], by decide +kernel⟩, rfl, rfl,
      by simp [rowLiteral, packedOf], by decide, rfl, by decide +kernel⟩
  obtain ⟨v, hv, hpadded⟩ := (pad_evaluates hp .reflect 0 []).2.2.2 (by decide)
  refine ⟨hp, v, hv, hpadded, ?_, ?_⟩
  · have hread := hpadded.reflect rfl (fun len p => reflectedPosition p len)
      (fun len hlen => reflects_reflectedPosition (hp.pos len hlen)) [0, 0]
      (by rw [hpadded.shape]; decide)
    exact hread.trans (by decide +kernel)
  · exact (hpadded.interior [0, 1] (by decide)).trans (by decide +kernel)

/-- One value is padded to more of them than a buffer holds. -/
theorem pad_exceeds_capacity :
    let x : Literal := .scalar .uint8 1
    let s : Shape := packedOf .uint8 [2305843009213693953]
    Paddable x [2305843009213693952, 0] ∧
      (pad [2305843009213693952, 0] .constant 1).inferShape [x.shape] [] = .ok s ∧
      (pad [2305843009213693952, 0] .constant 1).evaluate s [x] = .error .capacity := by
  intro x s
  have hmade : x.Made := Literal.made_scalar (by decide) 1
  exact ⟨⟨hmade, rfl, rfl, by decide, by decide, rfl, by decide +kernel⟩,
    by decide +kernel, by decide +kernel⟩

end Operator
end TensorGraph
