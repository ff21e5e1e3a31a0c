import TensorGraph.Proofs.Module.Accepted
import TensorGraph.Proofs.Pass.Padding

/-! Folding a border of zeros into a convolution is exact. The convolution that pads by itself has
the shape of the old one, and along each axis its window reads the same elements, or the same zeros.
No two folds meet: what is folded is a convolution, what it reads is a pad. -/
namespace TensorGraph.Pass
open TensorGraph.Action TensorGraph.Module
variable {m m' m₀ : Module} {i x weights : InstructionId} {n : Instruction} {window : Window}
  {pads : List Nat}

namespace Pad
open TensorGraph.Operator TensorGraph.Operator.Inference TensorGraph.Operator.Evaluation

/-- The position that a coordinate on an axis reads. Outside of the axis, zero is read. -/
def readAt (len : Nat) (c : Int) : Option Int :=
  if 0 ≤ c ∧ c < len then some c else none

private theorem padPosition_constant (len : Nat) (pos : Int) :
    padPosition .constant pos len = .ok (readAt len pos) := by
  have hneg : (pos < 0 ∨ len ≤ pos) ↔ ¬ (0 ≤ pos ∧ pos < len) := by omega
  rw [padPosition, readAt]
  simp only [hneg, ite_not]

/-- An axis, and the amounts of zeros before and after it. -/
structure Bordered where
  len : Nat
  first : Nat
  last : Nat

/-- The position on the axis that a coordinate on the padded axis reads. Outside of the padded axis
and in the border, zero is read. -/
def Bordered.read (a : Bordered) (c : Int) : Except Fault (Option Int) :=
  match readAt (a.len + a.first + a.last) c with
  | none => .ok none
  | some p => padPosition .constant (p - a.first) a.len

private theorem Bordered.read_eq (a : Bordered) (c : Int) :
    a.read c = .ok (readAt a.len (c - a.first)) := by
  rw [read, readAt]
  split
  · rename_i hout
    have hno : ¬ (0 ≤ c - a.first ∧ c - a.first < a.len) := by
      split at hout
      · cases hout
      · omega
    rw [readAt, if_neg hno]
  · rename_i p hin
    split at hin <;> cases hin
    exact padPosition_constant ..

/-- The axis of an input, and what a pad with these amounts adds to it. -/
def Bordered.Of (pads lens padded : List Nat) (axis : Nat) (a : Bordered) : Prop :=
  lens[axis]? = some a.len ∧ pads[axis]? = some a.first ∧ pads[axis + lens.length]? = some a.last ∧
    padded[axis]? = some (a.len + a.first + a.last)

/-- How a window moves along an axis, and how far before the axis it begins. -/
structure Course where
  stride : Nat
  dilation : Nat
  before : Nat

/-- The coordinate of a tap of the window, for an output position. -/
def Course.coordinate (s : Course) (o t : Nat) : Int :=
  o * s.stride + t * s.dilation - s.before

/-- The course of a window along one of so many spatial axes. -/
def Course.Of (window : Window) (axes axis : Nat) (s : Course) : Prop :=
  window.stride[axis]? = some s.stride ∧ window.dilation[axis]? = some s.dilation ∧
    ∃ after, PaddedBy window axes axis s.before after

/-- With other paddings and without the pad, the window reads along each spatial axis what it reads
of the padded input. -/
def SameReads (window : Window) (padding pads lens padded : List Nat) : Prop :=
  ∀ axis < lens.length - 2, ∃ a s s', Bordered.Of pads lens padded (axis + 2) a ∧
    Course.Of window (lens.length - 2) axis s ∧
      Course.Of { window with padding := padding } (lens.length - 2) axis s' ∧
        ∀ o t, a.read (s.coordinate o t) = .ok (readAt a.len (s'.coordinate o t))

/-- The amounts of a pad of spatial axes can be added to those of the window. -/
theorem sameReads_addPads {x padded : Shape} {op : String} {first last before after b a : List Nat}
    (hd : x.isDynamic = false) (hp : padShape op x pads = .ok padded)
    (hspatial : spatialPads padded.rank pads = some (first, last))
    (hsplit : splitPadding (padded.rank - 2) window.padding = some (before, after))
    (hcounts : window.stride.length = padded.rank - 2 ∧ window.dilation.length = padded.rank - 2)
    (hb : addPads before first = .ok b) (ha : addPads after last = .ok a) :
    SameReads window (b ++ a) pads x.lens padded.lens := by
  have hxrank := Shape.rank_of_static hd
  obtain ⟨hbefore, hafter⟩ := length_splitPadding hsplit
  obtain ⟨batch, channels, xs, hx, hpadded, hf, hl⟩ := lens_of_spatialPads hd hp hspatial
  rw [rank_of_padShape hp] at hspatial
  obtain ⟨-, htake, hdrop⟩ := spatialPads_eq_some hspatial
  have haxes : padded.rank - 2 = xs.length := by simp [rank_of_padShape hp, hxrank, hx]
  rw [haxes] at hsplit hcounts hbefore hafter
  cases eq_of_addPads hb
  cases eq_of_addPads ha
  intro axis haxis
  have hlt : axis < xs.length := by simpa [hx] using haxis
  have hget : ∀ {l : List Nat}, l.length = xs.length → ∃ v, l[axis]? = some v := fun h =>
    ⟨_, List.getElem?_eq_getElem (h ▸ hlt)⟩
  obtain ⟨len, hlen⟩ := hget rfl
  obtain ⟨f, hf'⟩ := hget hf
  obtain ⟨l, hl'⟩ := hget hl
  obtain ⟨fst, hfst⟩ := hget hbefore
  obtain ⟨lst, hlst⟩ := hget hafter
  obtain ⟨stride, hstride⟩ := hget hcounts.1
  obtain ⟨dilation, hdilation⟩ := hget hcounts.2
  have hrank : x.lens.length - 2 = xs.length := by simp [hx]
  have hsums : splitPadding xs.length (((before.zip first).map fun p => p.1 + p.2) ++
      (after.zip last).map fun p => p.1 + p.2) = some (_, _) :=
    splitPadding_append (by simp [hbefore, hf]) (by simp [hafter, hl])
  rw [hrank]
  refine ⟨⟨len, f, l⟩, ⟨stride, dilation, fst⟩, ⟨stride, dilation, fst + f⟩, ⟨?_, ?_, ?_, ?_⟩,
    ⟨hstride, hdilation, lst, (paddedBy_iff hsplit hlt).2 ⟨hfst, hlst⟩⟩,
    ⟨hstride, hdilation, lst + l, (paddedBy_iff hsums hlt).2
      ⟨getElem?_sums hfst hf', getElem?_sums hlst hl'⟩⟩, fun o t => ?_⟩
  · simpa [hx] using hlen
  · have hin : axis + 2 < x.rank := by rw [hxrank, hx]; simpa using hlt
    rw [← List.getElem?_take_of_lt hin, htake]
    exact hf'
  · rw [← hxrank, Nat.add_comm, ← List.getElem?_drop, hdrop]
    exact hl'
  · rw [hpadded]
    change (paddedLens xs first last)[axis]? = _
    rw [paddedLens, List.getElem?_map,
      (List.getElem?_zip_eq_some (z := (len, f, l))).2
        ⟨hlen, (List.getElem?_zip_eq_some (z := (f, l))).2 ⟨hf', hl'⟩⟩]
    rfl
  · rw [Bordered.read_eq]
    refine congrArg (fun c => Except.ok (readAt len c)) ?_
    simp only [Course.coordinate]
    omega

/-- A convolution whose input is `x` with zeros around it, but none along the first two axes. -/
structure OfPadded (m : Module) (n : Instruction) (window : Window) (pads : List Nat)
    (x weights : InstructionId) (padded : Shape) : Prop where
  op : n.op = .convolution window
  input : ∃ i value k, n.inputs = [i, weights] ∧ m.core? i = some k ∧ k.op = .pad pads .constant value ∧
    (value == 0) = true ∧ k.inputs = [x] ∧ k.shape = padded
  leading : ∀ axis < 2, pads[axis]? = some 0 ∧ pads[axis + (m.shapeOf x).rank]? = some 0

private theorem take_two_eq {l : List Nat} :
    l.take 2 = [0, 0] ↔ ∀ axis < 2, l[axis]? = some 0 := by
  have htwo : (∀ axis < 2, l[axis]? = some 0) ↔ l[0]? = some 0 ∧ l[1]? = some 0 := by
    refine ⟨fun h => ⟨h 0 (by omega), h 1 (by omega)⟩, ?_⟩
    rintro ⟨h₀, h₁⟩ (_ | _ | axis) hlt
    · exact h₀
    · exact h₁
    · omega
  rw [htwo]
  rcases l with _ | ⟨a, _ | ⟨b, l⟩⟩ <;> simp

private theorem exists_spatialPads {rank : Nat} (hr : 2 ≤ rank) (hlen : pads.length = 2 * rank) :
    (∃ first last, spatialPads rank pads = some (first, last)) ↔
      ∀ axis < 2, pads[axis]? = some 0 ∧ pads[axis + rank]? = some 0 := by
  have hzero : (pads.take rank).take 2 = [0, 0] ∧ (pads.drop rank).take 2 = [0, 0] ↔
      ∀ axis < 2, pads[axis]? = some 0 ∧ pads[axis + rank]? = some 0 := by
    rw [List.take_take, Nat.min_eq_left hr, take_two_eq, take_two_eq]
    simp only [List.getElem?_drop, Nat.add_comm rank]
    exact ⟨fun h axis hlt => ⟨h.1 axis hlt, h.2 axis hlt⟩,
      fun h => ⟨fun axis hlt => (h axis hlt).1, fun axis hlt => (h axis hlt).2⟩⟩
  rw [← hzero]
  dsimp only [spatialPads]
  split
  · rename_i hs
    exact ⟨fun _ => hs.2.2, fun _ => ⟨_, _, rfl⟩⟩
  · rename_i hs
    refine ⟨?_, fun h => absurd ⟨hr, hlen, h⟩ hs⟩
    rintro ⟨_, _, he⟩
    cases he

/-- The paddings that an accepted convolution has are given once for both ends or separately. -/
theorem exists_splitPadding {axes : Nat} {padding : List Nat}
    (h : padding.length = 2 * axes ∨ padding.length = axes) :
    ∃ before after, splitPadding axes padding = some (before, after) := by
  rw [splitPadding]
  split
  · exact ⟨_, _, rfl⟩
  · rename_i hne
    exact ⟨_, _, if_pos (h.resolve_right hne)⟩

/-- What is known of an accepted convolution of an accepted pad. -/
theorem inferShape_fold {mode : PadMode} {value : Float} {xs padded w out : Shape}
    {mods mods' : List (List Shape)} (hpad : (pad pads mode value).inferShape [xs] mods = .ok padded)
    (hconv : (convolution window).inferShape [padded, w] mods' = .ok out) :
    pads.length = 2 * padded.rank ∧ padded.rank = xs.rank ∧ 2 ≤ padded.rank ∧
    ∃ before after, splitPadding (padded.rank - 2) window.padding = some (before, after) ∧
      ∀ first last, spatialPads padded.rank pads = some (first, last) →
        ∃ b a, addPads before first = .ok b ∧ addPads after last = .ok a ∧
          (convolution { window with padding := b ++ a }).inferShape [xs, w] [] = .ok out ∧
            SameReads window (b ++ a) pads xs.lens padded.lens := by
  obtain ⟨_, he, -, hd, hp⟩ := rawShape_pad (inferShape_eq_ok.1 hpad).1
  cases he
  obtain ⟨_, _, he, -, ⟨hpd, -⟩, -, -, hmin, hc⟩ := rawShape_convolution.1 (inferShape_eq_ok.1 hconv).1
  cases he
  obtain ⟨lens, hconvolves, rfl⟩ := convolutionShape_eq_ok.1 hc
  have hrank := rank_of_padShape hp
  have hprank := Shape.rank_of_static hpd
  obtain ⟨before, after, hsplit⟩ := exists_splitPadding hconvolves.padding
  rw [← hprank] at hsplit
  refine ⟨hrank ▸ (of_padShape_eq_ok hp).1, hrank, by omega, before, after, hsplit, ?_⟩
  intro first last hspatial
  obtain ⟨b, a, hb, ha, hs⟩ := inferShape_convolution_of_pad hpad hconv hspatial hsplit
  exact ⟨b, a, hb, ha, hs, sameReads_addPads hd hp hspatial hsplit (hprank ▸ hconvolves.counts) hb ha⟩

section Folded
variable (h : Accepted m) (hn : m.get? i = some n)
include h hn

private theorem folded?_of_padded {padded : Shape} (ho : OfPadded m n window pads x weights padded) :
    ∃ padding, folded? m i =
        .ok (some (.convolution { window with padding := padding }, [x, weights])) ∧
      (convolution { window with padding := padding }).inferShape ([x, weights].map m.shapeOf) [] =
        .ok n.shape ∧
      SameReads window padding pads (m.shapeOf x).lens padded.lens := by
  obtain ⟨hop, ⟨j, value, k, hin, hk, hpop, hzero, hx, rfl⟩, hleading⟩ := ho
  obtain ⟨p, hp, rfl⟩ := exists_get?_of_core? hk
  replace hpop : p.op = .pad pads .constant value := hpop
  replace hx : p.inputs = [x] := hx
  have hconv : m.ShapeFits n :=
    h.fits_of_mem (n := n.core) (core?_of_get? hn) (j := j) (by simp [Instruction.core, hin])
  have hpad : m.ShapeFits p :=
    h.fits_of_mem (n := p.core) hk (j := x) (by simp [Instruction.core, hx])
  rw [ShapeFits, hop, hin, List.map_cons, shapeOf_of_get? hp] at hconv
  rw [ShapeFits, hpop, hx] at hpad
  obtain ⟨hlen, hrank, htwo, before, after, hsplit, hfold⟩ := inferShape_fold hpad hconv
  rw [← hrank] at hleading
  obtain ⟨first, last, hspatial⟩ := (exists_spatialPads htwo hlen).2 hleading
  obtain ⟨b, a, hb, ha, hs, hreads⟩ := hfold first last hspatial
  refine ⟨b ++ a, ?_, hs, hreads⟩
  rw [folded?, get_eq_ok_iff.2 hn, Except.ok_bind, hop, hin]
  dsimp only
  rw [get_eq_ok_iff.2 hp, Except.ok_bind, hpop]
  dsimp only
  rw [if_neg (by simp [hzero]), hspatial, hsplit, hx]
  dsimp only
  rw [hb, Except.ok_bind, ha]
  rfl

private theorem folded?_of_not_padded
    (hno : ∀ window pads x weights padded, ¬ OfPadded m n window pads x weights padded) :
    folded? m i = .ok none := by
  rw [folded?, get_eq_ok_iff.2 hn, Except.ok_bind]
  split
  · rename_i window j rest hop hin
    obtain ⟨p, hp, -⟩ := h.input_lt hn (j := j) (by simp [hin])
    rw [get_eq_ok_iff.2 hp, Except.ok_bind]
    split
    · rename_i pads mode value hpop
      split
      · rfl
      rename_i hzero
      have hconv : m.ShapeFits n :=
        h.fits_of_mem (n := n.core) (core?_of_get? hn) (j := j) (by simp [Instruction.core, hin])
      have hpad : m.ShapeFits p :=
        h.fits_of_not_builtin (n := p.core) (core?_of_get? hp) (by simp [Instruction.core, hpop]; rfl)
      rw [ShapeFits, hop, hin, List.map_cons, shapeOf_of_get? hp] at hconv
      rw [ShapeFits, hpop] at hpad
      obtain ⟨_, hsingle, -⟩ := rawShape_pad (inferShape_eq_ok.1 hpad).1
      obtain ⟨x, hx, rfl⟩ := List.map_eq_singleton_iff.1 hsingle
      obtain ⟨_, w, hpair, -⟩ := rawShape_convolution.1 (inferShape_eq_ok.1 hconv).1
      obtain ⟨weights, rfl, -⟩ := List.map_eq_singleton_iff.1 (congrArg List.tail hpair)
      rw [hx] at hpad
      obtain ⟨hlen, hrank, htwo, -⟩ := inferShape_fold hpad hconv
      dsimp only
      split
      · rename_i first last _ _ _ _ hspatial _ _
        have hleading := (exists_spatialPads htwo hlen).1 ⟨first, last, hspatial⟩
        simp only [ne_eq, Bool.or_eq_true, decide_eq_true_eq, Bool.not_eq_true', not_or, not_not,
          Bool.not_eq_false] at hzero
        refine absurd ⟨hop, ⟨j, value, p.core, hin, core?_of_get? hp, ?_, hzero.2, hx, rfl⟩, ?_⟩
          (hno window pads x weights p.shape)
        · exact hzero.1 ▸ hpop
        · exact hrank ▸ hleading
      · rename_i hnil
        cases hx.symm.trans hnil
      · rfl
    · rfl
  · rfl

/-- A convolution is folded exactly where its input is padded with zeros along spatial axes. -/
theorem folded?_cases :
    (∃ window pads x weights padded padding, OfPadded m n window pads x weights padded ∧
      folded? m i = .ok (some (.convolution { window with padding := padding }, [x, weights])) ∧
        (convolution { window with padding := padding }).inferShape ([x, weights].map m.shapeOf) [] =
          .ok n.shape ∧ SameReads window padding pads (m.shapeOf x).lens padded.lens) ∨
      (∀ window pads x weights padded, ¬ OfPadded m n window pads x weights padded) ∧
        folded? m i = .ok none := by
  by_cases hp : ∃ window pads x weights padded, OfPadded m n window pads x weights padded
  · obtain ⟨window, pads, x, weights, padded, ho⟩ := hp
    obtain ⟨padding, hfold⟩ := folded?_of_padded h hn ho
    exact .inl ⟨window, pads, x, weights, padded, padding, ho, hfold⟩
  · have hno : ∀ window pads x weights padded, ¬ OfPadded m n window pads x weights padded :=
      fun window pads x weights padded ho => hp ⟨window, pads, x, weights, padded, ho⟩
    exact .inr ⟨hno, folded?_of_not_padded h hn hno⟩

/-- The operands of the convolution that pads by itself stand before it. -/
theorem OfPadded.operands_lt {padded : Shape} (ho : OfPadded m n window pads x weights padded) :
    ∀ j ∈ [x, weights], (m.get? j).isSome ∧ m.order.idxOf j < m.order.idxOf i := by
  obtain ⟨-, ⟨j, value, k, hin, hk, -, -, hx, -⟩, -⟩ := ho
  obtain ⟨p, hp, rfl⟩ := exists_get?_of_core? hk
  obtain ⟨-, -, hlt⟩ := h.input_lt hn (j := j) (by simp [hin])
  obtain ⟨kx, hkx, hltx⟩ := h.input_lt hp (j := x) (hx ▸ List.mem_singleton_self x)
  obtain ⟨kw, hkw, hltw⟩ := h.input_lt hn (j := weights) (by simp [hin])
  simpa [hkx, hkw, hltw] using Nat.lt_trans hltx hlt

end Folded

theorem plain_convolution (w : Window) : Plain (.convolution w) := ⟨rfl, by simp, rfl⟩

/-- What becomes of an instruction: a convolution of a padded input pads by itself and reads the
same, everything else is kept. -/
inductive Outcome (m : Module) (n n' : Instruction) : Prop
  | folded {window : Window} {padding pads : List Nat} {x weights : InstructionId} {padded : Shape}
      (of : OfPadded m n window pads x weights padded)
      (op : n'.op = .convolution { window with padding := padding })
      (inputs : n'.inputs = [x, weights])
      (reads : SameReads window padding pads (m.shapeOf x).lens padded.lens)
  | kept (none : ∀ window pads x weights padded, ¬ OfPadded m n window pads x weights padded)
      (same : n'.core = n.core)

/-- Some instructions have been folded, and the others are as they were. -/
structure Folding (m₀ : Module) (done : List InstructionId) (m : Module) : Prop where
  accepted : Accepted m
  standing : Standing m₀ m
  unmet : ∀ i, i ∉ done → m.core? i = m₀.core? i
  met : ∀ i ∈ done, ∀ n n', m₀.core? i = some n → m.core? i = some n' → Outcome m₀ n n'

theorem Accepted.folding (h : Accepted m) : Folding m [] m where
  accepted := h
  standing := h.linked.standing
  unmet _ _ := rfl
  met _ hi := by cases hi

/-- One more instruction has been met. -/
theorem Folding.meet {done : List InstructionId} (h : Folding m₀ done m) (hm' : Accepted m')
    (hs : Standing m₀ m') (hothers : ∀ j, j ≠ i → m'.core? j = m.core? j)
    (hout : ∀ n n', m₀.core? i = some n → m'.core? i = some n' → Outcome m₀ n n') :
    Folding m₀ (done ++ [i]) m' := by
  refine ⟨hm', hs, fun j hj => ?_, fun j hj k k' hk hk' => ?_⟩
  · rw [List.mem_append, List.mem_singleton, not_or] at hj
    rw [hothers j hj.2, h.unmet j hj.1]
  · by_cases hji : j = i
    · subst hji
      exact hout k k' hk hk'
    · rw [hothers j hji] at hk'
      exact h.met j ((List.mem_append.1 hj).resolve_right (by simpa using hji)) k k' hk hk'

section Folding
variable {done : List InstructionId} (h₀ : Accepted m₀) (h : Folding m₀ done m)
include h₀ h

/-- Pads are not touched, and nothing becomes a pad. -/
theorem Folding.pad_iff {j : InstructionId} {k : Instruction} {mode : PadMode} {value : Float} :
    m.core? j = some k ∧ k.op = .pad pads mode value ↔
      m₀.core? j = some k ∧ k.op = .pad pads mode value := by
  by_cases hj : j ∈ done
  swap
  · rw [h.unmet j hj]
  rcases h.standing.core?_cases h₀.linked j with ⟨hno₀, hno⟩ | ⟨k₀, k', hk₀, hk'⟩
  · rw [hno₀, hno]
  rw [hk₀, hk']
  cases h.met j hj k₀ k' hk₀ hk' with
  | folded of op _ _ =>
    constructor
    · rintro ⟨he, hop⟩
      cases he
      cases op.symm.trans hop
    · rintro ⟨he, hop⟩
      cases he
      cases of.op.symm.trans hop
  | kept _ same =>
    obtain ⟨a, -, rfl⟩ := exists_get?_of_core? hk₀
    obtain ⟨b, -, rfl⟩ := exists_get?_of_core? hk'
    have he : b.core = a.core := same
    rw [he]

private theorem Folding.ofPadded_iff {padded : Shape} :
    OfPadded m n window pads x weights padded ↔ OfPadded m₀ n window pads x weights padded := by
  have hshape := h.standing.shapeOf_eq h₀.linked
  constructor
  · rintro ⟨hop, ⟨j, value, k, hin, hk, hpop, hrest⟩, hleading⟩
    obtain ⟨hk₀, -⟩ := (h.pad_iff h₀).1 ⟨hk, hpop⟩
    exact ⟨hop, ⟨j, value, k, hin, hk₀, hpop, hrest⟩, hshape ▸ hleading⟩
  · rintro ⟨hop, ⟨j, value, k, hin, hk, hpop, hrest⟩, hleading⟩
    obtain ⟨hk₀, -⟩ := (h.pad_iff h₀).2 ⟨hk, hpop⟩
    exact ⟨hop, ⟨j, value, k, hin, hk₀, hpop, hrest⟩, hshape ▸ hleading⟩

private theorem Folding.fold_leaves (hi : i ∈ m₀.order) (hdone : i ∉ done) :
    (fold i).Leaves m (fun _ => Folding m₀ (done ++ [i])) fun _ _ => False := by
  obtain ⟨n, hn⟩ := Option.isSome_iff_exists.1
    ((h.accepted.linked.mem_order i).1 (h.standing.order ▸ hi))
  have hn₀ : m₀.core? i = some n.core := (h.unmet i hdone).symm.trans (core?_of_get? hn)
  rw [fold, leaves_bind, leaves_get]
  rcases folded?_cases h.accepted hn with
    ⟨window, pads, x, weights, padded, padding, ho, hr, hs, hreads⟩ | ⟨hno, hr⟩
  · have hout : n.op.isOutput = false := by rw [ho.op]; rfl
    rw [leaves_liftFault_bind hr]
    dsimp only
    rw [leaves_bind]
    refine (h.accepted.replace_leaves hn hout (plain_convolution _)
      (ho.operands_lt h.accepted hn) hs).imp ?_
    rintro _ m' ⟨hl, ho', -, horder, hcore⟩
    rw [leaves_pure]
    have hm' := h.accepted.recompute (core?_of_get? hn) hout rfl hs hl ho' horder hcore
    have hothers : ∀ j, j ≠ i → m'.core? j = m.core? j := fun j hj => by rw [hcore, if_neg hj]
    refine h.meet hm'.accepted (h.standing.recompute (core?_of_get? hn) hl horder hcore) hothers
      fun k k' hk hk' => ?_
    rw [hcore, if_pos rfl] at hk'
    cases hn₀.symm.trans hk
    cases hk'
    rw [h.standing.shapeOf_eq h₀.linked] at hreads
    have ho₀ := (h.ofPadded_iff h₀).1 ho
    exact .folded ⟨ho₀.op, ho₀.input, ho₀.leading⟩ rfl rfl hreads
  · rw [leaves_liftFault_bind hr]
    refine h.meet h.accepted h.standing (fun _ _ => rfl) fun k k' hk hk' => ?_
    cases hn₀.symm.trans hk
    cases (core?_of_get? hn).symm.trans hk'
    refine .kept (fun window pads x weights padded ho => ?_) rfl
    exact hno window pads x weights padded ((h.ofPadded_iff h₀).2 ⟨ho.op, ho.input, ho.leading⟩)

end Folding

/-- Folding every convolution of a padded input where it can be. -/
theorem folding_run (h₀ : Accepted m₀) :
    padding.run.Leaves m₀ (fun _ => Folding m₀ m₀.order) fun _ _ => False := by
  simp only [padding, leaves_bind, leaves_get]
  refine leaves_anyOf_split m₀.order (fun done i rest hl m h => ?_) m₀ (Accepted.folding h₀)
  have hnodup := h₀.linked.nodup
  rw [hl, List.nodup_append] at hnodup
  exact h.fold_leaves h₀ (by simp [hl]) fun hi => hnodup.2.2 i hi i (by simp) rfl

/-- What folding is to leave of a module: it passes its check with the same instructions in the same
places and with the same shapes, and each of them reads what it read. -/
structure Exact (m m' : Module) : Prop where
  valid : m'.validate = .ok ()
  order : m'.order = m.order
  outcome : ∀ i n, m.get? i = some n → ∃ n', m'.get? i = some n' ∧ n'.shape = n.shape ∧ Outcome m n n'

theorem Folding.exact (h₀ : Accepted m₀) (h : Folding m₀ m₀.order m) : Exact m₀ m := by
  refine ⟨h.accepted.validate, h.standing.order, fun i n hn => ?_⟩
  have hi : i ∈ m₀.order := (h₀.linked.mem_order i).2 (by simp [hn])
  rcases h.standing.core?_cases h₀.linked i with ⟨hno, -⟩ | ⟨k, k', hk, hk'⟩
  · cases (core?_of_get? hn).symm.trans hno
  cases (core?_of_get? hn).symm.trans hk
  have hs := h.standing.shape i _ _ hk hk'
  have hout := h.met i hi _ _ hk hk'
  obtain ⟨n', hn', rfl⟩ := exists_get?_of_core? hk'
  refine ⟨n', hn', hs, ?_⟩
  cases hout with
  | folded of op inputs reads => exact .folded ⟨of.op, of.input, of.leading⟩ op inputs reads
  | kept none same => exact .kept (fun _ _ _ _ _ of => none _ _ _ _ _ ⟨of.op, of.input, of.leading⟩) same

end Pad

open Pad

/-- Folding borders of zeros into convolutions ends well on every module that edits build and that
passes its check, and is exact. -/
theorem padding_exact (hb : Built m) (hv : m.validate = .ok ()) :
    ∃ changed, (padding.run m).result = .ok changed ∧ Exact m (padding.run m).state := by
  have hm := hb.accepted hv
  exact ((folding_run hm).imp fun _ _ h => h.exact hm).exists_ok

/-- A convolution, itself with paddings, of an input that is padded unevenly along two axes. -/
private def bordered : Module :=
  Mutation.applyAll (Module.empty "main")
    [.addParameter "x" (.packedOf .float [1, 2, 5, 6]),
      .addParameter "w" (.packedOf .float [3, 2, 3, 2]), .add (.pad [0, 0, 1, 2, 0, 0, 3, 0] .constant 0) [⟨0⟩],
      .add (.convolution { padding := [1, 0], stride := [2, 1], dilation := [1, 2], group := 1 })
        [⟨2⟩, ⟨1⟩],
      .addOutput [⟨3⟩]]

/-- The convolution takes over the uneven amounts. -/
theorem padding_exact_bordered :
    ((padding.run bordered).state.get? ⟨3⟩).map (fun n => (n.op, n.inputs)) =
      some (.convolution { padding := [2, 2, 4, 0], stride := [2, 1], dilation := [1, 2], group := 1 },
        [⟨0⟩, ⟨1⟩]) ∧
    Built bordered ∧ bordered.validate = .ok () ∧
      ∃ changed, (padding.run bordered).result = .ok changed ∧
        Exact bordered (padding.run bordered).state := by
  have hb : Built bordered := (Built.empty "main").applyAll _
  have hv : bordered.validate = .ok () := by decide +kernel
  refine ⟨?_, hb, hv, padding_exact hb hv⟩
  unfold padding Pad.fold replace checkReplace
  simp only [dependsOn_eq_getD 8]
  decide +kernel

end TensorGraph.Pass
