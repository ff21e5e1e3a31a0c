import TensorGraph.Pass.Layernorm
import TensorGraph.Proofs.Dominance
import TensorGraph.Proofs.Module.Expansion
import TensorGraph.Proofs.Operator.Strides
import TensorGraph.Proofs.Pass.Simplification

/-! Rewriting layer normalization keeps all shapes, and leaves nothing of what it replaces in use. A
centred value is row-major: a mean is, and a view that repeats it is not packed. What lies between the
means and the quotient is used by nothing that reaches the end of the module another way, since the
quotient dominates both means along users. -/
namespace TensorGraph.Pass
open TensorGraph.Action TensorGraph.Module TensorGraph.Pattern
variable {m m' : Module} {i j x mean : InstructionId} {n : Instruction} {b b' : Bindings}

namespace Layernorm

/-- A row-major shape, or one in which elements are repeated. -/
structure Repeats (t : ElementType) (lens : List Nat) (s : Shape) : Prop where
  length : s.strides.length = s.lens.length
  rowMajor : 0 ∉ s.strides → s = .packedOf t lens

private theorem repeats_packedOf (t : ElementType) (lens : List Nat) :
    Repeats t lens (.packedOf t lens) :=
  ⟨Shape.length_standardStrides lens, fun _ => rfl⟩

open Operator.Inference in
/-- A view that repeats nothing keeps lengths and strides. -/
theorem repeats_view {op : Operator} {s r : Shape} {mods : List (List Shape)} {t : ElementType}
    {lens : List Nat} (hop : op.isBroadcast = true) (h : op.inferShape [s] mods = .ok r)
    (hs : Repeats t lens s) : Repeats t lens r := by
  have hraw := (Operator.inferShape_eq_ok.1 h).1
  cases op with
  | broadcast axis outLens =>
    obtain ⟨_, ⟨⟩, ht, hd, hx⟩ := static_eq_ok.1 hraw
    obtain ⟨hle, hlens, rfl⟩ := of_broadcastShape_eq_ok hd hx
    refine ⟨by simp [hs.length]; omega, fun hno => ?_⟩
    simp only [List.mem_append, List.mem_replicate, not_or, and_true, not_not] at hno
    obtain ⟨⟨rfl, hkept⟩, hafter⟩ := hno
    have hsame : s.lens = outLens := by
      rwa [List.drop_zero, List.take_of_length_le (by omega)] at hlens
    rw [hafter, ← hsame, hs.rowMajor hkept]
    simp [Shape.packedOf]
  | multibroadcast outLens =>
    obtain ⟨_, ⟨⟩, ht, hd, hx⟩ := static_eq_ok.1 hraw
    obtain ⟨hle, strides, hlen, hget, rfl⟩ := of_multibroadcastShape_eq_ok hd hx
    refine ⟨by simp [hlen]; omega, fun hno => ?_⟩
    simp only [List.mem_append, List.mem_replicate, not_or, and_true, not_not] at hno
    obtain ⟨hadded, hkept⟩ := hno
    have haxis : ∀ k (hk : k < strides.length), s.lens[k]? = outLens[k]? ∧
        s.strides[k]? = some strides[k] := by
      intro k hk
      obtain ⟨len, outLen, hl, ho, ⟨rfl, hz⟩ | ⟨-, hz⟩⟩ := hget k _ (List.getElem?_eq_getElem hk)
      · rw [hadded, Nat.zero_add] at ho
        exact ⟨hl.trans ho.symm, hz⟩
      · exact absurd (hz ▸ List.getElem_mem hk) hkept
    have hlens : s.lens = outLens := by
      refine List.ext_getElem? fun k => ?_
      by_cases hk : k < strides.length
      · exact (haxis k hk).1
      · rw [List.getElem?_eq_none (by omega), List.getElem?_eq_none (by omega)]
    have hstrides : strides = s.strides := by
      refine List.ext_getElem? fun k => ?_
      by_cases hk : k < strides.length
      · rw [(haxis k hk).2, List.getElem?_eq_getElem hk]
      · have hlength := hs.length
        rw [List.getElem?_eq_none (by omega), List.getElem?_eq_none (by omega)]
    rw [hadded, ← hlens, hstrides, hs.rowMajor (hstrides ▸ hkept)]
    rfl
  | _ => cases hop

/-- Views of a row-major instruction. -/
theorem repeats_of_underBroadcasts (h : Accepted m) {views : Nat} {t : ElementType} {lens : List Nat}
    (hj : underBroadcasts m views i = .ok j) (hs : Repeats t lens (m.shapeOf j)) :
    Repeats t lens (m.shapeOf i) :=
  of_views h hj hs fun _ _ _ _ hop _ hfits hinput => repeats_view hop hfits hinput

open Operator.Inference in
/-- An operand that repeats elements or is row-major makes the result row-major. -/
theorem eq_asStandard_of_repeats {a r s : Shape} {t : ElementType} {lens : List Nat}
    (h : Pointwise a [r] s) (ha : a.subShapes = []) (ht : a.isTuple = false) (hd : a.isDynamic = false)
    (hdims : r.toDynamic.dynamicDims = a.toDynamic.dynamicDims) (hr : Repeats t lens r) :
    s = a.asStandard := by
  cases h with
  | dynamic hdyn => cases hd.symm.trans hdyn
  | standard => rfl
  | shared _ hall =>
    obtain ⟨hpacked, hstrides⟩ := hall r (by simp)
    obtain ⟨hrd, hrt⟩ := Shape.not_isDynamic_of_isPacked hpacked
    obtain rfl := hr.rowMajor (Shape.zero_notMem_of_isPacked hpacked)
    have hlens : lens = a.lens := Shape.lens_eq_of_dims ht hrt hd hrd hdims
    rw [Shape.asStandard_of_static hd ht, Shape.packedOf, ← hlens]
    obtain ⟨type, alens, strides, dims, subs⟩ := a
    obtain rfl : dims = [] := by simpa [Shape.isDynamic] using hd
    obtain rfl : subs = [] := ha
    obtain rfl : lens = alens := hlens
    obtain rfl : Shape.standardStrides lens = strides := hstrides
    rfl

private theorem shapeOf_of_getElem? {is : List InstructionId} {k : Nat} {ss : List Shape} {s : Shape}
    (h : is.map m.shapeOf = ss) (hi : is[k]? = some i) (hs : ss[k]? = some s) : m.shapeOf i = s := by
  rw [← h, List.getElem?_map, hi] at hs
  exact Option.some.inj hs

open Operator.Inference in
/-- The shapes of an operator on two operands. -/
theorem pointwise_of_binary (h : Accepted m) {f : Binary} {a c : InstructionId}
    (hn : m.get? i = some n) (hop : n.op = .binary f) (ha : n.inputs[0]? = some a)
    (hc : n.inputs[1]? = some c) :
    Pointwise (m.shapeOf a) [m.shapeOf c] (m.shapeOf i) ∧ (m.shapeOf a).isTuple = false ∧
      (m.shapeOf c).toDynamic.dynamicDims = (m.shapeOf a).toDynamic.dynamicDims ∧
      (m.shapeOf i).addressable = true := by
  have hfits := h.fits_of_not_builtin (core?_of_get? hn) (show n.op.isBuiltin = false by rw [hop]; rfl)
  rw [ShapeFits, show n.core.op = .binary f from hop, Operator.inferShape_eq_ok,
    Operator.rawShape_binary] at hfits
  obtain ⟨⟨s, t, hins, hs, -, -, hdims, hpoint⟩, haddr⟩ := hfits
  obtain rfl := shapeOf_of_getElem? hins ha rfl
  obtain rfl := shapeOf_of_getElem? hins hc rfl
  rw [shapeOf_of_get? hn]
  exact ⟨pointwise_of_eq_ok hpoint, hs, hdims, haddr⟩

/-- What a difference of an input and its mean has to do with them. -/
structure Centres (m : Module) (x mean i : InstructionId) : Prop where
  sub : ∃ n c views, m.get? i = some n ∧ n.op = .binary .sub ∧ n.inputs[0]? = some x ∧
    n.inputs[1]? = some c ∧ underBroadcasts m views c = .ok mean
  mean : ∃ n, m.get? mean = some n ∧ n.inputs[0]? = some x

/-- A difference of an input and its mean is row-major. -/
theorem Centres.shape_eq (hc : Centres m x mean i) (h : Accepted m)
    (hx : (m.shapeOf x).Tidy) (hrank : (m.shapeOf x).rank ≠ 0)
    (hmean : ∃ n axes, m.get? mean = some n ∧ n.op = .reduceMean axes) :
    m.shapeOf i = (m.shapeOf x).asStandard ∧ (m.shapeOf x).isTuple = false ∧
      (m.shapeOf x).isDynamic = false := by
  obtain ⟨n, c, views, hn, hop, h0, h1, hunder⟩ := hc.sub
  obtain ⟨k, hk, hkx⟩ := hc.mean
  obtain ⟨_, axes, hk', hreduce⟩ := hmean
  cases hk.symm.trans hk'
  obtain ⟨hpoint, ht, hdims, -⟩ := pointwise_of_binary h hn hop h0 h1
  have hfits := h.fits_of_not_builtin (core?_of_get? hk)
    (show k.op.isBuiltin = false by rw [hreduce]; rfl)
  rw [ShapeFits, show k.core.op = .reduceMean axes from hreduce, Operator.inferShape_eq_ok] at hfits
  obtain ⟨s, hins, -, hd, hlens⟩ := Operator.Inference.static_eq_ok.1 hfits.1
  obtain ⟨lens, -, hlens⟩ := Except.bind_eq_ok.1 hlens
  obtain rfl := shapeOf_of_getElem? hins hkx rfl
  have hmeanShape : m.shapeOf mean = .packedOf (m.shapeOf x).elementType lens := by
    rw [shapeOf_of_get? hk]
    exact (Except.ok.inj hlens).symm
  have hrep : Repeats _ lens (m.shapeOf c) :=
    repeats_of_underBroadcasts h hunder (hmeanShape ▸ repeats_packedOf _ lens)
  exact ⟨eq_asStandard_of_repeats hpoint (hx.subs ht hrank) ht hd hdims hrep, ht, hd⟩

/-- The input, its mean and their difference, under the names that they are bound to. -/
structure Named (m : Module) (b : Bindings) (x mean d : InstructionId) : Prop where
  input : b.lookup "x" = some x
  average : b.lookup "mean" = some mean
  difference : b.lookup "diff" = some d
  centres : Centres m x mean d

private theorem Named.grow {d : InstructionId} (h : Named m b x mean d) (hb : b.Grows b') :
    Named m b' x mean d :=
  ⟨hb _ _ h.input, hb _ _ h.average, hb _ _ h.difference, h.centres⟩

theorem Named.bind {d : InstructionId} (h : Named m b x mean d) {name : String}
    (hname : name ∉ ["x", "mean", "diff"]) (i : InstructionId) : Named m (b.bind name i) x mean d := by
  simp only [List.mem_cons, List.not_mem_nil, or_false, not_or] at hname
  obtain ⟨hx, hm, hd⟩ := hname
  refine ⟨?_, ?_, ?_, h.centres⟩
  · rw [Bindings.lookup_bind_of_ne (Ne.symm hx), h.input]
  · rw [Bindings.lookup_bind_of_ne (Ne.symm hm), h.average]
  · rw [Bindings.lookup_bind_of_ne (Ne.symm hd), h.difference]

/-- The instruction depends on the difference of an input and its mean. -/
def Spreads (m : Module) (b : Bindings) (i : InstructionId) : Prop :=
  ∃ x mean d, Named m b x mean d ∧ m.Depends i d

private theorem Spreads.grow (h : Spreads m b i) (hb : b.Grows b') : Spreads m b' i := by
  obtain ⟨x, mean, d, hnamed, hd⟩ := h
  exact ⟨x, mean, d, hnamed.grow hb, hd⟩

/-- The instruction depends on the mean of squared differences, and an offset is bound. -/
def Scales (m : Module) (b : Bindings) (i : InstructionId) : Prop :=
  ∃ v, b.lookup "var" = some v ∧ m.Depends i v ∧ Spreads m b v ∧ ∃ eps, b.lookup "eps" = some eps

/-- What a match binds: a quotient of the difference of an input and its mean, and of something that
depends on the mean of the squared difference. -/
structure Matched (m : Module) (b : Bindings) (i x mean d v eps : InstructionId) : Prop where
  named : Named m b x mean d
  variance : b.lookup "var" = some v
  offset : b.lookup "eps" = some eps
  root : ∃ n c, m.get? i = some n ∧ n.op = .binary .div ∧ n.inputs[0]? = some d ∧
    n.inputs[1]? = some c
  uses : m.Depends i v
  spreads : m.Depends v d

private abbrev input : Pattern := Pattern.any.bind "x"
private abbrev average : Pattern := ((Pattern.name "reduce_mean").and (.arg 0 input)).bind "mean"
private abbrev difference : Pattern :=
  (((Pattern.name "sub").and (.arg 0 input)).and (.arg 1 (.skipBroadcasts average))).bind "diff"
private abbrev square : Pattern := .anyOf [
  ((Pattern.name "pow").and (.arg 0 difference)).and (.arg 1 (.skipBroadcasts (.hasValue 2))),
  (Pattern.name "mul").and (.args [difference, difference])]
private abbrev variance : Pattern := ((Pattern.name "reduce_mean").and (.arg 0 square)).bind "var"
private abbrev offset : Pattern := .skipBroadcasts (Pattern.isConstant.bind "eps")
private abbrev denominator : Pattern := (Pattern.name "sqrt").and
  (.arg 0 ((Pattern.name "add").and (.eitherArg 0 1 (.skipBroadcasts variance) offset)))

private theorem pattern_eq : pattern =
    ((Pattern.name "div").and (.arg 0 difference)).and (.arg 1 (.skipBroadcasts denominator)) := rfl

private theorem yields_input : Yields m (input.matches? m i b) fun b' =>
    b.Grows b' ∧ b'.lookup "x" = some i :=
  yields_named (yields_matches? fun _ => yields_any ⟨.refl b, Bindings.lookup_bind _ _ _⟩)

private theorem yields_average : Yields m (average.matches? m i b) fun b' =>
    b.Grows b' ∧ b'.lookup "mean" = some i ∧ ∃ x, b'.lookup "x" = some x ∧
      ∃ n, m.get? i = some n ∧ n.inputs[0]? = some x := by
  refine yields_named (yields_matches? fun hi => yields_and (yields_matches? fun _ => yields_name hi
    fun n hn _ => yields_argOf hn fun x hx => yields_input.imp fun b' hb => ⟨hb.1, ?_⟩))
  refine ⟨Bindings.lookup_bind _ _ _, x, ?_, n, hn, hx⟩
  rw [Bindings.lookup_bind_of_ne (by decide)]
  exact hb.2

section Patterns
variable (hl : Linked m)
include hl

private theorem yields_difference : Yields m (difference.matches? m i b) fun b' =>
    b.Grows b' ∧ ∃ x mean, Named m b' x mean i := by
  refine yields_named (yields_matches? fun hi => yields_and (yields_matches? fun _ => yields_and
    (yields_matches? fun _ => yields_name hi fun n hn hname => yields_argOf hn fun x hx => ?_)))
  refine yields_input.imp fun b₁ hb₁ => yields_argOf hn fun c hc => ?_
  refine yields_matches? fun hlive => yields_skipBroadcasts hl hlive fun views mean hmean => ?_
  refine yields_average.imp fun b₂ hb₂ => ⟨hb₁.1.trans hb₂.1, ?_⟩
  obtain ⟨hgrows, hnamed, y, hy, k, hk, hky⟩ := hb₂
  obtain rfl : y = x := Option.some.inj (hy.symm.trans (hgrows _ _ hb₁.2))
  refine ⟨y, mean, ?_, ?_, Bindings.lookup_bind _ _ _,
    ⟨n, c, views, hn, eq_binary_of_name hname, hx, hc, hmean⟩, k, hk, hky⟩
  · rwa [Bindings.lookup_bind_of_ne (by decide)]
  · rwa [Bindings.lookup_bind_of_ne (by decide)]

private theorem yields_square : Yields m (square.matches? m i b) fun b' =>
    b.Grows b' ∧ Spreads m b' i := by
  have hspreads : ∀ {n d b'}, m.get? i = some n → d ∈ n.inputs →
      (∃ x mean, Named m b' x mean d) → Spreads m b' i := by
    rintro n d b' hn hd ⟨x, mean, hb⟩
    exact ⟨x, mean, d, hb, .single (inputsOf_of_get? hn ▸ hd)⟩
  refine yields_matches? fun hi => yields_or ?_ ?_
  · refine yields_matches? fun _ => yields_and (yields_matches? fun _ => yields_and
      (yields_matches? fun _ => yields_name hi fun n hn _ => yields_argOf hn fun d hd => ?_))
    refine (yields_difference hl).imp fun b' hb => yields_argOf hn fun _ _ => ?_
    refine yields_matches? fun hlive => yields_skipBroadcasts hl hlive fun _ _ _ => ?_
    exact yields_matches? fun _ => yields_hasValue fun _ _ _ => ⟨hb.1, hspreads hn (List.mem_of_getElem? hd) hb.2⟩
  · refine yields_matches? fun _ => yields_and (yields_matches? fun _ => yields_name hi
      fun n hn _ => yields_args hn fun d c hin => ?_)
    refine (yields_difference hl).imp fun b₁ hb₁ => (yields_difference hl).imp fun b₂ hb₂ => ?_
    exact ⟨hb₁.1.trans hb₂.1, hspreads hn (d := c) (by simp [hin]) hb₂.2⟩

private theorem yields_variance : Yields m (variance.matches? m i b) fun b' =>
    b.Grows b' ∧ b'.lookup "var" = some i ∧ Spreads m b' i := by
  refine yields_named (yields_matches? fun hi => yields_and (yields_matches? fun _ => yields_name hi
    fun n hn _ => yields_argOf hn fun s hs => (yields_square hl).imp fun b' hb => ⟨hb.1, ?_⟩))
  obtain ⟨-, x, mean, d, hnamed, hd⟩ := hb
  refine ⟨Bindings.lookup_bind _ _ _, x, mean, d, hnamed.bind (by decide) i, .head ?_ hd⟩
  exact inputsOf_of_get? hn ▸ List.mem_of_getElem? hs

private theorem yields_offset : Yields m (offset.matches? m i b) fun b' =>
    b.Grows b' ∧ ∃ eps, b'.lookup "eps" = some eps :=
  yields_matches? fun hi => yields_skipBroadcasts hl hi fun _ eps _ => yields_named
    (yields_matches? fun _ => yields_isConstant ⟨.refl b, eps, Bindings.lookup_bind _ _ _⟩)

private theorem yields_denominator : Yields m (denominator.matches? m i b) fun b' =>
    b.Grows b' ∧ Scales m b' i := by
  refine yields_matches? fun hi => yields_and (yields_matches? fun _ => yields_name hi fun n hn _ =>
    yields_argOf hn fun a ha => yields_matches? fun hai => yields_and (yields_matches? fun _ =>
      yields_name hai fun k hk _ => ?_))
  have hdepends : ∀ {u v : InstructionId} {views : Nat}, u ∈ k.inputs →
      underBroadcasts m views u = .ok v → m.Depends i v := by
    intro u v views hu hv
    refine .head (inputsOf_of_get? hn ▸ List.mem_of_getElem? ha) (.head ?_ (depends_of_underBroadcasts hv))
    exact inputsOf_of_get? hk ▸ hu
  refine yields_eitherArg hk fun u hu => ⟨?_, ?_⟩
  · refine yields_matches? fun hlive => yields_skipBroadcasts hl hlive fun views v hv => ?_
    refine (yields_variance hl).imp fun b₁ hb₁ c _ => (yields_offset hl).imp fun b₂ hb₂ => ?_
    obtain ⟨hgrows, hvar, hspreads⟩ := hb₁
    exact ⟨hgrows.trans hb₂.1, v, hb₂.1 _ _ hvar, hdepends (List.mem_of_getElem? hu) hv,
      hspreads.grow hb₂.1, hb₂.2⟩
  · refine (yields_offset hl).imp fun b₁ hb₁ c hc => ?_
    refine yields_matches? fun hlive => yields_skipBroadcasts hl hlive fun views v hv => ?_
    refine (yields_variance hl).imp fun b₂ hb₂ => ?_
    obtain ⟨hgrows, hvar, hspreads⟩ := hb₂
    obtain ⟨eps, heps⟩ := hb₁.2
    exact ⟨hb₁.1.trans hgrows, v, hvar, hdepends (List.mem_of_getElem? hc) hv, hspreads, eps,
      hgrows _ _ heps⟩

private theorem yields_pattern : Yields m (pattern.matches? m i b) fun b' =>
    ∃ x mean d v eps, Matched m b' i x mean d v eps := by
  rw [pattern_eq]
  refine yields_matches? fun hi => yields_and (yields_matches? fun _ => yields_and
    (yields_matches? fun _ => yields_name hi fun n hn hname => yields_argOf hn fun d hd => ?_))
  refine (yields_difference hl).imp fun b₁ hb₁ => yields_argOf hn fun c hc => ?_
  refine yields_matches? fun hlive => yields_skipBroadcasts hl hlive fun views q hq => ?_
  refine (yields_denominator hl).imp fun b₂ hb₂ => ?_
  obtain ⟨-, x, mean, hnamed⟩ := hb₁
  obtain ⟨hgrows, v, hv, hqv, ⟨_, _, d', hnamed', hvd⟩, eps, heps⟩ := hb₂
  obtain rfl : d' = d := Option.some.inj
    (hnamed'.difference.symm.trans (hgrows _ _ hnamed.difference))
  refine ⟨x, mean, d', v, eps, hnamed.grow hgrows, hv, heps, ⟨n, c, hn, eq_binary_of_name hname, hd, hc⟩,
    .head ?_ ((depends_of_underBroadcasts hq).trans hqv), hvd⟩
  exact inputsOf_of_get? hn ▸ List.mem_of_getElem? hc

end Patterns

open Relation in
/-- Where an instruction dominates another along users, nothing that depends on the latter leads to
the end without it. -/
theorem not_reached (hl : Linked m) (ho : Ordered m) {root s last : InstructionId}
    (hd : (Dominance.postOfModule m).strictlyDominates root s = true) (hj : m.Depends j s)
    (hno : ¬ m.Depends j root) (hlast : m.usersOf last = []) :
    ¬ ReflTransGen (fun a b => b ∈ m.inputsOf a ∧ a ≠ root) last j := by
  intro hpath
  have hexact := Dominance.exact_postOfModule hl.nodup hl.mem_order hl.mem_users ho
  obtain ⟨hne, hall⟩ := (hexact.strictlyDominates_iff root s).1 hd
  have hup : ReflTransGen (fun a b => b ∈ m.usersOf a ∧ b ≠ root) j last := by
    refine ReflTransGen.mono (fun a b hab => ?_) _ _ hpath.swap
    exact ⟨(hl.mem_users a b).2 hab.1, hab.2⟩
  have hbetween : ∀ k, m.Depends j k →
      ReflTransGen (fun a b => b ∈ m.usersOf a ∧ b ≠ root) k j := by
    intro k hk
    induction hk with
    | refl => exact .refl
    | @tail a c hja hac ih =>
      refine .head ⟨(hl.mem_users c a).2 hac, ?_⟩ ih
      rintro rfl
      exact hno hja
  obtain ⟨path, hp, hroot⟩ := Dominance.exists_avoiding ((hbetween s hj).trans hup) hne.symm hlast
  exact hroot (hall path hp)

section Bypassed
variable {root last : InstructionId} {p : Nat} (h : Accepted m)
  (hf : Forwarded (m.place p n) root m.nextId m') (h₁ : Accepted (m.place p n))
  (hlt : (m.place p n).order.idxOf m.nextId < (m.place p n).order.idxOf root)
include h hf h₁ hlt

open Relation in
/-- What the end depends on after users were made to use a new instruction: the new instruction, or
what it depended on before without the old one. -/
theorem reached_cases (hlast : (m.place p n).last? = some last) (hlive : (m.get? last).isSome)
    (hj : m'.Depends last j) :
    j = root ∨ m'.Depends m.nextId j ∨
      ReflTransGen (fun a b => b ∈ m.inputsOf a ∧ a ≠ root) last j := by
  have hinputs : ∀ k, (m.get? k).isSome → (m.place p n).inputsOf k = m.inputsOf k := by
    intro k hk
    rw [inputsOf_eq_core, core?_place_of_live hk, ← inputsOf_eq_core]
  by_cases hend : last = root
  · subst hend
    cases hf with
    | redirected _ _ _ hno => exact absurd hlast hno
    | @replaced _ after _ hr =>
      have honly : ((m.place p n).rewire last after).inputsOf last = [m.nextId] := by
        rw [inputsOf_eq_core, hr.core?_rewire h₁.linked, if_pos rfl]
        exact hr.inputs_eq
      rcases ReflTransGen.cases_head hj with rfl | ⟨k, hk, hkj⟩
      · exact .inl rfl
      · rw [honly, List.mem_singleton] at hk
        exact .inr (.inl (hk ▸ hkj))
  · refine .inr ?_
    suffices hcases : m'.Depends m.nextId j ∨ (m.get? j).isSome ∧ j ≠ root ∧
        ReflTransGen (fun a b => b ∈ m.inputsOf a ∧ a ≠ root) last j from
      hcases.imp id fun hpath => hpath.2.2
    induction hj with
    | refl => exact .inr ⟨hlive, hend, .refl⟩
    | @tail a c _ hac ih =>
      rcases ih with ih | ⟨ha, hne, hpath⟩
      · exact .inl (ih.tail hac)
      · rcases hf.mem_inputsOf h₁ hlt hac with rfl | ⟨hcr, hc⟩
        · exact .inl .refl
        · rw [hinputs a ha] at hc
          exact .inr ⟨h.linked.live_input hc, hcr, hpath.tail ⟨hc, hne⟩⟩

open Relation in
/-- What depends on a dominated instruction and not on the one that dominates it leads to the end no
more, if the new instruction uses only what comes before. -/
theorem not_depends_of_bypassed {s : InstructionId} (hp : p < m.order.length) (hin : n.inputs = [x])
    (hu : Upholds (m.place p n) m') (horder : m'.order = (m.place p n).order)
    (hd : (Dominance.postOfModule m).strictlyDominates root s = true)
    (hx : (m.get? x).isSome ∧ m.order.idxOf x < m.order.idxOf s) (hs : (m.get? s).isSome)
    (hj : m.Depends j s) (hno : ¬ m.Depends j root) (hlast : m'.last? = some last) :
    ¬ m'.Depends last j := by
  intro hpath
  have hjlive : (m.get? j).isSome := by
    rcases ReflTransGen.cases_head hj with rfl | ⟨k, hk, -⟩
    · exact hs
    · exact live_of_mem_inputsOf hk
  have hlast₁ : (m.place p n).last? = some last := by
    rw [last?, ← horder]
    exact hlast
  have hlast₀ : m.last? = some last := (last?_place hp n).symm.trans hlast₁
  have hend : m.usersOf last = [] := List.eq_nil_iff_forall_not_mem.2 fun u hu =>
    h.last?_ne_of_user hu hlast₀
  have hlive : (m.get? last).isSome := (h.linked.mem_order last).1 (List.mem_of_getLast? hlast₀)
  rcases reached_cases h hf h₁ hlt hlast₁ hlive hpath with rfl | hnew | havoid
  · exact hno .refl
  · rcases ReflTransGen.cases_head hnew with rfl | ⟨k, hk, hkj⟩
    · rw [get?_nextId] at hjlive
      cases hjlive
    rcases hf.mem_inputsOf h₁ hlt hk with rfl | ⟨-, hk⟩
    · exact hu.accepted.ordered.irrefl _ hk
    rw [inputsOf_eq_core, core?_place, if_pos rfl] at hk
    obtain rfl : k = x := List.mem_singleton.1 (hin ▸ hk)
    have hle := hu.accepted.ordered.idxOf_le_of_depends hu.accepted.linked hkj
    have hge := h.ordered.idxOf_le_of_depends h.linked hj
    have hmem : ∀ {y}, (m.get? y).isSome → y ∈ m.order := fun hy => (h.linked.mem_order _).2 hy
    rw [horder, idxOf_place h.linked (Nat.le_of_lt hp) (hmem hjlive),
      idxOf_place h.linked (Nat.le_of_lt hp) (hmem hx.1)] at hle
    have := hx.2
    split at hle <;> split at hle <;> omega
  · exact not_reached h.linked h.ordered hd hj hno hend havoid

end Bypassed

/-- Nothing that lies between the means and the quotient leads to the end any more. -/
structure Freed (m : Module) (r : Match) (m' : Module) : Prop where
  named : ∀ name ∈ ["mean", "var", "diff"], ∀ j, r.get? name = some j →
    ∀ last, m'.last? = some last → ¬ m'.Depends last j
  between : ∀ s, r.get? "mean" = some s ∨ r.get? "var" = some s →
    ∀ j, m.Depends j s → m.Depends r.root j → j ≠ r.root →
      ∀ last, m'.last? = some last → ¬ m'.Depends last j

section Matched
variable {r : Match} {d v eps : InstructionId} (h : Accepted m)
  (hm : Matched m r.bindings r.root x mean d v eps)
include h hm

omit h in
private theorem Matched.uses_difference : m.Depends r.root d := by
  obtain ⟨n, c, hn, -, hd, -⟩ := hm.root
  exact .single (inputsOf_of_get? hn ▸ List.mem_of_getElem? hd)

omit h in
private theorem Matched.difference_uses_mean : m.Depends d mean := by
  obtain ⟨n, c, views, hn, -, -, hc, hunder⟩ := hm.named.centres.sub
  exact .head (inputsOf_of_get? hn ▸ List.mem_of_getElem? hc) (depends_of_underBroadcasts hunder)

/-- The input comes before both means. -/
theorem Matched.input_lt : (m.get? x).isSome ∧ m.order.idxOf x < m.order.idxOf mean ∧
    m.order.idxOf x < m.order.idxOf v := by
  obtain ⟨k, hk, hkx⟩ := hm.named.centres.mean
  obtain ⟨n, c, views, hn, -, hx, -⟩ := hm.named.centres.sub
  obtain ⟨a, ha, hmean⟩ := h.input_lt hk (List.mem_of_getElem? hkx)
  obtain ⟨-, -, hd⟩ := h.input_lt hn (List.mem_of_getElem? hx)
  have hv := h.ordered.idxOf_le_of_depends h.linked hm.spreads
  exact ⟨by simp [ha], hmean, Nat.lt_of_lt_of_le hd hv⟩

/-- A quotient of what is row-major is row-major. -/
theorem Matched.shape_eq (hd : m.shapeOf d = (m.shapeOf x).asStandard) :
    m.shapeOf r.root = (m.shapeOf x).asStandard := by
  obtain ⟨n, c, hn, hop, h0, h1⟩ := hm.root
  obtain ⟨hpoint, -⟩ := pointwise_of_binary h hn hop h0 h1
  rw [hd] at hpoint
  have hstandard : (m.shapeOf x).asStandard.asStandard = (m.shapeOf x).asStandard :=
    Shape.asStandard_asStandard
  generalize (m.shapeOf x).asStandard = s at hpoint hstandard ⊢
  generalize m.shapeOf r.root = t at hpoint ⊢
  cases hpoint with
  | dynamic | shared => rfl
  | standard => exact hstandard

omit h in
private theorem Matched.root_live : (m.get? r.root).isSome := by
  obtain ⟨n, c, hn, -⟩ := hm.root
  simp [hn]

/-- Once users of the quotient use a new instruction, nothing else leads back to the means. -/
theorem Matched.freed {p : Nat} (hf : Forwarded (m.place p n) r.root m.nextId m')
    (h₁ : Accepted (m.place p n))
    (hlt : (m.place p n).order.idxOf m.nextId < (m.place p n).order.idxOf r.root)
    (hp : p < m.order.length) (hin : n.inputs = [x]) (hu : Upholds (m.place p n) m')
    (horder : m'.order = (m.place p n).order)
    (hmean : (Dominance.postOfModule m).strictlyDominates r.root mean = true)
    (hvar : (Dominance.postOfModule m).strictlyDominates r.root v = true) : Freed m r m' := by
  have hroot := hm.root_live
  obtain ⟨hx, hxmean, hxv⟩ := hm.input_lt h
  have hexact := Dominance.exact_postOfModule h.linked.nodup h.linked.mem_order h.linked.mem_users
    h.ordered
  have hne : ∀ {s}, (Dominance.postOfModule m).strictlyDominates r.root s = true → s ≠ r.root :=
    fun hd => ((hexact.strictlyDominates_iff _ _).1 hd).1.symm
  have hrd := hm.uses_difference
  have hrm := hrd.trans hm.difference_uses_mean
  have hbetween : ∀ s, r.get? "mean" = some s ∨ r.get? "var" = some s →
      ∀ j, m.Depends j s → m.Depends r.root j → j ≠ r.root →
        ∀ last, m'.last? = some last → ¬ m'.Depends last j := by
    intro s hs j hj hrj hjr last hlast
    have hno : ¬ m.Depends j r.root := fun hback =>
      hjr (h.ordered.depends_antisymm h.linked hroot hrj hback).symm
    rcases hs with hs | hs
    · obtain rfl : mean = s := Option.some.inj (hm.named.average.symm.trans hs)
      exact not_depends_of_bypassed h hf h₁ hlt hp hin hu horder hmean ⟨hx, hxmean⟩
        (h.linked.live_of_depends hroot hrm) hj hno hlast
    · obtain rfl : v = s := Option.some.inj (hm.variance.symm.trans hs)
      exact not_depends_of_bypassed h hf h₁ hlt hp hin hu horder hvar ⟨hx, hxv⟩
        (h.linked.live_of_depends hroot hm.uses) hj hno hlast
  refine ⟨fun name hname j hj => ?_, hbetween⟩
  simp only [List.mem_cons, List.not_mem_nil, or_false] at hname
  rcases hname with rfl | rfl | rfl
  · obtain rfl : mean = j := Option.some.inj (hm.named.average.symm.trans hj)
    exact hbetween mean (.inl hj) mean .refl hrm (hne hmean)
  · obtain rfl : v = j := Option.some.inj (hm.variance.symm.trans hj)
    exact hbetween v (.inr hj) v .refl hm.uses (hne hvar)
  · obtain rfl : d = j := Option.some.inj (hm.named.difference.symm.trans hj)
    refine hbetween mean (.inl hm.named.average) d hm.difference_uses_mean hrd fun he => ?_
    obtain ⟨n, c, hn, -, hd, -⟩ := hm.root
    exact h.ordered.irrefl r.root (inputsOf_of_get? hn ▸ he ▸ List.mem_of_getElem? hd)

end Matched

/-- The instructions of `m₀` have kept their shapes, and all shapes are as they can be made. -/
structure Rewriting (m₀ m : Module) : Prop where
  upholds : Upholds m₀ m
  shapes : ∀ i n, m.core? i = some n → n.shape.Made

private theorem made_shapeOf (hw : ∀ i n, m.core? i = some n → n.shape.Made)
    (hi : (m.get? i).isSome) : (m.shapeOf i).Made := by
  obtain ⟨n, hn⟩ := exists_core?_of_live hi
  rw [shapeOf_of_core? hn]
  exact hw i n hn

private theorem rank_pos_of_reducesLastAxis {rank : Nat} (h : reducesLastAxis rank n = true) :
    (∃ axes, n.op = .reduceMean axes) ∧ 1 ≤ rank := by
  rw [reducesLastAxis] at h
  split at h
  · rename_i axis hop
    have hrank : axis + 1 = rank := by simpa using h
    exact ⟨⟨_, hop⟩, by omega⟩
  · cases h

section Rule
variable {r : Match} {d v eps : InstructionId} (h : Accepted m)
  (hw : ∀ i n, m.core? i = some n → n.shape.Made)
  (hm : Matched m r.bindings r.root x mean d v eps)
include h hw hm

/-- The normalized input has the shape of the quotient. -/
theorem Matched.inferShape_eq_ok (hmean : ∃ n axes, m.get? mean = some n ∧ n.op = .reduceMean axes)
    (hrank : 1 ≤ (m.shapeOf x).rank) (epsilon : Float) :
    (Operator.layernorm epsilon).inferShape [m.shapeOf x] [] = .ok (m.shapeOf r.root) := by
  obtain ⟨hd, ht, -⟩ := hm.named.centres.shape_eq h (made_shapeOf hw (hm.input_lt h).1).tidy
    (Nat.one_le_iff_ne_zero.1 hrank) hmean
  obtain ⟨n, c, hn, hop, h0, h1⟩ := hm.root
  obtain ⟨-, -, -, haddr⟩ := pointwise_of_binary h hn hop h0 h1
  rw [hm.shape_eq h hd] at haddr ⊢
  exact Operator.inferShape_eq_ok.2
    ⟨Operator.Inference.normalized_eq_ok.2 ⟨_, rfl, ht, hrank, rfl⟩, haddr⟩

/-- Putting the normalized input in place of the quotient succeeds. -/
theorem rewrite_leaves {epsilon : Float}
    (hs : (Operator.layernorm epsilon).inferShape [m.shapeOf x] [] = .ok (m.shapeOf r.root))
    (hmean : (Dominance.postOfModule m).strictlyDominates r.root mean = true)
    (hvar : (Dominance.postOfModule m).strictlyDominates r.root v = true) :
    (Module.insert r.root (.layernorm epsilon) [x] >>= fun normalized =>
      Module.replaceWith r.root normalized).Leaves m
      (fun _ m' => Rewriting m m' ∧ Freed m r m') fun _ _ => False := by
  obtain ⟨hx, hxmean, -⟩ := hm.input_lt h
  have hroot := hm.root_live
  have hp : m.order.idxOf r.root < m.order.length :=
    List.idxOf_lt_length_iff.2 ((h.linked.mem_order r.root).2 hroot)
  have hle := h.ordered.idxOf_le_of_depends h.linked
    (hm.uses_difference.trans hm.difference_uses_mean)
  have hin : ∀ i ∈ [x], (m.get? i).isSome ∧ m.order.idxOf i < m.order.idxOf r.root := by
    simpa using ⟨hx, Nat.lt_of_lt_of_le hxmean hle⟩
  obtain ⟨n, c, hn, hop, -⟩ := hm.root
  rw [shapeOf_of_get? hn] at hs
  obtain ⟨hu₁, hlt, hof, hedit⟩ := h.insert_forwards hn (show n.op.isOutput = false by rw [hop]; rfl)
    ⟨rfl, by simp, rfl⟩ hin hs rfl
  refine hedit.imp fun _ m' hf => ?_
  have hu := hf.upholds hu₁.accepted hlt hof
  have hst := hf.standing hu₁.accepted hlt hof
  refine ⟨⟨hu₁.trans hu, fun i n' hn' => ?_⟩,
    hm.freed h hf hu₁.accepted hlt hp rfl hu hst.order hmean hvar⟩
  rcases hst.core?_cases hu₁.accepted.linked i with ⟨-, hno⟩ | ⟨a, a', ha, ha'⟩
  · cases hn'.symm.trans hno
  cases hn'.symm.trans ha'
  rw [hst.shape i a n' ha hn']
  rw [core?_place] at ha
  split at ha
  · cases ha
    exact hw r.root n.core (core?_of_get? hn)
  · exact hw i a ha

/-- The rule leaves the module as it is, or puts the normalized input in place of the quotient. -/
theorem rule_leaves : (rule.apply r).Leaves m
    (fun changed m' => changed = false ∧ m' = m ∨ changed = true ∧ Rewriting m m' ∧ Freed m r m')
    BrokenConstant := by
  obtain ⟨hx, -⟩ := hm.input_lt h
  obtain ⟨nx, hnx⟩ := Option.isSome_iff_exists.1 hx
  obtain ⟨nm, hnm, -⟩ := hm.named.centres.mean
  obtain ⟨nv, hnv⟩ := Option.isSome_iff_exists.1 (h.linked.live_of_depends hm.root_live hm.uses)
  dsimp only [rule]
  rw [leaves_bind, leaves_get, leaves_liftFault_bind (get_of_lookup hm.named.input),
    leaves_liftFault_bind (get_eq_ok_iff.2 hnx), leaves_liftFault_bind (get_of_lookup hm.named.average),
    leaves_liftFault_bind (get_of_lookup hm.variance), leaves_liftFault_bind (get_eq_ok_iff.2 hnm),
    leaves_liftFault_bind (get_eq_ok_iff.2 hnv)]
  split
  · rw [leaves_bind, leaves_report]
    exact .inl ⟨rfl, rfl⟩
  rename_i haxes
  simp only [Bool.or_eq_true, Bool.not_eq_true', not_or, Bool.not_eq_false] at haxes
  obtain ⟨⟨axes, hmean⟩, hrank⟩ := rank_pos_of_reducesLastAxis haxes.1
  rw [← shapeOf_of_get? hnx] at hrank
  rw [leaves_liftFault_bind (get_of_lookup hm.offset), leaves_bind, leaves_liftFault]
  refine ⟨fun value _ => ?_, fun f hf => ⟨f, rfl, eval_eq_error hf⟩⟩
  split
  · exact .inl ⟨rfl, rfl⟩
  rename_i epsilon _
  split
  · rw [leaves_bind, leaves_report]
    exact .inl ⟨rfl, rfl⟩
  rename_i hdom
  simp only [Bool.or_eq_true, Bool.not_eq_true', not_or, Bool.not_eq_false] at hdom
  have hs := hm.inferShape_eq_ok h hw ⟨nm, axes, hnm, hmean⟩ hrank epsilon
  have hrewrite := rewrite_leaves h hw hm hs hdom.1 hdom.2
  rw [leaves_bind] at hrewrite ⊢
  refine hrewrite.mono (fun normalized m₁ h₁ => ?_) fun _ _ hf => hf.elim
  rw [leaves_bind]
  exact h₁.mono (fun _ m' hm' => .inr ⟨rfl, hm'⟩) fun _ _ hf => hf.elim

end Rule

theorem Rewriting.trans {m₀ : Module} (h : Rewriting m₀ m) (h' : Rewriting m m') : Rewriting m₀ m' :=
  ⟨h.upholds.trans h'.upholds, h'.shapes⟩

private theorem match_spec (hl : Linked m) :
    (∀ r, pattern.match? m i = .ok (some r) → r.root = i ∧
      ∃ x mean d v eps, Matched m r.bindings i x mean d v eps) ∧
      ∀ f, pattern.match? m i = .error f → m.ConstantFault f :=
  match?_spec (yields_pattern hl)

private theorem rule_keeps (m₀ : Module) : rule.Keeps (Rewriting m₀) BrokenConstant := by
  intro m i h _
  obtain ⟨hmatch, hfault⟩ := match_spec (i := i) h.upholds.accepted.linked
  refine ⟨fun r hr => ?_, fun f hf => ⟨f, rfl, hfault f hf⟩⟩
  obtain ⟨rfl, x, mean, d, v, eps, hm⟩ := hmatch r hr
  refine (rule_leaves h.upholds.accepted h.shapes hm).imp ?_
  rintro _ m' (⟨-, rfl⟩ | ⟨-, hm', -⟩)
  · exact h
  · exact h.trans hm'

end Layernorm

open Layernorm

/-- On every module that edits build and that passes its check, rewriting normalization ends well, keeps
the shapes of all instructions and leaves a module that passes its check, or an operator breaks down
on constant arguments. Whenever a quotient is rewritten, nothing that lies between the means and the
quotient leads to the end of the module afterwards. -/
theorem layernorm_frees (hb : Built m) (hv : m.validate = .ok ())
    (hw : ∀ i n, m.get? i = some n → n.shape.Made) :
    ((∃ changed, (layernorm.run m).result = .ok changed ∧ (layernorm.run m).state.validate = .ok () ∧
        ∀ i n, m.get? i = some n →
          ∃ n', (layernorm.run m).state.get? i = some n' ∧ n'.shape = n.shape) ∨
      ∃ f, (layernorm.run m).result = .error (.broken f) ∧ (layernorm.run m).state.ConstantFault f) ∧
    ∀ done i rest m₁ r, m.order = done ++ i :: rest → Rule.Visits [rule] m done m₁ →
      pattern.match? m₁ i = .ok (some r) → (rule.apply r m₁).result = .ok true →
        Freed m₁ r (rule.apply r m₁).state := by
  have hkeeps : ∀ rule' ∈ [rule], rule'.Keeps (Rewriting m) BrokenConstant := by
    simpa using rule_keeps m
  have hstart : Rewriting m m := by
    refine ⟨(hb.accepted hv).upholds, fun i n hn => ?_⟩
    obtain ⟨k, hk, rfl⟩ := exists_get?_of_core? hn
    exact hw i k hk
  have hrun : layernorm.run.Leaves m (fun _ => Rewriting m) BrokenConstant :=
    Rule.sweep_leaves hkeeps hstart
  refine ⟨?_, fun done i rest m₁ r _ hvisits hr happly => ?_⟩
  · cases hresult : (layernorm.run m).result with
    | ok changed =>
      have h := hrun.ok hresult
      exact .inl ⟨changed, rfl, h.upholds.accepted.validate, h.upholds.kept⟩
    | error e =>
      obtain ⟨f, rfl, hf⟩ := hrun.error hresult
      exact .inr ⟨f, rfl, hf⟩
  · have h := hvisits.keeps hkeeps hstart
    obtain ⟨rfl, x, mean, d, v, eps, hm⟩ := (match_spec h.upholds.accepted.linked).1 r hr
    rcases (rule_leaves h.upholds.accepted h.shapes hm).ok happly with ⟨hno, -⟩ | ⟨-, -, hfreed⟩
    · cases hno
    · exact hfreed

/-- A normalized input whose offset is repeated, and a use of the quotient. -/
private def normalized : Module :=
  Mutation.applyAll (Module.empty "main")
    [.addParameter "x" (.packedOf .float [2, 4]), .addLiteral (.scalar .float 0.5),
      .add (.reduceMean [1]) [⟨0⟩], .add (.multibroadcast [2, 4]) [⟨2⟩], .add (.binary .sub) [⟨0⟩, ⟨3⟩],
      .add (.binary .mul) [⟨4⟩, ⟨4⟩], .add (.reduceMean [1]) [⟨5⟩], .add (.multibroadcast [2, 1]) [⟨1⟩],
      .add (.binary .add) [⟨6⟩, ⟨7⟩], .add (.unary .sqrt) [⟨8⟩], .add (.multibroadcast [2, 4]) [⟨9⟩],
      .add (.binary .div) [⟨4⟩, ⟨10⟩], .add (.unary .relu) [⟨11⟩]]

private def quotient : Match :=
  ⟨⟨11⟩, [("eps", ⟨1⟩), ("var", ⟨6⟩), ("diff", ⟨4⟩), ("mean", ⟨2⟩), ("x", ⟨0⟩)]⟩

deriving instance DecidableEq for Match

theorem layernorm_frees_quotient :
    Built normalized ∧ normalized.validate = .ok () ∧
      (∀ i n, normalized.get? i = some n → n.shape.Made) ∧
      (layernorm.run normalized).result = .ok true ∧
      (layernorm.run normalized).state.validate = .ok () ∧
      pattern.match? normalized ⟨11⟩ = .ok (some quotient) ∧
      (rule.apply quotient normalized).result = .ok true ∧
      Freed normalized quotient (rule.apply quotient normalized).state := by
  have hb : Built normalized := (Built.empty "main").applyAll _
  have hv : normalized.validate = .ok () := by decide +kernel
  have hplain : ∀ i ∈ normalized.order, ∀ n ∈ normalized.get? i,
      n.shape.dynamicDims = [] ∧ n.shape.strides.length = n.shape.lens.length ∧
        n.shape.subShapes = [] := by decide +kernel
  have hw : ∀ i n, normalized.get? i = some n → n.shape.Made := by
    intro i n hn
    obtain ⟨hd, hl, hs⟩ := hplain i ((hb.linked.mem_order i).2 (by simp [hn])) n hn
    exact Shape.made_of_static hd hl hs
  have hmatch : pattern.match? normalized ⟨11⟩ = .ok (some quotient) := by decide +kernel
  have hsplit : normalized.order = normalized.order.take 11 ++ ⟨11⟩ :: [⟨12⟩] := by decide +kernel
  have hvisits : Rule.Visits [rule] normalized (normalized.order.take 11) normalized := by
    have hidle : ∀ i ∈ normalized.order.take 11,
        (normalized.get? i).isSome ∧ pattern.match? normalized i = .ok none := by decide +kernel
    refine Rule.visits_of_idle fun i hi => ⟨(hidle i hi).1, fun _ hrule => ?_⟩
    rw [List.mem_singleton.1 hrule]
    exact (hidle i hi).2
  have happly : (rule.apply quotient normalized).result = .ok true := by
    unfold rule replaceWith checkRedirect
    simp only [dependsOn_eq_getD 16]
    decide +kernel
  have hrun : (layernorm.run normalized).result = .ok true := by
    unfold layernorm rule replaceWith checkRedirect
    simp only [dependsOn_eq_getD 16]
    decide +kernel
  obtain ⟨hends, hfreed⟩ := layernorm_frees hb hv hw
  refine ⟨hb, hv, hw, hrun, ?_, hmatch, happly, hfreed _ _ _ _ _ hsplit hvisits hmatch happly⟩
  rcases hends with ⟨_, -, hvalid, -⟩ | ⟨f, herror, -⟩
  · exact hvalid
  · cases hrun.symm.trans herror

end TensorGraph.Pass
