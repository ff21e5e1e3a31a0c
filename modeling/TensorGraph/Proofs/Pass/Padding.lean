import TensorGraph.Pass.Pad
import TensorGraph.Proofs.Operator.Inference

/-! A convolution of a padded input has the shape of the convolution that pads by itself. -/
namespace TensorGraph.Pass.Pad
open TensorGraph.Operator TensorGraph.Operator.Inference

/-- Along an axis of a padded length, a window fits at so many places. -/
def Places (w : List Nat) (window : Window) (axis padded n : Nat) : Prop :=
  ∃ kernel dilation stride, w[axis + 2]? = some kernel ∧ window.dilation[axis]? = some dilation ∧
    window.stride[axis]? = some stride ∧ padded < Word.limit ∧
      dilation * (kernel - 1) + 1 < Word.limit ∧ stride ≠ 0 ∧ dilation * (kernel - 1) + 1 ≤ padded ∧
        n = (padded - (dilation * (kernel - 1) + 1)) / stride + 1

/-- The amounts that a window adds at the ends of an axis, of so many spatial axes. -/
def PaddedBy (window : Window) (axes axis first last : Nat) : Prop :=
  window.padding[axis]? = some first ∧
    if window.padding.length = axes then last = first else window.padding[axis + axes]? = some last

private theorem mul?_add? {a b c : Nat} :
    (Word.mul? a b).bind (Word.add? · 1) = some c ↔ a * b + 1 < Word.limit ∧ c = a * b + 1 := by
  simp only [Option.bind_eq_some_iff, Word.mul?_eq_some, Word.add?_eq_some]
  constructor
  · rintro ⟨_, ⟨-, rfl⟩, h, rfl⟩
    exact ⟨h, rfl⟩
  · rintro ⟨h, rfl⟩
    exact ⟨_, ⟨by omega, rfl⟩, h, rfl⟩

private theorem windowLen_eq_ok {op : String} {x w : List Nat} {window : Window} {axes axis n : Nat} :
    windowLen op x w window axes axis = .ok n ↔
      ∃ len first last, x[axis + 2]? = some len ∧ PaddedBy window axes axis first last ∧
        Places w window axis (len + first + last) n := by
  unfold windowLen
  by_cases hp : window.padding.length = axes
  all_goals
    simp only [hp, if_true, if_false, Except.bind_eq_ok, Except.lift_eq_ok, Except.inRange_eq_ok,
      Except.pure_eq_ok, PaddedBy]
    constructor
    · rintro ⟨len, hlen, kernel, hk, first, hf, last, hl, dilation, hd, stride, hs, h⟩
      refine ⟨len, first, last, hlen, ⟨hf, by simp [hl]⟩, kernel, dilation, stride, hk, hd, hs, ?_⟩
      split at h
      · rename_i padded span hp hspan
        obtain ⟨hp', rfl⟩ := Word.add?_add?_eq_some.1 hp
        obtain ⟨hs', rfl⟩ := mul?_add?.1 hspan
        split at h
        · simp [Except.bind_eq_ok, fail, refuse] at h
        · rename_i hok
          rw [not_or, Nat.not_lt] at hok
          rw [places_eq_ok hp' (Nat.succ_pos _) hok.1 hok.2] at h
          cases h
          exact ⟨hp', hs', hok.1, hok.2, rfl⟩
      · cases h
    · rintro ⟨len, first, last, hlen, ⟨hf, hl⟩, kernel, dilation, stride, hk, hd, hs, hlt, hspan, hz,
        hle, rfl⟩
      refine ⟨len, hlen, kernel, hk, first, hf, last, by simp [hl], dilation, hd, stride, hs, ?_⟩
      rw [Word.add?_add?_eq_some.2 ⟨hlt, rfl⟩, mul?_add?.2 ⟨hspan, rfl⟩]
      refine (if_neg (not_or.2 ⟨hz, Nat.not_lt.2 hle⟩)).trans ?_
      exact places_eq_ok hlt (Nat.succ_pos _) hz hle

/-- When a convolution is accepted, and what its lengths are. -/
structure Convolves (window : Window) (x w lens : List Nat) : Prop where
  padding : window.padding.length = 2 * (x.length - 2) ∨ window.padding.length = x.length - 2
  counts : window.stride.length = x.length - 2 ∧ window.dilation.length = x.length - 2
  channels : ∃ batch channels features weightChannels spatial, x[0]? = some batch ∧
    x[1]? = some channels ∧ w[0]? = some features ∧ w[1]? = some weightChannels ∧
      window.group ≠ 0 ∧ Word.mul? weightChannels window.group = some channels ∧
        lens = batch :: features :: spatial ∧
          List.Forall₂ (fun axis n => ∃ len first last, x[axis + 2]? = some len ∧
            PaddedBy window (x.length - 2) axis first last ∧
              Places w window axis (len + first + last) n) (List.range (x.length - 2)) spatial

theorem convolutionShape_eq_ok {op : String} {input weights out : Shape} {window : Window} :
    convolutionShape op input weights window = .ok out ↔
      ∃ lens, Convolves window input.lens weights.lens lens ∧ out = input.withLens lens := by
  unfold convolutionShape
  dsimp only
  by_cases htwo : 2 ≤ input.lens.length
  swap
  · rw [Word.sub, if_neg htwo]
    refine iff_of_false nofun ?_
    rintro ⟨_, hc, -⟩
    obtain ⟨_, _, _, _, _, -, hchannels, -⟩ := hc.channels
    exact htwo (List.getElem?_eq_some_iff.1 hchannels).1
  rw [Word.sub_eq_ok htwo]
  change (if _ then _ else _) = _ ↔ _
  split
  · rename_i hpad
    refine iff_of_false (by simp [fail, refuse]) ?_
    rintro ⟨_, hc, -⟩
    exact hc.padding.elim hpad.1 hpad.2
  rename_i hpad
  split
  · rename_i hcount
    refine iff_of_false (by simp [fail, refuse]) ?_
    rintro ⟨_, hc, -⟩
    exact hcount.elim (fun h => h hc.counts.1) fun h => h hc.counts.2
  rename_i hcount
  rw [not_and_or, not_not, not_not] at hpad
  rw [not_or, not_not, not_not] at hcount
  simp only [Except.bind_eq_ok, Except.lift_eq_ok, Except.inRange_eq_ok]
  constructor
  · rintro ⟨batch, hb, channels, hc, features, hf, weightChannels, hw, h⟩
    split at h
    · cases h
    rename_i hgroup
    rw [not_or, not_not] at hgroup
    simp only [Except.bind_eq_ok, Except.pure_eq_ok, Except.mapM_eq_ok, windowLen_eq_ok] at h
    obtain ⟨spatial, hs, rfl⟩ := h
    exact ⟨_, ⟨hpad, hcount, batch, channels, features, weightChannels, spatial, hb, hc, hf, hw,
      hgroup.1, hgroup.2, rfl, hs⟩, rfl⟩
  · rintro ⟨_, hconv, rfl⟩
    obtain ⟨batch, channels, features, weightChannels, spatial, hb, hc, hf, hw, hg, hm, rfl, hs⟩ :=
      hconv.channels
    refine ⟨batch, hb, channels, hc, features, hf, weightChannels, hw, ?_⟩
    rw [if_neg (by simp [hg, hm])]
    simp only [Except.bind_eq_ok, Except.pure_eq_ok, Except.mapM_eq_ok, windowLen_eq_ok]
    exact ⟨spatial, hs, rfl⟩

/-- The lengths after padding each axis at both ends. -/
theorem padShape_eq_ok {op : String} {input out : Shape} {pads : List Nat}
    (h : padShape op input pads = .ok out) :
    pads.length = 2 * input.rank ∧
      out = input.withLens ((input.lens.zip ((pads.take input.rank).zip (pads.drop input.rank))).map
        fun p => p.1 + p.2.1 + p.2.2) := by
  obtain ⟨hlen, lens, rfl, hlens, hget⟩ := of_padShape_eq_ok h
  refine ⟨hlen, congrArg input.withLens (List.ext_getElem? fun i => ?_)⟩
  rw [List.getElem?_map]
  cases hn : lens[i]? with
  | none =>
    have hi : input.rank ≤ i := hlens ▸ List.getElem?_eq_none_iff.1 hn
    rw [List.getElem?_eq_none (by simp only [List.length_zip, List.length_take]; omega)]
    rfl
  | some n =>
    obtain ⟨len, first, last, hlen, hfirst, hlast, rfl⟩ := hget i n hn
    have hi : i < input.rank := hlens ▸ (List.getElem?_eq_some_iff.1 hn).1
    have hpair : ((pads.take input.rank).zip (pads.drop input.rank))[i]? = some (first, last) := by
      rw [List.getElem?_zip_eq_some, List.getElem?_take_of_lt hi, List.getElem?_drop, Nat.add_comm]
      exact ⟨hfirst, hlast⟩
    rw [(List.getElem?_zip_eq_some (z := (len, first, last))).2 ⟨hlen, hpair⟩]
    rfl

private theorem addPads_eq_ok {as bs : List Nat}
    (h : ∀ k a b : Nat, as[k]? = some a → bs[k]? = some b → a + b < Word.limit) :
    addPads as bs = .ok ((as.zip bs).map fun p => p.1 + p.2) := by
  have hp : ∀ p ∈ as.zip bs, p.1 + p.2 < Word.limit := fun p hp => by
    obtain ⟨k, hk⟩ := List.mem_iff_getElem?.1 hp
    obtain ⟨ha, hb⟩ := List.getElem?_zip_eq_some.1 hk
    exact h k p.1 p.2 ha hb
  rw [addPads]
  generalize as.zip bs = pairs at hp ⊢
  induction pairs with
  | nil => rfl
  | cons p ps ih =>
    obtain ⟨hp, hps⟩ := List.forall_mem_cons.1 hp
    rw [List.mapM_cons, ih hps]
    change Word.add p.1 p.2 >>= _ = _
    rw [Word.add_eq_ok hp]
    rfl

theorem eq_of_addPads {as bs cs : List Nat} (h : addPads as bs = .ok cs) :
    cs = (as.zip bs).map fun p => p.1 + p.2 := by
  have hsum : ∀ (p : Nat × Nat) (c : Nat), Word.add p.1 p.2 = .ok c → p.1 + p.2 = c := by
    intro p c hc
    rw [Word.add] at hc
    split at hc <;> cases hc
    rfl
  rw [addPads, Except.mapM_eq_ok] at h
  have hall : List.Forall₂ (fun p c => p.1 + p.2 = c) (as.zip bs) cs := h.imp hsum
  exact (List.forall₂_eq_eq_eq ▸ List.forall₂_map_left_iff.2 hall).symm

theorem getElem?_sums {as bs : List Nat} {k x y : Nat} (hx : as[k]? = some x)
    (hy : bs[k]? = some y) : ((as.zip bs).map fun p => p.1 + p.2)[k]? = some (x + y) := by
  rw [List.getElem?_map, List.getElem?_zip_eq_some (z := (x, y)).2 ⟨hx, hy⟩]
  rfl

/-- The amounts at the ends of each axis, once for both ends or separately. -/
theorem paddedBy_iff {window : Window} {axes axis first last : Nat} {before after : List Nat}
    (h : splitPadding axes window.padding = some (before, after)) (ha : axis < axes) :
    PaddedBy window axes axis first last ↔ before[axis]? = some first ∧ after[axis]? = some last := by
  rw [splitPadding] at h
  split at h
  · rename_i hlen
    cases h
    rw [PaddedBy, if_pos hlen]
    refine and_congr_right fun hf => ?_
    rw [hf, Option.some.injEq, eq_comm]
  split at h
  · rename_i hne hlen
    cases h
    rw [PaddedBy, if_neg hne, List.getElem?_take_of_lt ha, List.getElem?_drop, Nat.add_comm axes]
  · cases h

theorem length_splitPadding {axes : Nat} {padding before after : List Nat}
    (h : splitPadding axes padding = some (before, after)) :
    before.length = axes ∧ after.length = axes := by
  rw [splitPadding] at h
  split at h
  · cases h
    exact ⟨‹_›, ‹_›⟩
  split at h
  · cases h
    rw [List.length_take, List.length_drop]
    omega
  · cases h

theorem splitPadding_append {axes : Nat} {before after : List Nat} (hb : before.length = axes)
    (ha : after.length = axes) : splitPadding axes (before ++ after) = some (before, after) := by
  subst hb
  rw [splitPadding, List.length_append]
  split
  · rename_i hlen
    have hnil : before = [] := List.length_eq_zero_iff.1 (by omega)
    have hnil' : after = [] := List.length_eq_zero_iff.1 (by omega)
    rw [hnil, hnil']
    rfl
  · rw [if_pos (by omega), List.take_left, List.drop_left]

/-- A pad that leaves the first two axes alone. -/
theorem spatialPads_eq_some {rank : Nat} {pads first last : List Nat}
    (h : spatialPads rank pads = some (first, last)) :
    2 ≤ rank ∧ pads.take rank = 0 :: 0 :: first ∧ pads.drop rank = 0 :: 0 :: last := by
  dsimp only [spatialPads] at h
  split at h
  · rename_i hs
    cases h
    obtain ⟨hr, -, hf, hl⟩ := hs
    refine ⟨hr, ?_, ?_⟩
    · rw [← List.take_append_drop 2 (pads.take rank), hf]
      simp
    · rw [← List.take_append_drop 2 (pads.drop rank), hl]
      simp
  · cases h

/-- The lengths after a pad of the spatial axes. -/
def paddedLens (xs first last : List Nat) : List Nat :=
  (xs.zip (first.zip last)).map fun p => p.1 + p.2.1 + p.2.2

section Absorb
variable {window : Window} {batch channels : Nat} {xs first last before after w lens : List Nat}

/-- What the places of a window along an axis say in terms of the axis before padding. -/
private theorem places_unpadded {axis n : Nat} (ha : axis < xs.length)
    (hsplit : splitPadding xs.length window.padding = some (before, after))
    (h : ∃ len fst lst, (paddedLens xs first last)[axis]? = some len ∧
      PaddedBy window xs.length axis fst lst ∧ Places w window axis (len + fst + lst) n) :
    ∃ len f l fst lst, xs[axis]? = some len ∧ first[axis]? = some f ∧ last[axis]? = some l ∧
      before[axis]? = some fst ∧ after[axis]? = some lst ∧
        Places w window axis (len + f + l + fst + lst) n := by
  obtain ⟨len, fst, lst, hlen, hp, h⟩ := h
  obtain ⟨hb, ha'⟩ := (paddedBy_iff hsplit ha).1 hp
  simp only [paddedLens, List.getElem?_map, List.getElem?_zip_eq_some, Option.map_eq_some_iff] at hlen
  obtain ⟨⟨x, f, l⟩, ⟨hx, hf, hl⟩, rfl⟩ := hlen
  exact ⟨x, f, l, fst, lst, hx, hf, hl, hb, ha', h⟩

/-- The amounts of a pad are taken over by the window: every axis has the same padded length. -/
theorem Convolves.absorb
    (h : Convolves window (batch :: channels :: paddedLens xs first last) w lens)
    (hf : first.length = xs.length) (hl : last.length = xs.length)
    (hsplit : splitPadding xs.length window.padding = some (before, after)) :
    ∃ b a, addPads before first = .ok b ∧ addPads after last = .ok a ∧
      Convolves { window with padding := b ++ a } (batch :: channels :: xs) w lens := by
  obtain ⟨hbefore, hafter⟩ := length_splitPadding hsplit
  have hlen : (paddedLens xs first last).length = xs.length := by simp [paddedLens, hf, hl]
  obtain ⟨-, hcounts, b₀, c₀, features, weightChannels, spatial, hb, hc, hfeat, hw, hg, hm, rfl, hs⟩ := h
  have htwo : xs.length + 1 + 1 - 2 = xs.length := rfl
  simp only [List.length_cons, hlen, htwo] at hcounts hs
  have hlens : spatial.length = xs.length := by simpa using hs.length_eq.symm
  have hplaces : ∀ axis n, spatial[axis]? = some n → ∃ len f l fst lst, xs[axis]? = some len ∧
      first[axis]? = some f ∧ last[axis]? = some l ∧ before[axis]? = some fst ∧
        after[axis]? = some lst ∧ Places w window axis (len + f + l + fst + lst) n := by
    intro axis n hn
    obtain ⟨hlt, rfl⟩ := List.getElem?_eq_some_iff.1 hn
    have ha : axis < xs.length := hlens ▸ hlt
    refine places_unpadded ha hsplit ?_
    have h := (List.forall₂_iff_get.1 hs).2 axis (by simpa using ha) hlt
    simpa using h
  have hevery : ∀ axis < xs.length, ∃ n, spatial[axis]? = some n := fun axis ha =>
    ⟨_, List.getElem?_eq_getElem (hlens ▸ ha)⟩
  have hb' : addPads before first = .ok ((before.zip first).map fun p => p.1 + p.2) := by
    refine addPads_eq_ok fun axis fst f hfst hf' => ?_
    obtain ⟨n, hn⟩ := hevery axis (hbefore ▸ (List.getElem?_eq_some_iff.1 hfst).1)
    obtain ⟨_, _, _, _, _, -, hf'', -, hfst', -, _, _, _, -, -, -, hlt, -⟩ := hplaces axis n hn
    cases hf'.symm.trans hf''
    cases hfst.symm.trans hfst'
    omega
  have ha' : addPads after last = .ok ((after.zip last).map fun p => p.1 + p.2) := by
    refine addPads_eq_ok fun axis lst l hlst hl' => ?_
    obtain ⟨n, hn⟩ := hevery axis (hafter ▸ (List.getElem?_eq_some_iff.1 hlst).1)
    obtain ⟨_, _, _, _, _, -, -, hl'', -, hlst', _, _, _, -, -, -, hlt, -⟩ := hplaces axis n hn
    cases hl'.symm.trans hl''
    cases hlst.symm.trans hlst'
    omega
  refine ⟨_, _, hb', ha', ⟨.inl ?_, hcounts, b₀, c₀, features, weightChannels, spatial, hb, hc, hfeat,
    hw, hg, hm, rfl, ?_⟩⟩
  · simp [hbefore, hafter, hf, hl]
    omega
  · refine List.forall₂_iff_get.2 ⟨by simp [hlens], fun axis h₁ h₂ => ?_⟩
    obtain ⟨len, f, l, fst, lst, hx, hf', hl', hfst, hlst, h⟩ :=
      hplaces axis _ (List.getElem?_eq_getElem h₂)
    have hlt : axis < xs.length := hlens ▸ h₂
    have hbl : ((before.zip first).map fun p => p.1 + p.2).length = xs.length := by
      simp [hbefore, hf]
    have hal : ((after.zip last).map fun p => p.1 + p.2).length = xs.length := by simp [hafter, hl]
    simp only [List.get_eq_getElem, List.getElem_range, List.length_cons, htwo]
    refine ⟨len, fst + f, lst + l, by simpa using hx, ?_, ?_⟩
    · exact (paddedBy_iff (splitPadding_append hbl hal) hlt).2
        ⟨getElem?_sums hfst hf', getElem?_sums hlst hl'⟩
    · have htotal : len + (fst + f) + (lst + l) = len + f + l + fst + lst := by omega
      rw [htotal]
      exact h

end Absorb
theorem rawShape_convolution {window : Window} {ins : List Shape} {mods : List (List Shape)}
    {out : Shape} : (convolution window).rawShape ins mods = .ok out ↔
      ∃ x w, ins = [x, w] ∧ (x.isTuple = false ∧ w.isTuple = false) ∧
        (x.isDynamic = false ∧ w.isDynamic = false) ∧ w.elementType = x.elementType ∧
          w.rank = x.rank ∧ 3 ≤ x.rank ∧ convolutionShape "convolution" x w window = .ok out := by
  rw [rawShape, Except.seq_eq_ok, Except.seq_eq_ok, Except.seq_eq_ok, Except.seq_eq_ok,
    Except.seq_eq_ok, has_eq_ok, onlyStatic_eq_ok, minRank_eq_ok, List.length_eq_two]
  constructor
  · rintro ⟨⟨x, w, rfl⟩, ⟨ht, hd⟩, htype, hrank, hmin, h⟩
    rw [sameType, agree_eq_ok] at htype
    rw [sameRank, agree_eq_ok] at hrank
    exact ⟨x, w, rfl, ⟨ht x (by simp), ht w (by simp)⟩, ⟨hd x (by simp), hd w (by simp)⟩,
      htype w (by simp), hrank w (by simp), hmin x (by simp), h⟩
  · rintro ⟨x, w, rfl, ht, hd, htype, hrank, hmin, h⟩
    refine ⟨⟨x, w, rfl⟩, ⟨by simp [ht], by simp [hd]⟩, ?_, ?_, by simp [hrank, hmin], h⟩
    · rw [sameType, agree_eq_ok]
      simpa using htype
    · rw [sameRank, agree_eq_ok]
      simpa using hrank

theorem rank_of_padShape {op : String} {pads : List Nat} {x padded : Shape}
    (hp : padShape op x pads = .ok padded) : padded.rank = x.rank := by
  obtain ⟨-, lens, rfl, hlens, -⟩ := of_padShape_eq_ok hp
  exact hlens

/-- A pad of the spatial axes, in terms of the lengths of these axes. -/
theorem lens_of_spatialPads {op : String} {pads first last : List Nat} {x padded : Shape}
    (hd : x.isDynamic = false) (hp : padShape op x pads = .ok padded)
    (hspatial : spatialPads padded.rank pads = some (first, last)) :
    ∃ batch channels xs, x.lens = batch :: channels :: xs ∧
      padded = x.withLens (batch :: channels :: paddedLens xs first last) ∧
        first.length = xs.length ∧ last.length = xs.length := by
  have hxrank := Shape.rank_of_static hd
  rw [rank_of_padShape hp] at hspatial
  obtain ⟨hcount, rfl⟩ := padShape_eq_ok hp
  obtain ⟨htwo, htake, hdrop⟩ := spatialPads_eq_some hspatial
  rw [hxrank] at hcount htwo htake hdrop
  obtain ⟨batch, channels, xs, hx⟩ : ∃ batch channels xs, x.lens = batch :: channels :: xs := by
    match x.lens, htwo with
    | batch :: channels :: xs, _ => exact ⟨batch, channels, xs, rfl⟩
  refine ⟨batch, channels, xs, hx, congrArg x.withLens ?_, ?_, ?_⟩
  · rw [hxrank, htake, hdrop, hx]
    rfl
  · have h := congrArg List.length htake
    simp [hx] at h hcount
    omega
  · have h := congrArg List.length hdrop
    simp [hx] at h hcount
    omega

/-- A convolution of a padded input has the shape of the one that pads by itself. -/
theorem inferShape_convolution_of_pad {pads first last before after : List Nat} {mode : PadMode}
    {value : Float} {window : Window} {x padded w out : Shape} {mods mods' : List (List Shape)}
    (hpad : (pad pads mode value).inferShape [x] mods = .ok padded)
    (hconv : (convolution window).inferShape [padded, w] mods' = .ok out)
    (hspatial : spatialPads padded.rank pads = some (first, last))
    (hsplit : splitPadding (padded.rank - 2) window.padding = some (before, after)) :
    ∃ b a, addPads before first = .ok b ∧ addPads after last = .ok a ∧
      (convolution { window with padding := b ++ a }).inferShape [x, w] [] = .ok out := by
  obtain ⟨hraw, -⟩ := inferShape_eq_ok.1 hpad
  obtain ⟨_, he, hxt, hxd, hp⟩ := rawShape_pad hraw
  cases he
  have hprank := rank_of_padShape hp
  obtain ⟨batch, channels, xs, hx, rfl, hf, hl⟩ := lens_of_spatialPads hxd hp hspatial
  obtain ⟨hraw', haddr⟩ := inferShape_eq_ok.1 hconv
  obtain ⟨_, _, he, ⟨-, hwt⟩, ⟨-, hwd⟩, htype, hrank, hmin, hc⟩ := rawShape_convolution.1 hraw'
  cases he
  obtain ⟨lens, hconv', rfl⟩ := convolutionShape_eq_ok.1 hc
  rw [hprank] at hsplit hrank hmin
  rw [Shape.rank_of_static hxd, hx] at hsplit
  obtain ⟨b, a, hb, ha, hc'⟩ := Convolves.absorb hconv' hf hl hsplit
  refine ⟨b, a, hb, ha, inferShape_eq_ok.2 ⟨rawShape_convolution.2 ⟨x, w, rfl, ⟨hxt, hwt⟩, ⟨hxd, hwd⟩,
    htype, hrank, hmin, convolutionShape_eq_ok.2 ⟨lens, ?_, rfl⟩⟩, haddr⟩⟩
  rw [hx]
  exact hc'

end TensorGraph.Pass.Pad
