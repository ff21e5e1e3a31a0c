import Mathlib.Data.Fintype.EquivFin
import Mathlib.Tactic.Ring
import TensorGraph.Proofs.RowMajor

/-! Elements are numbered in row-major order. Numbers and indices correspond one to one, and an index
leads to a place within the memory span whatever the strides are. In row-major layout that place is the
number again. The test for row-major layout only counts: it also accepts layouts whose elements share
places, and is right about all others. -/
namespace TensorGraph.Shape
variable {lens strides idx idx' : List Nat} {s : Shape} {t : ElementType} {i n z : Nat}

theorem unravel_cons (n : Nat) (lens : List Nat) (i : Nat) :
    unravel (n :: lens) i =
      ((unravel lens i).2 % max n 1 :: (unravel lens i).1, (unravel lens i).2 / max n 1) := rfl

/-- The index of an element and what is left of its number make up the number. -/
theorem place_unravel_add (lens : List Nat) (i : Nat) :
    place (unravel lens i).1 (rowStrides lens) +
      (unravel lens i).2 * (lens.map (max · 1)).prod = i := by
  induction lens with
  | nil => simp [unravel, rowStrides]
  | cons n lens ih =>
    rw [unravel_cons, rowStrides, place_cons, List.map_cons, List.prod_cons]
    generalize (unravel lens i).2 = rest at ih ⊢
    calc
      _ = place (unravel lens i).1 (rowStrides lens) +
          (max n 1 * (rest / max n 1) + rest % max n 1) * (lens.map (max · 1)).prod := by ring
      _ = place (unravel lens i).1 (rowStrides lens) + rest * (lens.map (max · 1)).prod := by
        rw [Nat.div_add_mod]
      _ = i := ih

/-- The number of an element is the row-major place of its index. -/
theorem place_unravel (h : i < (lens.map (max · 1)).prod) :
    place (unravel lens i).1 (rowStrides lens) = i := by
  have hsum := place_unravel_add lens i
  have hrest : (unravel lens i).2 = 0 := by
    by_contra hne
    have hle := Nat.le_mul_of_pos_left (lens.map (max · 1)).prod (Nat.pos_of_ne_zero hne)
    omega
  rwa [hrest, Nat.zero_mul, Nat.add_zero] at hsum

/-- Every index is that of the number that its row-major place gives. -/
theorem unravel_place_add (h : Within idx lens) (k : Nat) :
    unravel lens (place idx (rowStrides lens) + k * (lens.map (max · 1)).prod) = (idx, k) := by
  induction h generalizing k with
  | nil => simp [unravel, rowStrides]
  | @cons a n idx lens ha _ ih =>
    have hn : max n 1 = n := by omega
    have hnumber : place (a :: idx) (rowStrides (n :: lens)) + k * ((n :: lens).map (max · 1)).prod =
        place idx (rowStrides lens) + (a + k * n) * (lens.map (max · 1)).prod := by
      rw [rowStrides, place_cons, List.map_cons, List.prod_cons, hn]
      ring
    have hmod : (a + k * n) % n = a := by rw [Nat.add_mul_mod_self_right, Nat.mod_eq_of_lt ha]
    have hdiv : (a + k * n) / n = k := by
      rw [Nat.add_mul_div_right _ _ (Nat.zero_lt_of_lt ha), Nat.div_eq_of_lt ha, Nat.zero_add]
    rw [hnumber, unravel_cons, ih, hn, hmod, hdiv]

theorem unravel_place (h : Within idx lens) : (unravel lens (place idx (rowStrides lens))).1 = idx := by
  have hpair := unravel_place_add h 0
  rw [Nat.zero_mul, Nat.add_zero] at hpair
  rw [hpair]

theorem place_rowStrides_lt (h : Within idx lens) :
    place idx (rowStrides lens) < (lens.map (max · 1)).prod := by
  have hle := place_le_span h (rowStrides lens)
  have hspan := span_rowStrides lens
  omega

private theorem ne_zero_of_lt_prod (h : i < lens.prod) : ∀ n ∈ lens, n ≠ 0 := by
  rintro n hn rfl
  rw [List.prod_eq_zero hn] at h
  cases h

theorem place_multiIndex (h : i < s.lens.prod) : place (s.multiIndex i) (rowStrides s.lens) = i :=
  place_unravel (by rwa [Word.prod_max_eq (ne_zero_of_lt_prod h)])

private theorem multiIndex_injective {j : Nat} (hi : i < s.lens.prod) (hj : j < s.lens.prod)
    (h : s.multiIndex i = s.multiIndex j) : i = j := by
  rw [← place_multiIndex hi, h, place_multiIndex hj]

/-- Within an addressable shape every index has a place. -/
theorem offset_eq_place (ht : s.isTuple = false) (ha : s.addressable = true)
    (h : Within idx s.lens) : s.offset idx = .ok (place idx s.strides) := by
  have hle := place_le_span h s.strides
  have hlt := (addressable_of_not_tuple ht ha).2
  exact dot_eq_place (by omega)

/-- Elements and their indices correspond one to one, and every index leads to a place within the memory
span, whatever the strides are. In a row-major shape the place is the number of the element. -/
theorem indexing_exact :
    (∀ s : Shape, s.isTuple = false → s.isDynamic = false → s.lens ≠ [] → s.addressable = true →
      ∃ space, s.elements = .ok s.lens.prod ∧ s.elementSpace = .ok space ∧
        (∀ i < s.lens.prod, Within (s.multiIndex i) s.lens ∧
          place (s.multiIndex i) (standardStrides s.lens) = i ∧
          ∃ p, s.offset (s.multiIndex i) = .ok p ∧ p = place (s.multiIndex i) s.strides ∧ p < space) ∧
        ∀ i < s.lens.prod, ∀ j < s.lens.prod, s.multiIndex i = s.multiIndex j → i = j) ∧
    ∀ (t : ElementType) (lens : List Nat), t ≠ .tuple → (packedOf t lens).addressable = true →
      (packedOf t lens).isStandard = .ok true ∧
        ∃ count, (packedOf t lens).elements = .ok count ∧
          ∀ i < count, (packedOf t lens).offset ((packedOf t lens).multiIndex i) = .ok i := by
  refine ⟨fun s ht hd hl ha => ?_, fun t lens ht ha => ⟨isStandard_packedOf ht ha, ?_⟩⟩
  · have hcount := elements_eq_prod ht hd hl ha
    obtain ⟨space, hspace⟩ := elementSpace_eq_ok ha
    refine ⟨space, hcount, hspace, fun i hi => ?_, fun i hi j hj => multiIndex_injective hi hj⟩
    have hwithin := within_multiIndex (ne_zero_of_lt_prod hi) i
    refine ⟨hwithin, ?_, _, offset_eq_place ht ha hwithin, rfl, ?_⟩
    · rw [standardStrides_eq (addressable_of_not_tuple ht ha).1]
      exact place_multiIndex hi
    · rw [elementSpace_eq_span hcount (Nat.ne_zero_of_lt hi) ha] at hspace
      cases hspace
      exact Nat.lt_succ_of_le (place_le_span hwithin s.strides)
  · have htuple : (packedOf t lens).isTuple = false := by simpa [isTuple, packedOf] using ht
    obtain ⟨count, hcount⟩ := elements_eq_ok ha
    refine ⟨count, hcount, fun i hi => ?_⟩
    obtain ⟨-, hl, -⟩ := of_elements_ne_zero hcount (Nat.ne_zero_of_lt hi)
    cases hcount.symm.trans (elements_eq_prod htuple rfl hl ha)
    rw [offset_eq_place htuple ha (within_multiIndex (ne_zero_of_lt_prod hi) i)]
    refine congrArg Except.ok (Eq.trans ?_ (place_multiIndex hi))
    exact congrArg _ (standardStrides_eq (addressable_of_not_tuple htuple ha).1)

/-- Rows stored as columns. -/
private def columns : Shape :=
  { elementType := .float, lens := [2, 3], strides := [1, 2] }

theorem indexing_exact_columns :
    columns.isTransposed = true ∧ place (columns.multiIndex 4) (standardStrides columns.lens) = 4 ∧
      (packedOf .half [2, 1, 3]).isStandard = .ok true ∧
      (packedOf .half [2, 1, 3]).offset ((packedOf .half [2, 1, 3]).multiIndex 5) = .ok 5 := by
  obtain ⟨hany, hrow⟩ := indexing_exact
  obtain ⟨_, -, -, hindex, -⟩ := hany columns (by decide) (by decide) (by decide) (by decide +kernel)
  obtain ⟨hstandard, count, hcount, hplace⟩ := hrow .half [2, 1, 3] (by decide) (by decide +kernel)
  refine ⟨by decide, (hindex 4 (by decide)).2.1, hstandard, hplace 5 ?_⟩
  cases hcount
  decide

/-- Every place up to the last one that is used holds an element. -/
def Gapless (lens strides : List Nat) : Prop :=
  ∀ p ≤ span (lens.zip strides), ∃ idx, Within idx lens ∧ place idx strides = p

/-- Elements do not share places. -/
def Separates (lens strides : List Nat) : Prop :=
  ∀ idx idx', Within idx lens → Within idx' lens → place idx strides = place idx' strides → idx = idx'

/-- The strides of axes that have more than one element do not grow, and are not zero. -/
def Descends (axes : List (Nat × Nat)) : Prop :=
  (∀ a ∈ axes, a.1 ≠ 1 → a.2 ≠ 0) ∧ axes.Pairwise fun a b => a.1 ≠ 1 → b.1 ≠ 1 → b.2 ≤ a.2

theorem Descends.tail {a : Nat × Nat} {axes : List (Nat × Nat)} (h : Descends (a :: axes)) :
    Descends axes :=
  ⟨fun b hb => h.1 b (by simp [hb]), h.2.of_cons⟩

private theorem within_last (h : ∀ n ∈ lens, n ≠ 0) : Within (lens.map (· - 1)) lens := by
  rw [Within, List.forall₂_map_left_iff, List.forall₂_same]
  exact fun n hn => Nat.sub_lt (Nat.pos_of_ne_zero (h n hn)) Nat.one_pos

private theorem place_last (lens strides : List Nat) :
    place (lens.map (· - 1)) strides = span (lens.zip strides) :=
  sum_last_eq_span lens strides

theorem Separates.tail (h : Separates (n :: lens) (z :: strides)) (hn : n ≠ 0) :
    Separates lens strides := by
  intro idx idx' hidx hidx' he
  have hzero := Nat.pos_of_ne_zero hn
  have hcons := h (0 :: idx) (0 :: idx') (.cons hzero hidx) (.cons hzero hidx') (by simpa [place_cons])
  exact (List.cons.inj hcons).2

/-- Places are never further apart than the largest stride. -/
theorem exists_place_near (hpos : ∀ n ∈ lens, n ≠ 0) {bound q : Nat} (hbound : 0 < bound)
    (h : ∀ a ∈ lens.zip strides, a.1 ≠ 1 → a.2 ≠ 0 ∧ a.2 ≤ bound)
    (hq : q ≤ span (lens.zip strides)) :
    ∃ idx, Within idx lens ∧ q ≤ place idx strides ∧ place idx strides < q + bound := by
  induction lens generalizing strides with
  | nil =>
    have hzero : q = 0 := by simpa [span] using hq
    exact ⟨[], .nil, by simp [hzero], by simpa [place] using Nat.add_pos_right q hbound⟩
  | cons n lens ih =>
    obtain ⟨hn, hlens⟩ := List.forall_mem_cons.1 hpos
    cases strides with
    | nil =>
      have hzero : q = 0 := by simpa [span] using hq
      exact ⟨_, within_last hpos, by simp [hzero], by simpa using Nat.add_pos_right q hbound⟩
    | cons z strides =>
      rw [List.zip_cons_cons] at h hq
      obtain ⟨hz, haxes⟩ := List.forall_mem_cons.1 h
      rw [span_cons] at hq
      dsimp only at hz hq
      by_cases hle : q ≤ span (lens.zip strides)
      · obtain ⟨idx, hidx, hlow, hhigh⟩ := ih hlens haxes hle
        refine ⟨0 :: idx, .cons (Nat.pos_of_ne_zero hn) hidx, ?_⟩
        rw [place_cons, Nat.zero_mul, Nat.zero_add]
        exact ⟨hlow, hhigh⟩
      -- the other axes are at their ends, and the first one goes as far as it must
      · obtain ⟨hz, hzb⟩ := hz fun hone => hle (by simpa only [hone, Nat.sub_self, Nat.zero_mul, Nat.zero_add] using hq)
        have hdiv := Nat.div_add_mod (q - span (lens.zip strides) - 1) z
        have hmod := Nat.mod_lt (q - span (lens.zip strides) - 1) (Nat.pos_of_ne_zero hz)
        have hlt : (q - span (lens.zip strides) - 1) / z < n - 1 :=
          Nat.div_lt_of_lt_mul (by rw [Nat.mul_comm z]; omega)
        refine ⟨((q - span (lens.zip strides) - 1) / z + 1) :: lens.map (· - 1),
          .cons (by omega) (within_last hlens), ?_⟩
        rw [place_cons, place_last, Nat.succ_mul, Nat.mul_comm _ z]
        constructor <;> omega

/-- Places that are filled without gaps and without sharing, by strides that do not grow, are those of the
row-major layout. -/
theorem place_eq_of_gapless (hlen : strides.length = lens.length) (hpos : ∀ n ∈ lens, n ≠ 0)
    (hdesc : Descends (lens.zip strides)) (hfull : Gapless lens strides)
    (hsep : Separates lens strides) (h : Within idx lens) :
    place idx strides = place idx (rowStrides lens) := by
  induction lens generalizing strides idx with
  | nil =>
    cases h
    rw [List.length_eq_zero_iff.1 hlen, rowStrides]
  | cons n lens ih =>
    obtain ⟨z, strides, rfl⟩ := List.exists_cons_of_length_eq_add_one hlen
    obtain ⟨hn, hlens⟩ := List.forall_mem_cons.1 hpos
    cases h with
    | @cons a _ idx _ ha hidx =>
      rw [List.zip_cons_cons] at hdesc
      have htail := hsep.tail hn
      rw [rowStrides, place_cons, place_cons]
      by_cases hone : n = 1
      · subst hone
        have hrest : Gapless lens strides := by
          intro p hp
          obtain ⟨_, hwithin, hplace⟩ := hfull p (by rw [List.zip_cons_cons, span_cons]; omega)
          cases hwithin with
          | @cons b _ rest _ hb hrest =>
            refine ⟨rest, hrest, ?_⟩
            rwa [place_cons, Nat.lt_one_iff.1 hb, Nat.zero_mul, Nat.zero_add] at hplace
        rw [Nat.lt_one_iff.1 ha, Nat.zero_mul, Nat.zero_mul,
          ih (Nat.succ.inj hlen) hlens hdesc.tail hrest htail hidx]
      have hz : z ≠ 0 := hdesc.1 (n, z) (by simp) hone
      have hspan : span ((n :: lens).zip (z :: strides)) = (n - 1) * z + span (lens.zip strides) := rfl
      have hstep : z ≤ (n - 1) * z := Nat.le_mul_of_pos_left z (by omega)
      have hlow : ∀ p < z, ∃ rest, Within rest lens ∧ place rest strides = p := by
        intro p hp
        obtain ⟨_, hwithin, hplace⟩ := hfull p (by omega)
        cases hwithin with
        | @cons b _ rest _ hb hrest =>
          rw [place_cons] at hplace
          have hzero : b = 0 := by
            by_contra hne
            have hle := Nat.le_mul_of_pos_left z (Nat.pos_of_ne_zero hne)
            omega
          exact ⟨rest, hrest, by rwa [hzero, Nat.zero_mul, Nat.zero_add] at hplace⟩
      -- if they led further, a place just above the first stride would be shared
      have hshort : span (lens.zip strides) < z := by
        by_contra hge
        have hnear : ∀ b ∈ lens.zip strides, b.1 ≠ 1 → b.2 ≠ 0 ∧ b.2 ≤ z := fun b hb hb1 =>
          ⟨hdesc.1 b (by simp [hb]) hb1, List.rel_of_pairwise_cons hdesc.2 hb hone hb1⟩
        obtain ⟨rest, hrest, hge', hlt⟩ :=
          exists_place_near hlens (Nat.pos_of_ne_zero hz) hnear (Nat.not_lt.1 hge)
        obtain ⟨rest', hrest', hplace⟩ := hlow (place rest strides - z) (by omega)
        have hshared := hsep (0 :: rest) (1 :: rest') (.cons (by omega) hrest) (.cons (by omega) hrest')
          (by rw [place_cons, place_cons]; omega)
        cases (List.cons.inj hshared).1
      have hrest : Gapless lens strides := fun p hp => hlow p (by omega)
      have hrow : ∀ rest, Within rest lens → place rest strides = place rest (rowStrides lens) :=
        fun rest h => ih (Nat.succ.inj hlen) hlens hdesc.tail hrest htail h
      have hfirst : z = (lens.map (max · 1)).prod := by
        obtain ⟨rest, hwithin, hplace⟩ := hlow (z - 1) (by omega)
        have hle := place_le_span hwithin strides
        rw [← span_rowStrides, ← place_last, ← hrow _ (within_last hlens), place_last]
        omega
      rw [hrow idx hidx, hfirst]

private theorem pairwise_of_zip_tail {zs : List Nat}
    (h : ∀ a b, (a, b) ∈ zs.zip zs.tail → b ≤ a) : zs.Pairwise fun a b => b ≤ a := by
  induction zs with
  | nil => exact .nil
  | cons z zs ih =>
    cases zs with
    | nil => exact List.pairwise_singleton _ z
    | cons y zs =>
      have hrest := ih fun a b hab => h a b (List.mem_cons_of_mem _ hab)
      have hzy : y ≤ z := h z y (by simp)
      refine .cons (fun x hx => ?_) hrest
      rcases List.mem_cons.1 hx with rfl | hx
      · exact hzy
      · exact Nat.le_trans (List.rel_of_pairwise_cons hrest hx) hzy

/-- A layout that passes the test has descending strides. -/
theorem descends_of_isStandard (h : s.isStandard = .ok true) : Descends (s.lens.zip s.strides) := by
  have hzero := zero_notMem_of_isPacked (isPacked_of_isStandard h)
  have hne : ∀ a ∈ s.lens.zip s.strides, a.2 ≠ 0 := fun a ha he =>
    hzero (he ▸ (List.of_mem_zip ha).2)
  refine ⟨fun a ha _ => hne a ha, ?_⟩
  have hflat : s.isTransposed = false := by
    rw [isStandard, isPacked_of_isStandard h] at h
    simpa [bind, Except.bind, pure, Except.pure] using h
  rw [isTransposed, List.any_eq_false] at hflat
  have hpairs := pairwise_of_zip_tail fun a b hab => by simpa using hflat (a, b) hab
  rw [List.pairwise_map, List.pairwise_filter] at hpairs
  refine hpairs.imp_of_mem fun {a b} ha hb hab ha1 hb1 => hab ?_ ?_
  · simpa using ⟨ha1, hne a ha⟩
  · simpa using ⟨hb1, hne b hb⟩

/-- A packed layout has as many places as elements. -/
theorem elementSpace_of_isPacked {count : Nat} (h : s.isPacked = .ok true)
    (hcount : s.elements = .ok count) : s.elementSpace = .ok count := by
  rw [isPacked, hcount] at h
  split at h
  · cases h
  · rw [Except.ok_bind, Except.bind_eq_ok] at h
    obtain ⟨space, hspace, h⟩ := h
    have heq : count = space := by simpa using h
    rw [hspace, heq]

/-- Distinct places, one for each element, leave no gap. -/
theorem gapless_of_injective (hpos : ∀ n ∈ s.lens, n ≠ 0)
    (hspan : span (s.lens.zip s.strides) + 1 = s.lens.prod)
    (h : ∀ i < s.lens.prod, ∀ j < s.lens.prod,
      place (s.multiIndex i) s.strides = place (s.multiIndex j) s.strides → i = j) :
    Gapless s.lens s.strides := by
  have hbound : ∀ i, place (s.multiIndex i) s.strides < s.lens.prod := fun i => by
    have hle := place_le_span (within_multiIndex hpos i) s.strides
    omega
  let f : Fin s.lens.prod → Fin s.lens.prod := fun i => ⟨place (s.multiIndex i) s.strides, hbound i⟩
  have hinj : Function.Injective f := fun i j hij =>
    Fin.ext (h i i.isLt j j.isLt (congrArg Fin.val hij))
  intro p hp
  obtain ⟨i, hi⟩ := Finite.injective_iff_surjective.1 hinj ⟨p, by omega⟩
  exact ⟨_, within_multiIndex hpos i, congrArg Fin.val hi⟩

/-- An addressable layout that passes the test for row-major layout is row-major exactly when its
elements do not share places. -/
theorem rowMajor_iff_unshared {count : Nat} (hlen : s.strides.length = s.lens.length)
    (ha : s.addressable = true) (hs : s.isStandard = .ok true) (hcount : s.elements = .ok count) :
    (∀ i < count, s.offset (s.multiIndex i) = .ok i) ↔
      ∀ i < count, ∀ j < count,
        s.offset (s.multiIndex i) = s.offset (s.multiIndex j) → i = j := by
  refine ⟨fun h i hi j hj he => ?_, fun h i hi => ?_⟩
  · rw [h i hi, h j hj] at he
    exact Except.ok.inj he
  have hne := Nat.ne_zero_of_lt hi
  obtain ⟨⟨ht, hd⟩, hl, hpos⟩ := of_elements_ne_zero hcount hne
  have hspace := elementSpace_of_isPacked (isPacked_of_isStandard hs) hcount
  cases hcount.symm.trans (elements_eq_prod ht hd hl ha)
  have hspan := Except.ok.inj ((elementSpace_eq_span hcount hne ha).symm.trans hspace)
  have hoffset : ∀ {idx}, Within idx s.lens → s.offset idx = .ok (place idx s.strides) :=
    offset_eq_place ht ha
  have hplaces : ∀ i < s.lens.prod, ∀ j < s.lens.prod,
      place (s.multiIndex i) s.strides = place (s.multiIndex j) s.strides → i = j := by
    intro i hi j hj he
    refine h i hi j hj ?_
    rw [hoffset (within_multiIndex hpos i), hoffset (within_multiIndex hpos j), he]
  have hsep : Separates s.lens s.strides := by
    intro idx idx' hidx hidx' he
    have hlt : ∀ {idx}, Within idx s.lens → place idx (rowStrides s.lens) < s.lens.prod := fun h =>
      Word.prod_max_eq hpos ▸ place_rowStrides_lt h
    have hindex : ∀ {idx}, Within idx s.lens → s.multiIndex (place idx (rowStrides s.lens)) = idx :=
      unravel_place
    have hnumber := hplaces _ (hlt hidx) _ (hlt hidx') (by rw [hindex hidx, hindex hidx', he])
    rw [← hindex hidx, hnumber, hindex hidx']
  have hwithin := within_multiIndex hpos i
  have hrow := place_eq_of_gapless hlen hpos (descends_of_isStandard hs)
    (gapless_of_injective hpos hspan hplaces) hsep hwithin
  rw [hoffset hwithin, hrow, place_multiIndex hi]

/-- A row-major layout in which the stride of the unit axis is of no use. -/
private def loose : Shape :=
  { elementType := .float, lens := [2, 1, 3], strides := [3, 7, 1] }

theorem rowMajor_iff_unshared_loose :
    loose.isStandard = .ok true ∧ ∀ i < 6, loose.offset (loose.multiIndex i) = .ok i :=
  ⟨by decide +kernel, (rowMajor_iff_unshared rfl (by decide +kernel) (by decide +kernel) rfl).2
    (by decide +kernel)⟩

/-- Nine elements on the even places up to eight. -/
private def crowded : Shape :=
  { elementType := .float, lens := [3, 3], strides := [2, 2] }

/-- Elements that share places can pass the test for row-major layout: the memory span has as many places
as there are elements, and the strides do not grow. -/
theorem isStandard_crowded :
    crowded.addressable = true ∧ crowded.isStandard = .ok true ∧ crowded.elements = .ok 9 ∧
      crowded.offset (crowded.multiIndex 1) = .ok 2 ∧ crowded.offset (crowded.multiIndex 3) = .ok 2 ∧
        ¬ ∀ i < 9, crowded.offset (crowded.multiIndex i) = .ok i := by
  decide +kernel

end TensorGraph.Shape
