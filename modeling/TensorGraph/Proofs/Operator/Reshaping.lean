import Mathlib.Data.List.NodupEquivFin
import TensorGraph.Proofs.Operator.Safety

/-! Which reshapes are accepted. The entries decide the lengths, except for one that may be left to be
inferred; the number of elements stays the same, and the result has to be addressable. A product that
does not fit a word is found before it is used, since the lengths of an addressable shape have a product
even where an empty axis counts as one. -/
namespace TensorGraph.Operator
namespace Inference
open TensorGraph.Except
variable {op : String} {s t : Shape} {lens : List Nat} {dims : List Int} {axis count n : Nat} {d : Int}

/-- The length that an entry stands for, with `free` for one that is inferred. -/
def entryLen (lens : List Nat) (free axis : Nat) (d : Int) : Nat :=
  if d = 0 then lens.getD axis 0 else if d = -1 then free else d.toNat

def entryLens (lens : List Nat) (dims : List Int) (free : Nat) : List Nat :=
  dims.mapIdx (entryLen lens free)

/-- The product of all lengths but the inferred one. -/
def knownCount (lens : List Nat) (dims : List Int) : Nat :=
  (entryLens lens dims 1).prod

/-- The entries have a meaning: one is inferred at most, none is below that, and where a length is copied
there is one. -/
structure WellPosed (lens : List Nat) (dims : List Int) : Prop where
  single : dims.count (-1) ≤ 1
  bounded : ∀ d ∈ dims, -1 ≤ d
  copied : ∀ axis, dims[axis]? = some 0 → axis < lens.length

private theorem getElem?_entryLens (lens : List Nat) (dims : List Int) (free axis : Nat) :
    (entryLens lens dims free)[axis]? = dims[axis]?.map (entryLen lens free axis) :=
  List.getElem?_mapIdx

private theorem requestedLen_eq_ok : requestedLen op s axis d = .ok n ↔
    -1 ≤ d ∧ (d = 0 → axis < s.lens.length) ∧ n = entryLen s.lens 1 axis d := by
  rw [requestedLen, entryLen]
  split
  · rename_i hd
    cases hlen : s.lens[axis]? with
    | none =>
      have hle := List.getElem?_eq_none_iff.1 hlen
      simp [fail, refuse, hd, hle]
    | some len =>
      obtain ⟨hlt, rfl⟩ := List.getElem?_eq_some_iff.1 hlen
      simp [hd, hlt, eq_comm]
  split
  · rename_i hd
    simp [hd, eq_comm]
  split
  · rename_i hd
    simp only [Except.ok.injEq]
    constructor
    · rintro rfl
      exact ⟨by omega, by omega, rfl⟩
    · exact fun h => h.2.2.symm
  · simp only [fail, refuse, reduceCtorEq, false_iff, not_and]
    omega

/-- All entries have lengths exactly where none is below `-1` and copied ones are there. -/
theorem requestedLens_eq_ok :
    dims.zipIdx.mapM (fun p => requestedLen op s p.2 p.1) = .ok lens ↔
      (∀ d ∈ dims, -1 ≤ d) ∧ (∀ axis, dims[axis]? = some 0 → axis < s.lens.length) ∧
        lens = entryLens s.lens dims 1 := by
  rw [mapM_eq_ok, List.forall₂_iff_get]
  simp only [requestedLen_eq_ok, List.length_zipIdx, List.get_eq_getElem, List.getElem_zipIdx, Nat.zero_add]
  constructor
  · rintro ⟨hlen, h⟩
    refine ⟨fun d hd => ?_, fun axis hzero => ?_, List.ext_getElem? fun axis => ?_⟩
    · obtain ⟨axis, haxis, rfl⟩ := List.getElem_of_mem hd
      exact (h axis haxis (hlen ▸ haxis)).1
    · obtain ⟨haxis, hd⟩ := List.getElem?_eq_some_iff.1 hzero
      exact (h axis haxis (hlen ▸ haxis)).2.1 hd
    · rw [getElem?_entryLens]
      by_cases haxis : axis < dims.length
      · rw [List.getElem?_eq_getElem haxis, List.getElem?_eq_getElem (hlen ▸ haxis),
          (h axis haxis (hlen ▸ haxis)).2.2]
        rfl
      · rw [List.getElem?_eq_none (by omega), List.getElem?_eq_none (by omega)]
        rfl
  · rintro ⟨hbounded, hcopied, rfl⟩
    refine ⟨by rw [entryLens, List.length_mapIdx], fun axis haxis _ => ⟨?_, fun hzero => ?_, ?_⟩⟩
    · exact hbounded _ (List.getElem_mem haxis)
    · exact hcopied axis (by rw [List.getElem?_eq_getElem haxis, hzero])
    · simp [entryLens]

/-- What is counted once stands at one place. -/
private theorem eq_of_count_le_one {i j : Nat} (h : dims.count d ≤ 1) (hi : dims[i]? = some d)
    (hj : dims[j]? = some d) : i = j := by
  by_contra hne
  wlog hlt : i < j generalizing i j
  · exact this hj hi (Ne.symm hne) (by omega)
  obtain ⟨hi', hdi⟩ := List.getElem?_eq_some_iff.1 hi
  obtain ⟨hj', hdj⟩ := List.getElem?_eq_some_iff.1 hj
  have htwice : List.Duplicate d dims :=
    List.duplicate_iff_exists_distinct_get.2 ⟨⟨i, hi'⟩, ⟨j, hj'⟩, hlt, hdi.symm, hdj.symm⟩
  have hcount := List.duplicate_iff_two_le_count.1 htwice
  omega

private theorem set_entryLens (h : dims.count (-1) ≤ 1) (haxis : dims[axis]? = some (-1))
    (free : Nat) : (entryLens lens dims 1).set axis free = entryLens lens dims free := by
  obtain ⟨hlt, hd⟩ := List.getElem?_eq_some_iff.1 haxis
  refine List.ext_getElem? fun i => ?_
  rw [List.getElem?_set, getElem?_entryLens, getElem?_entryLens]
  split
  · rename_i hi
    subst hi
    simp [entryLens, hlt, hd, entryLen]
  · rename_i hi
    cases hdi : dims[i]? with
    | none => rfl
    | some e =>
      have hne : e ≠ -1 := by
        rintro rfl
        exact hi (eq_of_count_le_one h haxis hdi)
      simp [entryLen, hne]

private theorem entryLens_of_notMem (h : -1 ∉ dims) (free : Nat) :
    entryLens lens dims free = entryLens lens dims 1 := by
  refine List.ext_getElem? fun i => ?_
  rw [getElem?_entryLens, getElem?_entryLens]
  refine Option.map_congr fun d hd => ?_
  have hne : d ≠ -1 := fun he => h (he ▸ List.mem_of_getElem? hd)
  simp [entryLen, hne]

/-- The inferred length is a factor of its own. -/
theorem prod_entryLens (h : dims.count (-1) ≤ 1) (haxis : dims[axis]? = some (-1)) (free : Nat) :
    (entryLens lens dims free).prod = free * knownCount lens dims := by
  have hone : (entryLens lens dims 1)[axis]? = some 1 := by simp [getElem?_entryLens, haxis, entryLen]
  rw [← set_entryLens h haxis, Word.prod_set_of_one hone, knownCount]

/-- The known lengths fit where all of them do. -/
theorem prod_max_entryLens_le (lens : List Nat) (h : dims.count (-1) ≤ 1) (free : Nat) :
    ((entryLens lens dims 1).map (max · 1)).prod ≤ ((entryLens lens dims free).map (max · 1)).prod := by
  by_cases hmem : -1 ∈ dims
  · obtain ⟨axis, haxis⟩ := List.getElem?_of_mem hmem
    have hone : ((entryLens lens dims 1).map (max · 1))[axis]? = some 1 := by
      simp [getElem?_entryLens, haxis, entryLen]
    rw [← set_entryLens h haxis free, List.map_set, Word.prod_set_of_one hone]
    exact Nat.le_mul_of_pos_left _ (Nat.le_max_right free 1)
  · rw [entryLens_of_notMem hmem free]

private theorem inferredLen_eq_ok {known : Nat} :
    inferredLen op count known dims = .ok n ↔ known ≠ 0 ∧ known ∣ count ∧ n = count / known := by
  rw [inferredLen]
  split
  · rename_i hzero
    simp [fail, refuse, hzero]
  · rename_i hne
    rw [Word.rem_eq_ok hne, Word.div_eq_ok hne, Nat.dvd_iff_mod_eq_zero]
    change (if count % known ≠ 0 then _ else _) = _ ↔ _
    split
    · rename_i hrem
      simp [fail, refuse, hrem]
    · rename_i hrem
      rw [Except.lift_eq_ok, Except.ok.injEq, eq_comm]
      simp [hne, not_not.1 hrem]

/-- Where an entry is inferred, the known lengths have to leave no remainder. -/
theorem completedLens_eq_ok {known : Nat} {ls : List Nat} (h : dims.count (-1) ≤ 1) :
    completedLens op dims (entryLens lens dims 1) count known = .ok ls ↔
      (-1 ∈ dims → known ≠ 0 ∧ known ∣ count) ∧ ls = entryLens lens dims (count / known) := by
  rw [completedLens]
  cases hidx : dims.idxOf? (-1) with
  | none =>
    have hnot : -1 ∉ dims := List.idxOf?_eq_none_iff.1 hidx
    rw [entryLens_of_notMem hnot (count / known), Except.ok.injEq, eq_comm]
    simp [hnot]
  | some axis =>
    obtain ⟨hlt, hd, -⟩ := List.findIdx?_eq_some_iff_getElem.1 hidx
    have haxis : dims[axis]? = some (-1) := by
      rw [List.getElem?_eq_getElem hlt]
      exact congrArg some (eq_of_beq hd)
    have hlt' : axis < (entryLens lens dims 1).length := by rwa [entryLens, List.length_mapIdx]
    simp only [Except.bind_eq_ok, inferredLen_eq_ok, List.mem_of_getElem? haxis, forall_const]
    constructor
    · rintro ⟨_, ⟨hne, hdvd, rfl⟩, hset⟩
      rw [Fault.setAt, if_pos hlt', set_entryLens h haxis] at hset
      exact ⟨⟨hne, hdvd⟩, (Except.ok.inj hset).symm⟩
    · rintro ⟨⟨hne, hdvd⟩, rfl⟩
      refine ⟨_, ⟨hne, hdvd, rfl⟩, ?_⟩
      rw [Fault.setAt, if_pos hlt', set_entryLens h haxis]
      rfl

/-- The shape that the entries ask for. -/
def target (s : Shape) (dims : List Int) (count : Nat) : Shape :=
  s.withLens (entryLens s.lens dims (count / knownCount s.lens dims))

/-- The known lengths of an addressable shape have a product, also before one of them is zero. -/
theorem foldlM_entryLens (ht : s.isTuple = false) (h : dims.count (-1) ≤ 1)
    (ha : (target s dims count).addressable) :
    (entryLens s.lens dims 1).foldlM Word.mul? 1 = some (knownCount s.lens dims) := by
  have hfits := (Shape.addressable_of_not_tuple (s := target s dims count) ht ha).1
  have hle := prod_max_entryLens_le s.lens h (count / knownCount s.lens dims)
  rw [Word.foldlM_mul?_eq_some, Nat.one_mul, knownCount]
  rw [Nat.one_mul]
  exact Nat.lt_of_le_of_lt hle hfits

/-- Which reshapes have an addressable result. -/
theorem reshapeShape_eq_ok (op : String) (ht : s.isTuple = false) (hc : s.elements = .ok count) :
    reshapeShape op s dims = .ok t ∧ t.addressable ↔
      WellPosed s.lens dims ∧
        (-1 ∈ dims → knownCount s.lens dims ≠ 0 ∧ knownCount s.lens dims ∣ count) ∧
        t = target s dims count ∧ t.addressable ∧ t.elements = .ok count := by
  rw [reshapeShape, hc]
  split
  · rename_i hseveral
    refine iff_of_false (fun h => ?_) fun h => ?_
    · cases h.1
    · exact absurd h.1.single (Nat.not_le.2 hseveral)
  rename_i hsingle
  have hsingle : dims.count (-1) ≤ 1 := Nat.not_lt.1 hsingle
  rw [Except.bind_eq_ok]
  constructor
  · rintro ⟨⟨lens, hlens, h⟩, ha⟩
    obtain ⟨hbounded, hcopied, rfl⟩ := requestedLens_eq_ok.1 hlens
    split at h
    · cases h
    rename_i known hknown
    obtain rfl : known = knownCount s.lens dims :=
      (Word.foldlM_mul_eq_prod (Word.foldlM_mul_of_mul? hknown)).trans (Nat.one_mul _)
    simp only [Except.bind_eq_ok, Except.lift_eq_ok, Except.ok.injEq] at h
    obtain ⟨_, rfl, ls, hls, c, helements, h⟩ := h
    obtain ⟨hinferred, rfl⟩ := (completedLens_eq_ok hsingle).1 hls
    split at h
    · rename_i heq
      cases h
      exact ⟨⟨hsingle, hbounded, hcopied⟩, hinferred, rfl, ha, helements.trans (congrArg _ heq)⟩
    · cases h
  · rintro ⟨hposed, hinferred, rfl, ha, helements⟩
    refine ⟨⟨_, requestedLens_eq_ok.2 ⟨hposed.bounded, hposed.copied, rfl⟩, ?_⟩, ha⟩
    rw [foldlM_entryLens ht hsingle ha]
    simp only [Except.bind_eq_ok, Except.lift_eq_ok, Except.ok.injEq]
    refine ⟨count, rfl, _, (completedLens_eq_ok hsingle).2 ⟨hinferred, rfl⟩, count, helements, ?_⟩
    rw [if_pos rfl]
    rfl

/-- With an inferred entry, what the known lengths divide is the number of elements. -/
theorem elements_target (ht : s.isTuple = false) (h : dims.count (-1) ≤ 1) (hmem : -1 ∈ dims)
    (hdvd : knownCount s.lens dims ∣ count) (ha : (target s dims count).addressable) :
    (target s dims count).elements = .ok count := by
  obtain ⟨axis, haxis⟩ := List.getElem?_of_mem hmem
  have hne : (target s dims count).lens ≠ [] := by
    refine List.ne_nil_of_length_pos ?_
    change 0 < (dims.mapIdx _).length
    rw [List.length_mapIdx]
    exact List.length_pos_of_mem hmem
  rw [Shape.elements_eq_prod (s := target s dims count) ht rfl hne ha]
  exact congrArg _ ((prod_entryLens h haxis _).trans (Nat.div_mul_cancel hdvd))

/-- What the entries ask of each axis. -/
theorem entryLens_cases {free len : Nat} (h : WellPosed lens dims) (hd : dims[axis]? = some d)
    (hlen : (entryLens lens dims free)[axis]? = some len) :
    (0 < d → len = d.toNat) ∧ (d = 0 → lens[axis]? = some len) ∧ (d = -1 → len = free) := by
  rw [getElem?_entryLens, hd] at hlen
  obtain rfl := Option.some.inj hlen
  refine ⟨fun hpos => ?_, fun hzero => ?_, fun hneg => ?_⟩
  · rw [entryLen, if_neg (by omega), if_neg (by omega)]
  · subst hzero
    have hlt := h.copied axis hd
    rw [entryLen, if_pos rfl, List.getD_eq_getElem?_getD, List.getElem?_eq_getElem hlt]
    rfl
  · rw [entryLen, if_neg (by omega), if_pos hneg]

end Inference

open Inference TensorGraph.Except
variable {s t : Shape} {dims : List Int} {mods : List (List Shape)} {count : Nat}

private theorem inferShape_reshape_eq_ok (ht : s.isTuple = false) (hd : s.isDynamic = false)
    (hc : s.elements = .ok count) :
    (reshape dims).inferShape [s] mods = .ok t ↔
      WellPosed s.lens dims ∧
        (-1 ∈ dims → knownCount s.lens dims ≠ 0 ∧ knownCount s.lens dims ∣ count) ∧
        t = target s dims count ∧ t.addressable ∧ t.elements = .ok count := by
  rw [inferShape_eq_ok, ← reshapeShape_eq_ok (reshape dims).name ht hc]
  refine and_congr_left fun _ => static_eq_ok.trans ?_
  constructor
  · rintro ⟨x, he, -, -, h⟩
    cases he
    exact h
  · exact fun h => ⟨s, rfl, ht, hd, h⟩

private theorem safe_inferShape_reshape (dims : List Int) (mods : List (List Shape))
    (ha : s.addressable) : Safe ((reshape dims).inferShape [s] mods) fun _ => True := by
  rw [inferShape, safe_bind]
  refine safe_seq (safe_has 1) fun _ => safe_seq safe_onlyStatic fun _ => ?_
  refine (safe_reshapeShape dims ha).mono fun t _ => ?_
  exact safe_if (fun _ => trivial) fun _ => safe_fail _ _

/-- A reshape of an addressable shape succeeds exactly where the entries have a meaning, the shape that
they ask for is addressable, and the number of elements is kept: as it is, or by an inferred length that
the known ones divide out. The result is then laid out row by row with each length as its entry says,
and a reshape that does not succeed is refused, with no overflow or division by zero. -/
theorem reshape_exact (dims : List Int) (mods : List (List Shape)) (ht : s.isTuple = false)
    (hd : s.isDynamic = false) (ha : s.addressable) :
    ∃ count, s.elements = .ok count ∧
      ((∃ t, (reshape dims).inferShape [s] mods = .ok t) ↔
        WellPosed s.lens dims ∧ (target s dims count).addressable ∧
          (-1 ∉ dims ∧ (target s dims count).elements = .ok count ∨
            -1 ∈ dims ∧ knownCount s.lens dims ≠ 0 ∧ knownCount s.lens dims ∣ count)) ∧
      (∀ t, (reshape dims).inferShape [s] mods = .ok t →
        t = Shape.packedOf s.elementType t.lens ∧ t.elements = .ok count ∧
          t.lens.length = dims.length ∧
          ∀ (axis : Nat) (d : Int) (len : Nat), dims[axis]? = some d → t.lens[axis]? = some len →
            (0 < d → len = d.toNat) ∧ (d = 0 → s.lens[axis]? = some len) ∧
              (d = -1 → len = count / knownCount s.lens dims)) ∧
      ∀ fault, (reshape dims).inferShape [s] mods ≠ .error (.broken fault) := by
  obtain ⟨count, hc⟩ := Shape.elements_eq_ok ha
  refine ⟨count, hc, ?_, fun t h => ?_, fun fault h => ?_⟩
  · simp only [inferShape_reshape_eq_ok ht hd hc]
    constructor
    · rintro ⟨t, hposed, hinferred, rfl, haddr, helements⟩
      refine ⟨hposed, haddr, ?_⟩
      by_cases hmem : -1 ∈ dims
      · exact .inr ⟨hmem, hinferred hmem⟩
      · exact .inl ⟨hmem, helements⟩
    · rintro ⟨hposed, haddr, ⟨hmem, helements⟩ | ⟨hmem, hne, hdvd⟩⟩
      · exact ⟨_, hposed, fun h => absurd h hmem, rfl, haddr, helements⟩
      · exact ⟨_, hposed, fun _ => ⟨hne, hdvd⟩, rfl, haddr,
          elements_target ht hposed.single hmem hdvd haddr⟩
  · obtain ⟨hposed, -, rfl, -, helements⟩ := (inferShape_reshape_eq_ok ht hd hc).1 h
    refine ⟨rfl, helements, List.length_mapIdx, fun axis d len hdim hlen => ?_⟩
    exact entryLens_cases hposed hdim hlen
  · obtain ⟨error, he⟩ := (safe_inferShape_reshape dims mods ha).refused h
    cases he

/-- A matrix stored by columns. -/
private def byColumns : Shape :=
  { elementType := .float, lens := [4, 6], strides := [1, 4] }

theorem reshape_exact_inferred :
    byColumns.isTuple = false ∧ byColumns.isDynamic = false ∧ byColumns.addressable = true ∧
      ∃ t, (reshape [0, -1, 3]).inferShape [byColumns] [] = .ok t ∧ t.elements = .ok 24 ∧
        ∀ len, t.lens[1]? = some len → len = 2 := by
  have ha : byColumns.addressable = true := by decide
  obtain ⟨count, hc, haccepted, hresult, -⟩ :=
    reshape_exact (s := byColumns) [0, -1, 3] [] rfl rfl ha
  obtain rfl : 24 = count := Except.ok.inj hc
  have hposed : WellPosed byColumns.lens [0, -1, 3] := by
    refine ⟨by decide, by decide, fun axis haxis => ?_⟩
    rcases axis with _ | _ | _ | axis
    · decide
    all_goals cases haxis
  obtain ⟨t, h⟩ := haccepted.2 ⟨hposed, by decide, .inr (by decide)⟩
  obtain ⟨-, helements, -, haxes⟩ := hresult t h
  exact ⟨rfl, rfl, ha, t, h, helements, fun len hlen => (haxes 1 (-1) len rfl hlen).2.2 rfl⟩

end TensorGraph.Operator
