import TensorGraph.Json.Writer
import TensorGraph.Proofs.Codec
import TensorGraph.Proofs.Json
import TensorGraph.Proofs.RowMajor

/-! Literals that were read are written and read again. Reading converts the values to the element type,
and a value that becomes infinite is written as none, so that the literal is lost; so is one whose values
are laid out row by row in more memory than can be addressed. All others come back as they are. -/
namespace TensorGraph

namespace Decode
open Json

private theorem word_lt {v : Json} {n : Nat} (h : word v = .ok n) : n < Word.limit := by
  rw [word.eq_def] at h
  split at h
  · split at h
    · cases h
      omega
    · cases h
  · cases h

private theorem once_eq_ok {α : Type} {before : Option α} {item : Json → Decode α} {v : Json}
    {o : Option α} (h : once before item v = .ok o) : ∃ a, o = some a ∧ item v = .ok a := by
  cases before with
  | some a => cases h
  | none =>
    change Except.map some (item v) = .ok o at h
    cases hv : item v with
    | error e =>
      rw [hv] at h
      cases h
    | ok a =>
      rw [hv] at h
      cases h
      exact ⟨a, rfl, rfl⟩

/-- A field that is taken up is read. -/
theorem field_eq_ok {α δ : Type} {before : Option α} {item : Json → Decode α} {v : Json} {f : Option α → δ}
    {d : δ} (h : (do return f (← once before item v)) = .ok d) : ∃ a, item v = .ok a ∧ d = f (some a) := by
  obtain ⟨o, ho, h⟩ := Except.bind_eq_ok.1 h
  obtain ⟨a, rfl, ha⟩ := once_eq_ok ho
  cases h
  exact ⟨a, ha, rfl⟩

/-- Each value of a list is read from a part of the document. -/
theorem list_eq_ok {α : Type} {item : Json → Decode α} {v : Json} {xs : List α}
    (h : list item v = .ok xs) : ∀ x ∈ xs, ∃ u, Part u v ∧ item u = .ok x := by
  cases v with
  | list items =>
    intro x hx
    obtain ⟨u, hu, hitem⟩ := Except.exists_of_mem_mapM h hx
    exact ⟨u, .item hu .self, hitem⟩
  | null | bool _ | integer _ | real _ | text _ | record _ | defect _ => cases h

private theorem words_of_list {v : Json} {ns : List Nat} (h : list word v = .ok ns) : Words ns := by
  intro n hn
  obtain ⟨u, -, hu⟩ := list_eq_ok h n hn
  exact word_lt hu

/-- What every field keeps holds of the record. -/
theorem fields_keeps {δ : Type} {P : δ → Prop} {names : List String}
    {take : δ → String × Json → Decode δ} {start d : δ} {v : Json}
    (h : fields names take start v = .ok d) (hstart : P start)
    (hstep : ∀ d name u d', Part u v → P d → take d (name, u) = .ok d' → P d') : P d := by
  cases v with
  | record fs =>
    exact Except.foldlM_keeps h hstart fun d f d' hf => hstep d f.1 f.2 d' (.field hf .self)
  | list items =>
    rw [fields, Except.bind_eq_ok] at h
    obtain ⟨d', hd, h⟩ := h
    split at h
    · cases h
      refine Except.foldlM_keeps hd hstart fun d f d' hf => hstep d f.1 f.2 d' ?_
      exact .item (List.of_mem_zip hf).2 .self
    · cases h
  | null | bool _ | integer _ | real _ | text _ | defect _ => cases h

private theorem required_eq_ok {α : Type} {o : Option α} {a : α} (h : required o = .ok a) :
    o = some a := by
  cases o with
  | none => cases h
  | some b =>
    cases h
    rfl

private theorem checked_eq_ok {α : Type} {x : Except Failure α} {a : α} (h : checked x = .ok a) :
    x = .ok a := by
  rw [checked.eq_def] at h
  split at h
  · cases h
    rfl
  all_goals cases h

end Decode

namespace DynamicDimension

/-- The numbers read so far fit a word. -/
structure Draft.Writable (d : Draft) : Prop where
  min : ∀ n ∈ d.min, n < Word.limit
  max : ∀ n ∈ d.max, n < Word.limit
  optimals : ∀ ns ∈ d.optimals, Decode.Words ns

theorem Draft.Writable.take {d d' : Draft} {name : String} {u : Json} (h : d.Writable)
    (ht : d.take (name, u) = .ok d') : d'.Writable := by
  rw [Draft.take.eq_def] at ht
  split at ht
  · obtain ⟨n, hn, rfl⟩ := Decode.field_eq_ok ht
    exact ⟨by simpa using Decode.word_lt hn, h.max, h.optimals⟩
  · obtain ⟨n, hn, rfl⟩ := Decode.field_eq_ok ht
    exact ⟨h.min, by simpa using Decode.word_lt hn, h.optimals⟩
  · obtain ⟨ns, hns, rfl⟩ := Decode.field_eq_ok ht
    exact ⟨h.min, h.max, by simpa using Decode.words_of_list hns⟩
  · obtain ⟨-, -, ht⟩ := Except.bind_eq_ok.1 ht
    cases ht
    exact h

private theorem writable_of_decode {v : Json} {d : DynamicDimension} (h : decode v = .ok d) :
    d.Writable := by
  simp only [decode, Except.bind_eq_ok, Except.pure_eq_ok] at h
  obtain ⟨draft, hdraft, lower, hlower, upper, hupper, rfl⟩ := h
  have hwords : draft.Writable :=
    Decode.fields_keeps hdraft ⟨by simp, by simp, by simp⟩ fun _ _ _ _ _ hd ht => hd.take ht
  refine ⟨hwords.min _ (Decode.required_eq_ok hlower), hwords.max _ (Decode.required_eq_ok hupper), ?_⟩
  cases ho : draft.optimals with
  | none => simp [Decode.Words]
  | some ns => exact hwords.optimals ns ho

end DynamicDimension

namespace Shape

/-- The parts read so far can be written. -/
structure Draft.Writable (d : Draft) : Prop where
  lens : ∀ ns ∈ d.lens, Decode.Words ns
  strides : ∀ ns ∈ d.strides, Decode.Words ns
  dims : ∀ ds ∈ d.dynamicDims, ∀ x ∈ ds, DynamicDimension.Writable x
  subs : ∀ ss ∈ d.subShapes, ∀ t ∈ ss, Shape.Writable t

private theorem writable_empty : Draft.Writable {} :=
  ⟨by simp, by simp, by simp, by simp⟩

theorem Draft.Writable.complete {d : Draft} {s : Shape} (h : d.Writable) (hc : d.complete = .ok s) :
    s.Writable := by
  obtain ⟨t, -, hc⟩ := Except.bind_eq_ok.1 hc
  obtain ⟨rfl, hpasses⟩ := of_check_eq_ok (Decode.checked_eq_ok hc)
  refine .mk hpasses.check_eq_ok ?_ ?_ ?_ ?_
  · cases ho : d.lens with
    | none => simp [Decode.Words]
    | some ns => exact h.lens ns ho
  · cases ho : d.strides with
    | none => simp [Decode.Words]
    | some ns => exact h.strides ns ho
  · cases ho : d.dynamicDims with
    | none => simp
    | some ds => exact h.dims ds ho
  · cases ho : d.subShapes with
    | none => simp
    | some ss => exact h.subs ss ho

/-- A field with this value keeps a draft writable. -/
def Kept (r : Reading) (v : Json) : Prop :=
  ∀ name (d d' : Draft), d.Writable → takeField r d name v = .ok d' → d'.Writable

section
variable {r : Reading} {v : Json} {items : List Json} {d d' : Draft}

private theorem writable_decodeList {ss : List Shape}
    (ih : ∀ u ∈ items, ∀ s, decode r u = .ok s → s.Writable)
    (h : decodeList r items = .ok ss) : ∀ s ∈ ss, s.Writable := by
  induction items generalizing ss with
  | nil =>
    rw [decodeList] at h
    cases h
    simp
  | cons v rest hrest =>
    obtain ⟨hv, ih⟩ := List.forall_mem_cons.1 ih
    rw [decodeList] at h
    obtain ⟨s, hs, h⟩ := Except.bind_eq_ok.1 h
    obtain ⟨ss, hss, h⟩ := Except.bind_eq_ok.1 h
    cases h
    exact List.forall_mem_cons.2 ⟨hv s hs, hrest ih hss⟩

private theorem kept_of_items
    (ih : ∀ items, v = .list items → ∀ u ∈ items, ∀ s, decode r u = .ok s → s.Writable) : Kept r v := by
  intro name d d' h ht
  unfold takeField at ht
  split at ht
  · obtain ⟨-, -, rfl⟩ := Decode.field_eq_ok ht
    exact ⟨h.lens, h.strides, h.dims, h.subs⟩
  · obtain ⟨ns, hns, rfl⟩ := Decode.field_eq_ok ht
    exact ⟨by simpa using Decode.words_of_list hns, h.strides, h.dims, h.subs⟩
  · obtain ⟨ns, hns, rfl⟩ := Decode.field_eq_ok ht
    exact ⟨h.lens, by simpa using Decode.words_of_list hns, h.dims, h.subs⟩
  · obtain ⟨ds, hds, rfl⟩ := Decode.field_eq_ok ht
    refine ⟨h.lens, h.strides, ?_, h.subs⟩
    rintro _ ⟨⟩ x hx
    obtain ⟨u, -, hu⟩ := Decode.list_eq_ok hds x hx
    exact DynamicDimension.writable_of_decode hu
  · split at ht
    · cases ht
    · obtain ⟨ss, hss, ht⟩ := Except.bind_eq_ok.1 ht
      cases ht
      refine ⟨h.lens, h.strides, h.dims, ?_⟩
      rintro _ ⟨⟩
      exact writable_decodeList (ih _ rfl) hss
  · cases ht
  · obtain ⟨-, -, ht⟩ := Except.bind_eq_ok.1 ht
    cases ht
    exact h

private theorem writable_takeFields {fields : List (String × Json)} (hf : ∀ f ∈ fields, Kept r f.2)
    (h : d.Writable) (ht : takeFields r d fields = .ok d') : d'.Writable := by
  induction fields generalizing d with
  | nil =>
    rw [takeFields] at ht
    cases ht
    exact h
  | cons f rest ih =>
    obtain ⟨hv, hf⟩ := List.forall_mem_cons.1 hf
    rw [takeFields] at ht
    obtain ⟨e, he, ht⟩ := Except.bind_eq_ok.1 ht
    exact ih hf (hv _ d e h he) ht

private theorem writable_takeItems {names : List String} (hi : ∀ u ∈ items, Kept r u) (h : d.Writable)
    (ht : takeItems r d names items = .ok d') : d'.Writable := by
  induction items generalizing names d with
  | nil =>
    rw [takeItems] at ht
    cases ht
    exact h
  | cons v rest ih =>
    obtain ⟨hv, hi⟩ := List.forall_mem_cons.1 hi
    cases names with
    | nil =>
      rw [takeItems] at ht
      cases ht
    | cons name names =>
      rw [takeItems] at ht
      obtain ⟨e, he, ht⟩ := Except.bind_eq_ok.1 ht
      exact ih hi (hv _ d e h he) ht

/-- A shape that was read can be written. -/
theorem writable_of_decode {s : Shape} (h : decode r v = .ok s) : s.Writable := by
  have hboth : (∀ s, decode r v = .ok s → s.Writable) ∧ Kept r v := by
    clear h
    induction v using Json.induction_on_entries with
    | h v hitems hfields =>
      refine ⟨fun s h => ?_, kept_of_items fun items hv u hu => (hitems items hv u hu).1⟩
      cases v with
      | record fields =>
        rw [decode] at h
        obtain ⟨d, hd, h⟩ := Except.bind_eq_ok.1 h
        exact (writable_takeFields (fun f hf => (hfields fields rfl f hf).2) writable_empty hd).complete h
      | list items =>
        rw [decode] at h
        obtain ⟨d, hd, h⟩ := Except.bind_eq_ok.1 h
        exact (writable_takeItems (fun u hu => (hitems items rfl u hu).2) writable_empty hd).complete h
      | null | bool _ | integer _ | real _ | text _ | defect _ => simp [decode, Decode.malformed] at h
  exact hboth.1 s h

end

variable {s : Shape}

theorem Writable.passes (h : s.Writable) : s.Passes := by
  cases h with
  | mk passed => exact (of_check_eq_ok passed).2

private theorem words_standardStrides (lens : List Nat) : Decode.Words (standardStrides lens) := by
  fun_induction standardStrides lens with
  | case1 => simp [Decode.Words]
  | case2 => exact List.forall_mem_singleton.2 (by decide)
  | case3 => simp [Decode.Words]
  | case4 _ len rest stride strides hs ih =>
    refine List.forall_mem_cons.2 ⟨?_, hs ▸ ih⟩
    exact Nat.lt_of_le_of_lt (Nat.min_le_right _ _) (by decide)

/-- Row by row, a shape that was read is checked again for its size. -/
theorem Writable.decode_asStandard (h : s.Writable) (r : Reading) :
    decode r s.asStandard.toJson = Decode.checked s.asStandard.check := by
  rw [asStandard]
  cases h with
  | mk passed lens strides dims subs =>
    split
    · exact decode_toJson_eq r lens strides dims fun t ht => decode_toJson r (subs t ht)
    · exact decode_toJson_eq r lens (words_standardStrides s.lens) (by simp [packedOf]) (by simp [packedOf])

theorem Writable.asStandard (h : s.Writable) (ha : s.asStandard.addressable = true) :
    s.asStandard.Writable := by
  rw [Shape.asStandard] at ha ⊢
  split
  · exact h
  · rename_i hs
    rw [if_neg hs] at ha
    simp only [Bool.or_eq_true, not_or, Bool.not_eq_true] at hs
    cases h with
    | mk _ lens =>
    refine .mk (Passes.check_eq_ok ?_) lens (words_standardStrides s.lens) (by simp [packedOf])
      (by simp [packedOf])
    refine ⟨(length_standardStrides s.lens).symm, fun hk => ?_, fun _ => rfl, fun _ => rfl,
      by simp [packedOf], ha⟩
    have htuple : (packedOf s.elementType s.lens).isTuple = false := hs.2
    rcases hk with hk | hk
    · rw [htuple] at hk
      cases hk
    · cases hk

end Shape

namespace Literal
variable {r : Reading} {v : Json} {s : Shape} {l : Literal}

/-- What was read so far: a shape that can be written, and numbers of the document. -/
structure Draft.TakenFrom (v : Json) (d : Draft) : Prop where
  shape : ∀ s ∈ d.shape, s.Writable
  data : ∀ xs ∈ d.data, ∀ x ∈ xs, ∃ n, Json.Part n v ∧ Decode.float n = .ok x

theorem Draft.TakenFrom.take {d d' : Draft} {name : String} {u : Json} (h : d.TakenFrom v)
    (hu : Json.Part u v) (ht : d.take r (name, u) = .ok d') : d'.TakenFrom v := by
  rw [Draft.take.eq_def] at ht
  split at ht
  · obtain ⟨s, hs, rfl⟩ := Decode.field_eq_ok ht
    exact ⟨by simpa using Shape.writable_of_decode hs, h.data⟩
  · obtain ⟨xs, hxs, rfl⟩ := Decode.field_eq_ok ht
    refine ⟨h.shape, ?_⟩
    rintro _ ⟨⟩ x hx
    obtain ⟨n, hn, hfloat⟩ := Decode.list_eq_ok hxs x hx
    rename_i heq
    cases heq
    exact ⟨n, hn.trans hu, hfloat⟩
  · obtain ⟨-, -, ht⟩ := Except.bind_eq_ok.1 ht
    cases ht
    exact h

/-- A literal that was read has a shape that was read and the numbers of the document. -/
theorem of_decode (h : decode r v = .ok l) :
    ∃ (s : Shape) (xs : List Float), s.Writable ∧
      (∀ x ∈ xs, ∃ n, Json.Part n v ∧ Decode.float n = .ok x) ∧ ofData s xs.toArray = .ok l := by
  obtain ⟨d, hd, h⟩ := Except.bind_eq_ok.1 h
  obtain ⟨s, hs, h⟩ := Except.bind_eq_ok.1 h
  obtain ⟨xs, hxs, h⟩ := Except.bind_eq_ok.1 h
  have htaken : d.TakenFrom v :=
    Decode.fields_keeps hd ⟨by simp, by simp⟩ fun _ _ _ _ hu hd ht => hd.take hu ht
  exact ⟨s, xs, htaken.shape s (Decode.required_eq_ok hs), htaken.data xs (Decode.required_eq_ok hxs),
    Decode.checked_eq_ok h⟩

/-- Reading what was written reads the shape and a number for each value. -/
theorem parts_of_decode_toJson {l' : Literal} (h : decode r l.toJson = .ok l') :
    (∃ s, Shape.decode r l.shape.toJson = .ok s) ∧ ∀ y ∈ l.data, y.isFinite = true := by
  obtain ⟨d, hd, -⟩ := Except.bind_eq_ok.1 h
  rw [toJson, Decode.fields, List.foldlM_cons] at hd
  obtain ⟨_, hshape, hd⟩ := Except.bind_eq_ok.1 hd
  rw [List.foldlM_cons] at hd
  obtain ⟨_, hdata, -⟩ := Except.bind_eq_ok.1 hd
  obtain ⟨s, hs, -⟩ := Decode.field_eq_ok hshape
  obtain ⟨xs, hxs, -⟩ := Decode.field_eq_ok hdata
  refine ⟨⟨s, hs⟩, fun y hy => ?_⟩
  obtain ⟨x, hx⟩ := Except.of_mapM_eq_ok hxs (List.mem_map_of_mem (Array.mem_def.1 hy))
  by_contra hinf
  rw [Json.ofFloat, if_neg hinf] at hx
  cases hx

/-- What was written is read again if every value is a number and the shape is not too large, and then
as it was. -/
theorem decode_toJson_iff (hs : s.Writable) (hshape : l.shape = s.asStandard) (hl : l.Made) {l' : Literal} :
    decode r l.toJson = .ok l' ↔
      l' = l ∧ (∀ y ∈ l.data, y.isFinite = true) ∧ l.shape.addressable = true := by
  have hback : (∀ y ∈ l.data, y.isFinite = true) → l.shape.addressable = true →
      decode r l.toJson = .ok l := by
    intro hfinite ha
    refine decode_toJson r ⟨?_, hl.asStandard, hl.elements, fun x hx => ?_, hfinite⟩
    · rw [hshape] at ha ⊢
      exact hs.asStandard ha
    · exact Array.map_inj_left.1 (hl.map_cast.trans (Array.map_id l.data).symm) x hx
  constructor
  · intro h
    obtain ⟨⟨s', hs'⟩, hfinite⟩ := parts_of_decode_toJson h
    have ha : l.shape.addressable = true := by
      rw [hshape, hs.decode_asStandard] at hs'
      obtain ⟨rfl, hpasses⟩ := Shape.of_check_eq_ok (Decode.checked_eq_ok hs')
      rw [hshape]
      exact hpasses.addressable
    exact ⟨Except.ok.inj (h.symm.trans (hback hfinite ha)), hfinite, ha⟩
  · rintro ⟨rfl, hfinite, ha⟩
    exact hback hfinite ha

/-- A literal with values has an addressable shape where the values fit in memory. -/
theorem addressable_iff (hs : s.Writable) (hshape : l.shape = s.asStandard)
    (hcount : s.elements = .ok l.data.size) (hne : l.data.size ≠ 0) :
    l.shape.addressable = true ↔ l.data.size * l.shape.elementType.size < Word.limit := by
  obtain ⟨⟨htuple, hstatic⟩, hlens, hpos⟩ := Shape.of_elements_ne_zero hcount hne
  have hprod := Shape.elements_eq_prod htuple hstatic hlens hs.passes.addressable
  have ht : s.elementType ≠ .tuple := by simpa [Shape.isTuple] using htuple
  rw [hshape, Shape.elementType_asStandard, Shape.asStandard_of_static hstatic htuple,
    Shape.addressable_packedOf_iff ht, Word.prod_max_eq hpos, Except.ok.inj (hprod.symm.trans hcount)]

/-- A literal that is read from a text holds conversions of the finite numbers of the text, which are
finite but where the element type overflows. Written and read again it comes back as it was, or is lost:
it comes back where every value is finite and the row-major shape is addressable. -/
theorem reread_exact {text : String} (hv : Json.Part v (Json.read text).value)
    (h : decode r v = .ok l) :
    (∀ y ∈ l.data, ∃ n x, Json.Part n v ∧ Decode.float n = .ok x ∧ x.isFinite = true ∧
      y = l.shape.elementType.cast x ∧
      (y.isFinite = true ↔ l.shape.elementType.overflows x = false)) ∧
    (l.data.size ≠ 0 →
      (l.shape.addressable = true ↔ l.data.size * l.shape.elementType.size < Word.limit)) ∧
    ∀ r' l', decode r' l.toJson = .ok l' ↔
      l' = l ∧ (∀ y ∈ l.data, y.isFinite = true) ∧ l.shape.addressable = true := by
  obtain ⟨s, xs, hs, hxs, hdata⟩ := of_decode h
  obtain ⟨hshape, hcount⟩ := of_ofData_eq_ok hdata
  refine ⟨fun y hy => ?_, addressable_iff hs hshape hcount,
    fun r' l' => decode_toJson_iff hs hshape ⟨s, _, hdata⟩⟩
  obtain ⟨x, hx, rfl⟩ := exists_of_ofData hdata hy
  obtain ⟨n, hn, hfloat⟩ := hxs x (List.mem_toArray.1 hx)
  have hfinite : x.isFinite = true := Json.allFinite_read text n x (hn.trans hv) hfloat
  rw [hshape, Shape.elementType_asStandard]
  exact ⟨n, x, hn, hfloat, hfinite, rfl, s.elementType.isFinite_cast_iff hfinite⟩

/-- Bytes, of which two are out of range and one is a fraction. -/
private def bytesText : String :=
  "[[\"int8\",[2,2],[1,2]],[1e39,-300.7,7,0.5]]"

private def bytesRead : Literal :=
  ⟨.packedOf .int8 [2, 2], #[127, -128, 7, 0], by decide⟩

theorem reread_exact_bytes :
    decode .direct (Json.read bytesText).value = .ok bytesRead ∧
      ∀ r, decode r bytesRead.toJson = .ok bytesRead := by
  have h : decode .direct (Json.read bytesText).value = .ok bytesRead := by decide +kernel
  have hread := (reread_exact .self h).2.2
  exact ⟨h, fun r => (hread r bytesRead).2 ⟨rfl, by decide +kernel, by decide⟩⟩

/-- A number that overflows the type is written as none, and an empty literal is laid out in more memory
than there is. -/
theorem lost_in_rereading :
    (∃ l, Decode.document (decode .direct) "[[\"float\",[1],[1]],[1e39]]" = .ok l ∧
      (∃ y ∈ l.data, y.isFinite = false) ∧ ∀ r, decode r l.toJson = .error .malformed) ∧
    ∃ l, Decode.document (decode .direct) "[[\"float\",[0,9223372036854775808],[0,0]],[]]" = .ok l ∧
      ∀ r, decode r l.toJson = .error (.flawed (.shapeTooLarge l.shape)) := by
  refine ⟨⟨⟨.packedOf .float [1], #[1 / 0], by decide⟩, by decide +kernel,
      ⟨1 / 0, by simp, by decide +kernel⟩, ?_⟩,
    ⟨.packedOf .float [0, 9223372036854775808], #[], by decide⟩, by decide +kernel, ?_⟩
  · rintro (_ | _) <;> decide +kernel
  · rintro (_ | _) <;> decide +kernel

/-- A literal whose record comes back may still change in a text: this one is written with its sixteen
digits and a fraction of zero, and these are read as the integer before. -/
theorem changed_in_text :
    ∃ l l', Decode.document (decode .direct) "[[\"uint64\",[1],[1]],[3776971907798682]]" = .ok l ∧
      (∀ r, decode r l.toJson = .ok l) ∧
      Decode.document (decode .direct) l.toJson.compact = .ok l' ∧ l' ≠ l := by
  refine ⟨⟨.packedOf .uint64 [1], #[3776971907798682], by decide⟩,
    ⟨.packedOf .uint64 [1], #[3776971907798681], by decide⟩, by decide +kernel, ?_, by decide +kernel,
    by decide +kernel⟩
  rintro (_ | _) <;> decide +kernel

end Literal

end TensorGraph
