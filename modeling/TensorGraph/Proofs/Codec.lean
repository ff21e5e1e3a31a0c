import TensorGraph.Program.Codec
import TensorGraph.Proofs.Literal

/-! What is written is read back. Documents are written from records whose numbers fit a word, whose
shapes pass the check of reading and whose literals are as reading leaves them; fields that are left
out come back as what they stand for. -/
namespace TensorGraph

namespace Decode

/-- Natural numbers that fit a word. -/
def Words (ns : List Nat) : Prop :=
  ∀ n ∈ ns, n < Word.limit

/-- Integers that fit a signed word. -/
def SignedWords (is : List Int) : Prop :=
  ∀ i ∈ is, -(Word.signedLimit : Int) ≤ i ∧ i < Word.signedLimit

instance (ns : List Nat) : Decidable (Words ns) :=
  inferInstanceAs (Decidable (∀ n ∈ ns, n < Word.limit))

instance (is : List Int) : Decidable (SignedWords is) :=
  inferInstanceAs (Decidable (∀ i ∈ is, -(Word.signedLimit : Int) ≤ i ∧ i < Word.signedLimit))

variable {β : Type}

private theorem word_ofNat {n : Nat} (h : n < Word.limit) : word (.ofNat n) = .ok n := by
  have hi : (0 : Int) ≤ n ∧ (n : Int) < Word.limit := ⟨Int.natCast_nonneg n, Int.ofNat_lt.2 h⟩
  rw [Json.ofNat, word, if_pos hi, Int.toNat_natCast]

private theorem signedWord_integer {i : Int}
    (h : -(Word.signedLimit : Int) ≤ i ∧ i < Word.signedLimit) :
    signedWord (.integer i) = .ok i := by
  rw [signedWord, if_pos h]

private theorem float_ofFloat {x : Float} (h : x.isFinite) : float (.ofFloat x) = .ok x := by
  rw [Json.ofFloat, if_pos h, float]

private theorem list_ofList {α : Type} {f : α → Json} {item : Json → Decode α} {l : List α}
    (h : ∀ x ∈ l, item (f x) = .ok x) : list item (.ofList f l) = .ok l := by
  rw [Json.ofList, list, Except.mapM_eq_ok, List.forall₂_map_left_iff]
  exact List.forall₂_same.2 h

private theorem texts_ofList (texts : List String) : list text (.ofList .text texts) = .ok texts :=
  list_ofList fun _ _ => rfl

private theorem name_text {α : Type} {ofName? : String → Option α} {s : String} {a : α}
    (h : ofName? s = some a) (r : Reading) : name r ofName? (.text s) = .ok a := by
  simp only [name, h]

/-- A field that is met for the first time is read, and reading goes on. -/
theorem once_bind {α : Type} {item : Json → Decode α} {v : Json} {a : α} (h : item v = .ok a)
    (f : Option α → Decode β) : once none item v >>= f = f (some a) := by
  rw [once, h]
  rfl

private theorem once_text (s : String) (f : Option String → Decode β) :
    once none text (.text s) >>= f = f (some s) := by
  rw [once, text]
  rfl

private theorem once_texts (texts : List String) (f : Option (List String) → Decode β) :
    once none (list text) (.ofList .text texts) >>= f = f (some texts) :=
  once_bind (texts_ofList texts) f

private theorem once_word {n : Nat} (h : n < Word.limit) (f : Option Nat → Decode β) :
    once none word (.ofNat n) >>= f = f (some n) :=
  once_bind (word_ofNat h) f

private theorem once_words {ns : List Nat} (h : Words ns) (f : Option (List Nat) → Decode β) :
    once none (list word) (.ofList .ofNat ns) >>= f = f (some ns) :=
  once_bind (list_ofList fun n hn => word_ofNat (h n hn)) f

private theorem once_signedWords {is : List Int} (h : SignedWords is)
    (f : Option (List Int) → Decode β) :
    once none (list signedWord) (.ofList .integer is) >>= f = f (some is) :=
  once_bind (list_ofList fun i hi => signedWord_integer (h i hi)) f

private theorem once_float {x : Float} (h : x.isFinite) (f : Option Float → Decode β) :
    once none float (.ofFloat x) >>= f = f (some x) :=
  once_bind (float_ofFloat h) f

/-- A list that is left out where it is empty comes back as an empty one. -/
theorem getD_unless_isEmpty {α : Type} (l : List α) :
    (if l.isEmpty then none else some l).getD [] = l := by
  cases l <;> rfl

end Decode

theorem ElementType.decode_toJson (r : Reading) (t : ElementType) : decode r t.toJson = .ok t := by
  refine Decode.name_text ?_ r
  cases t <;> decide

private theorem ElementType.once_toJson {β : Type} (r : Reading) (t : ElementType)
    (f : Option ElementType → Decode β) : Decode.once none (decode r) t.toJson >>= f = f (some t) :=
  Decode.once_bind (decode_toJson r t) f

theorem PadMode.decode_toJson (r : Reading) (m : PadMode) : decode r m.toJson = .ok m := by
  refine Decode.name_text ?_ r
  cases m <;> decide

/-- The numbers of a dynamic axis fit a word. -/
structure DynamicDimension.Writable (d : DynamicDimension) : Prop where
  min : d.min < Word.limit
  max : d.max < Word.limit
  optimals : Decode.Words d.optimals

theorem DynamicDimension.decode_toJson {d : DynamicDimension} (h : d.Writable) :
    decode d.toJson = .ok d := by
  simp only [decode, toJson, Decode.fields, List.foldlM_cons, List.foldlM_nil, Draft.take,
    Decode.once_word h.min, Decode.once_word h.max, Decode.once_words h.optimals, pure_bind,
    Decode.required, Except.bind_of_ok rfl]
  rfl

namespace Shape
variable {s : Shape}

/-- The shape passes the check of reading, its numbers fit a word, and so it is with its sub-shapes. -/
inductive Writable : Shape → Prop
  | mk {s : Shape} (passed : s.check = .ok s) (lens : Decode.Words s.lens)
      (strides : Decode.Words s.strides) (dims : ∀ d ∈ s.dynamicDims, d.Writable)
      (subs : ∀ t ∈ s.subShapes, Writable t) : Writable s

private theorem takeFields_append (r : Reading) (d : Draft) (fs gs : List (String × Json)) :
    takeFields r d (fs ++ gs) = takeFields r d fs >>= fun d => takeFields r d gs := by
  induction fs generalizing d with
  | nil => rw [List.nil_append, takeFields, Except.bind_of_ok rfl]
  | cons f fs ih =>
    obtain ⟨name, v⟩ := f
    rw [List.cons_append, takeFields, takeFields, bind_assoc]
    simp only [ih]

private theorem toJson_eq (t : ElementType) (lens strides : List Nat) (dims : List DynamicDimension)
    (subs : List Shape) :
    toJson ⟨t, lens, strides, dims, subs⟩ = .record (
      [("ty", t.toJson), ("lens", .ofList .ofNat lens), ("strides", .ofList .ofNat strides)] ++
      (if dims.isEmpty then [] else [("dyn_dims", .ofList DynamicDimension.toJson dims)]) ++
      (if subs.isEmpty then [] else [("sub_shapes", .list (toJsonList subs))])) := by
  cases subs with
  | nil => rw [toJson]; rfl
  | cons s rest => rw [toJson, toJsonList]; rfl

private theorem takeFields_dims (r : Reading) {d : Draft} (hd : d.dynamicDims = none)
    {dims : List DynamicDimension} (h : ∀ x ∈ dims, x.Writable) :
    takeFields r d (if dims.isEmpty then [] else
        [("dyn_dims", .ofList DynamicDimension.toJson dims)]) =
      .ok { d with dynamicDims := if dims.isEmpty then none else some dims } := by
  split
  · rw [takeFields, ← hd]
  · have hdims := Decode.once_bind (β := Draft)
      (Decode.list_ofList fun x hx => DynamicDimension.decode_toJson (h x hx))
    simp only [takeFields, takeField, hd, hdims, pure_bind]

private theorem decodeList_toJsonList (r : Reading) {subs : List Shape}
    (h : ∀ t ∈ subs, decode r t.toJson = .ok t) : decodeList r (toJsonList subs) = .ok subs := by
  induction subs with
  | nil => rw [toJsonList, decodeList]
  | cons t subs ih =>
    rw [toJsonList, decodeList, Except.bind_of_ok (h t (by simp)),
      Except.bind_of_ok (ih fun u hu => h u (by simp [hu]))]
    rfl

private theorem takeFields_subs (r : Reading) {d : Draft} (hd : d.subShapes = none)
    {subs : List Shape} (h : ∀ t ∈ subs, decode r t.toJson = .ok t) :
    takeFields r d (if subs.isEmpty then [] else [("sub_shapes", .list (toJsonList subs))]) =
      .ok { d with subShapes := if subs.isEmpty then none else some subs } := by
  split
  · rw [takeFields, ← hd]
  · simp only [takeFields, takeField, hd, Except.bind_of_ok (decodeList_toJsonList r h), pure_bind]

/-- A written shape is checked when it is read. -/
theorem decode_toJson_eq (r : Reading) (lens : Decode.Words s.lens) (strides : Decode.Words s.strides)
    (dims : ∀ d ∈ s.dynamicDims, d.Writable) (subs : ∀ t ∈ s.subShapes, decode r t.toJson = .ok t) :
    decode r s.toJson = Decode.checked s.check := by
  obtain ⟨t, ls, ss, ds, us⟩ := s
  have hbase : takeFields r {} [("ty", t.toJson), ("lens", .ofList .ofNat ls),
      ("strides", .ofList .ofNat ss)] =
      .ok { elementType := some t, lens := some ls, strides := some ss } := by
    simp only [takeFields, takeField, ElementType.once_toJson, Decode.once_words lens,
      Decode.once_words strides, pure_bind]
  rw [toJson_eq, decode, takeFields_append, takeFields_append, Except.bind_of_ok hbase,
    Except.bind_of_ok (takeFields_dims r rfl dims), Except.bind_of_ok (takeFields_subs r rfl subs)]
  simp only [Draft.complete, Decode.required, Except.bind_of_ok rfl, Option.getD_some,
    Decode.getD_unless_isEmpty]

theorem decode_toJson (r : Reading) (h : s.Writable) : decode r s.toJson = .ok s := by
  induction h with
  | mk passed lens strides dims _ ih =>
    rw [decode_toJson_eq r lens strides dims ih, passed]
    rfl

private theorem once_toJson {β : Type} (r : Reading) (h : s.Writable) (f : Option Shape → Decode β) :
    Decode.once none (decode r) s.toJson >>= f = f (some s) :=
  Decode.once_bind (decode_toJson r h) f

end Shape

/-- The literal is as reading leaves it: in row-major order, with a value for each element, all of
them finite and already converted to the element type. -/
structure Literal.Writable (l : Literal) : Prop where
  shape : l.shape.Writable
  standard : l.shape.asStandard = l.shape
  count : l.shape.elements = .ok l.data.size
  converted : ∀ x ∈ l.data, l.shape.elementType.cast x = x
  finite : ∀ x ∈ l.data, x.isFinite

private theorem Literal.ofData_self {l : Literal} (h : l.Writable) :
    ofData l.shape l.data = .ok l := by
  have hdata : l.data.map l.shape.elementType.cast = l.data :=
    (Array.map_congr_left h.converted).trans (Array.map_id l.data)
  obtain ⟨l', hl', hshape, hvalues⟩ := ofData_eq_ok h.count l.size_le
  rw [hl', Literal.ext (hshape.trans h.standard) (hvalues.trans hdata)]

theorem Literal.decode_toJson (r : Reading) {l : Literal} (h : l.Writable) :
    decode r l.toJson = .ok l := by
  have hdata := Decode.once_bind (β := Draft) (Decode.list_ofList (l := l.data.toList)
    fun x hx => Decode.float_ofFloat (h.finite x (Array.mem_def.2 hx)))
  simp only [decode, toJson, Decode.fields, List.foldlM_cons, List.foldlM_nil, Draft.take,
    Shape.once_toJson r h.shape, hdata, pure_bind, Decode.required, Except.bind_of_ok rfl,
    Array.toArray_toList, ofData_self h]
  rfl

namespace Operator

/-- The attributes can be written and read back. -/
def Writable : Operator → Prop
  | literal value => value.Writable
  | parameter _ shape | allocate shape => shape.Writable
  | transpose ns | multibroadcast ns | reduceMean ns => Decode.Words ns
  | reshape dims => Decode.SignedWords dims
  | broadcast axis outLens => axis < Word.limit ∧ Decode.Words outLens
  | pad pads _ value => Decode.Words pads ∧ value.isFinite
  | convolution w =>
    Decode.Words w.padding ∧ Decode.Words w.stride ∧ Decode.Words w.dilation ∧ w.group < Word.limit
  | layernorm epsilon => epsilon.isFinite
  | loop n | getTupleElem n => n < Word.limit
  | _ => True

/-- Attributes that are all known are read one after the other. -/
theorem attributes_record (r : Reading) {names : List String} {fields : List (String × Json)}
    (h : fields.map Prod.fst = names) :
    attributes r names (some (.record fields)) = fields.foldlM (Draft.take r) {} := by
  have known : ∀ f ∈ fields, names.contains f.1 := fun f hf =>
    List.contains_iff_mem.2 (h ▸ List.mem_map_of_mem hf)
  simp only [attributes, Decode.required, Except.bind_of_ok rfl]
  generalize ({} : Draft) = d
  clear h
  induction fields generalizing d with
  | nil => rfl
  | cons f fields ih =>
    rw [List.foldlM_cons, List.foldlM_cons, if_pos (known f (by simp))]
    exact congrArg _ (funext fun d => ih (fun g hg => known g (by simp [hg])) d)

/-- The name and the attributes of an operator make up its document. -/
theorem decode_record {name : String} {attributes : Json} {op : Operator}
    (h : ofParts .direct name (some attributes) = .ok op) :
    decode (.record [("operator", .text name), ("attributes", attributes)]) = .ok op := by
  have htag : Decode.name .direct some (.text name) = .ok name := Decode.name_text rfl _
  have hnext : nextPart? [("attributes", attributes)] = .ok (some (.attributes, attributes, [])) := by
    rw [nextPart?, if_neg (by decide), if_pos rfl]
  rw [decode, ofFields, nextPart?, if_pos rfl]
  simp only [Except.bind_of_ok rfl, Except.bind_of_ok htag, Except.bind_of_ok hnext,
    Except.bind_of_ok h, finish]
  rfl

/-- Nothing but the name is written of an operator without attributes. -/
theorem decode_plain {op : Operator} (h : op ∈ plain) : decode op.toJson = .ok op := by
  revert op
  decide +kernel

theorem decode_toJson {op : Operator} (h : op.Writable) : decode op.toJson = .ok op := by
  have hmode (m : PadMode) := Decode.once_bind (β := Draft) (PadMode.decode_toJson .direct m)
  cases op with
  | literal value =>
    refine decode_record ?_
    simp only [ofParts, name, Decode.required, Except.bind_of_ok rfl,
      Except.bind_of_ok (Literal.decode_toJson .direct h)]
    rfl
  | output | identity | undefined | contiguous | clip | dot | quantizeLinear | dequantizeLinear
  | branch => exact decode_plain (by simp [plain])
  | unary f => exact decode_plain (by cases f <;> simp [plain, Unary.all])
  | binary f => exact decode_plain (by cases f <;> simp [plain, Binary.all])
  | _ =>
    simp only [Writable] at h
    refine decode_record ?_
    simp only [ofParts, name, attributes_record, List.map_cons, List.map_nil, List.foldlM_cons,
      List.foldlM_nil, Draft.take, Draft.take.words, nats, Decode.once_text, Decode.once_word,
      Decode.once_words, Decode.once_signedWords, Decode.once_float, Shape.once_toJson,
      ElementType.once_toJson, hmode, h, pure_bind, Decode.required, Except.bind_of_ok rfl]
    rfl

end Operator

/-- The operator can be written, and the places of the inputs fit a word. -/
structure InstructionRecord.Writable (r : InstructionRecord) : Prop where
  op : r.op.Writable
  inputs : Decode.Words r.inputs

theorem InstructionRecord.decode_toJson {r : InstructionRecord} (h : r.Writable) :
    decode r.toJson = .ok r := by
  obtain ⟨op, inputs, modules⟩ := r
  have hop := Decode.once_bind (β := Draft) (Operator.decode_toJson h.op)
  cases inputs <;> cases modules <;>
    simp only [decode, toJson, Decode.fields, List.isEmpty_nil, List.isEmpty_cons, if_true,
      Bool.false_eq_true, if_false, List.nil_append, List.cons_append, List.append_nil,
      List.foldlM_cons, List.foldlM_nil, Draft.take, hop, Decode.once_words h.inputs,
      Decode.once_texts, pure_bind, Decode.required, Except.bind_of_ok rfl] <;> rfl

theorem ModuleRecord.decode_toJson {r : ModuleRecord} (h : ∀ i ∈ r.instructions, i.Writable) :
    decode r.toJson = .ok r := by
  have hinstructions := Decode.once_bind (β := Draft) (Decode.list_ofList (l := r.instructions)
    fun i hi => InstructionRecord.decode_toJson (h i hi))
  simp only [decode, toJson, Decode.fields, List.foldlM_cons, List.foldlM_nil, Draft.take,
    Decode.once_text, hinstructions, pure_bind, Decode.required, Except.bind_of_ok rfl]
  rfl

/-- Every instruction of every module can be written. -/
def ProgramRecord.Writable (r : ProgramRecord) : Prop :=
  ∀ m ∈ r.modules, ∀ i ∈ m.instructions, i.Writable

/-- What is written of a program is read back as it was. -/
theorem ProgramRecord.decode_written {r : ProgramRecord} (h : r.Writable) :
    decode r.toJson = .ok r := by
  have hmodules : Decode.list ModuleRecord.decode (.ofList ModuleRecord.toJson r.modules) =
      .ok r.modules :=
    Decode.list_ofList fun m hm => ModuleRecord.decode_toJson (h m hm)
  simp only [decode, toJson, Decode.fields, List.foldlM_cons, List.foldlM_nil, take, Decode.once,
    hmodules]
  rfl

/-- A program with tuples inside a tuple, an axis of unknown length, a literal, attributes of several
kinds and a sub-module. -/
def ProgramRecord.nested : ProgramRecord where
  modules := [
    { name := "body"
      instructions := [
        { op := .parameter "x" (.scalar .float) },
        { op := .unary .neg, inputs := [0] },
        { op := .output, inputs := [1] }] },
    { name := "main"
      instructions := [
        { op := .parameter "t" (.tuple [.tuple [.packedOf .float [2, 3]],
            .dynamic .half [{ min := 1, max := 4, optimals := [2] }]]) },
        { op := .literal ⟨.packedOf .int32 [2], #[1, -3], by decide⟩ },
        { op := .pad [1, 1] .constant 0.5, inputs := [1] },
        { op := .reshape [-1, 2], inputs := [2] },
        { op := .loop 4, inputs := [3, 0], modules := ["body"] }] }]

private theorem ProgramRecord.nested_writable : nested.Writable := by
  have hscalar : (Shape.scalar .float).Writable :=
    .mk (by decide) (by decide) (by decide) nofun nofun
  have hmatrix : (Shape.packedOf .float [2, 3]).Writable :=
    .mk (by decide) (by decide) (by decide) nofun nofun
  have hinner : (Shape.tuple [.packedOf .float [2, 3]]).Writable :=
    .mk (by decide) nofun nofun nofun (List.forall_mem_singleton.2 hmatrix)
  have hdynamic : (Shape.dynamic .half [{ min := 1, max := 4, optimals := [2] }]).Writable :=
    .mk (by decide) nofun nofun
      (List.forall_mem_singleton.2 ⟨by decide, by decide, by decide⟩) nofun
  have houter : (Shape.tuple [.tuple [.packedOf .float [2, 3]],
      .dynamic .half [{ min := 1, max := 4, optimals := [2] }]]).Writable :=
    .mk (by decide) nofun nofun nofun
      (List.forall_mem_cons.2 ⟨hinner, List.forall_mem_singleton.2 hdynamic⟩)
  have hliteral : Literal.Writable ⟨.packedOf .int32 [2], #[1, -3], by decide⟩ :=
    ⟨.mk (by decide) (by decide) (by decide) nofun nofun, by decide, by decide, by decide +kernel,
      by decide +kernel⟩
  have hdims : Decode.SignedWords [-1, 2] := by decide
  have htrips : 4 < Word.limit := by decide
  simp only [Writable, nested, List.forall_mem_cons, List.not_mem_nil, IsEmpty.forall_iff,
    implies_true, and_true]
  exact ⟨⟨⟨hscalar, by decide⟩, ⟨trivial, by decide⟩, ⟨trivial, by decide⟩⟩, ⟨houter, by decide⟩,
    ⟨hliteral, by decide⟩, ⟨⟨by decide, by decide +kernel⟩, by decide⟩, ⟨hdims, by decide⟩,
    ⟨htrips, by decide⟩⟩

theorem ProgramRecord.decode_written_nested :
    nested.Writable ∧ decode nested.toJson = .ok nested :=
  ⟨nested_writable, decode_written nested_writable⟩

end TensorGraph
