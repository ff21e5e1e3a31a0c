import TensorGraph.Proofs.Codec
import TensorGraph.Proofs.Pass.Merging

/-! Hashing and equality. What an operator gives to a hash depends on it only up to `==`, and nothing
of it is left out: operators that give the same are equal, unless they hold a value that is not a
number, which is equal to nothing. -/
namespace TensorGraph

namespace Feed
variable {xs ys : List Feed}

private theorem nats_append_inj {ns ks : List Nat} (h : nats ns ++ xs = nats ks ++ ys) :
    ns = ks ∧ xs = ys := by
  rw [nats, nats, List.cons_append, List.cons_append, List.cons.injEq] at h
  obtain ⟨hcount, h⟩ := h
  obtain ⟨hmap, hrest⟩ := List.append_inj h (by simpa using hcount)
  exact ⟨List.map_injective_iff.2 (fun _ _ => word.inj) hmap, hrest⟩

private theorem nats_injective {ns ks : List Nat} (h : nats ns = nats ks) : ns = ks :=
  (nats_append_inj (show nats ns ++ [] = nats ks ++ [] by rw [h])).1

/-- A number of items shows where it ends if each item does. -/
theorem flatMap_append_inj {α : Type} {f : α → List Feed} {l l' : List α}
    (hf : ∀ a ∈ l, ∀ b xs ys, f a ++ xs = f b ++ ys → a = b ∧ xs = ys) (hlen : l.length = l'.length)
    (h : l.flatMap f ++ xs = l'.flatMap f ++ ys) : l = l' ∧ xs = ys := by
  induction l generalizing l' with
  | nil =>
    obtain rfl := List.length_eq_zero_iff.1 hlen.symm
    exact ⟨rfl, h⟩
  | cons a l ih =>
    obtain ⟨b, l', rfl⟩ := List.exists_cons_of_length_eq_add_one hlen.symm
    rw [List.flatMap_cons, List.flatMap_cons, List.append_assoc, List.append_assoc] at h
    obtain ⟨ha, hl⟩ := List.forall_mem_cons.1 hf
    obtain ⟨rfl, hrest⟩ := ha b _ _ h
    obtain ⟨rfl, hend⟩ := ih hl (Nat.succ.inj hlen) hrest
    exact ⟨rfl, hend⟩

end Feed

private theorem DynamicDimension.feed_append_inj {d e : DynamicDimension} {xs ys : List Feed}
    (h : d.feed ++ xs = e.feed ++ ys) : d = e ∧ xs = ys := by
  obtain ⟨min, max, optimals⟩ := d
  obtain ⟨min', max', optimals'⟩ := e
  simp only [feed, List.cons_append, List.cons.injEq, Feed.word.injEq] at h
  obtain ⟨rfl, rfl, h⟩ := h
  obtain ⟨rfl, hend⟩ := Feed.nats_append_inj h
  exact ⟨rfl, hend⟩

private theorem ElementType.number_injective : Function.Injective ElementType.number :=
  Function.LeftInverse.injective ElementType.ofNat_ctorIdx

private theorem Shape.feedAll_eq_flatMap (ss : List Shape) :
    Shape.feedAll ss = ss.flatMap Shape.feed := by
  induction ss with
  | nil => rw [Shape.feedAll, List.flatMap_nil]
  | cons s ss ih => rw [Shape.feedAll, List.flatMap_cons, ih]

/-- A shape is determined by what it gives to a hash, whatever is given after it. -/
theorem Shape.feed_append_inj {s t : Shape} {xs ys : List Feed} (h : s.feed ++ xs = t.feed ++ ys) :
    s = t ∧ xs = ys := by
  induction hn : sizeOf s using Nat.strong_induction_on generalizing s t xs ys with
  | _ size ih =>
    obtain ⟨type, lens, strides, dims, subs⟩ := s
    obtain ⟨type', lens', strides', dims', subs'⟩ := t
    simp only [Shape.feed, feedAll_eq_flatMap, List.cons_append, List.append_assoc, List.cons.injEq,
      Feed.word.injEq] at h
    obtain ⟨htype, h⟩ := h
    obtain rfl := ElementType.number_injective htype
    obtain ⟨rfl, hstrides⟩ := Feed.nats_append_inj h
    obtain ⟨rfl, hdims⟩ := Feed.nats_append_inj hstrides
    rw [List.cons.injEq, Feed.word.injEq] at hdims
    obtain ⟨rfl, hsubs⟩ := Feed.flatMap_append_inj
      (fun _ _ _ _ _ => DynamicDimension.feed_append_inj) hdims.1 hdims.2
    rw [List.cons.injEq, Feed.word.injEq] at hsubs
    have hsub : ∀ u ∈ subs, ∀ v xs ys, u.feed ++ xs = v.feed ++ ys → u = v ∧ xs = ys := by
      intro u hu v xs ys huv
      have hlt := List.sizeOf_lt_of_mem hu
      exact ih (sizeOf u) (by rw [← hn]; simp; omega) huv rfl
    obtain ⟨rfl, hend⟩ := Feed.flatMap_append_inj hsub hsubs.1 hsubs.2
    exact ⟨rfl, hend⟩

private theorem Shape.feed_injective : Function.Injective Shape.feed := fun s t h =>
  (Shape.feed_append_inj (show s.feed ++ [] = t.feed ++ [] by rw [h])).1

namespace Scalar
variable {x y : Float} {xs ys : List Float}

private theorem isNaN_eq_false_iff : x.isNaN = false ↔ x ≠ Float.nan := by
  rw [Float.isNaN_eq_decide_eq_nan, decide_eq_false_iff_not]

/-- Numbers that give the same bits to a hash compare equal. -/
theorem beq_of_feed_eq (hx : x.isNaN = false) (h : Feed.float x = Feed.float y) :
    (x == y) = true := by
  have hzero : ∀ z : Float, z.toBits.toNat = 0 → (z == 0) = true := by
    intro z hz
    have hbits : z.toBits = (0 : Float).toBits := UInt64.toNat_inj.1 (hz.trans (by decide))
    rw [Float.toBits_inj.1 hbits]
    decide
  rw [Feed.float, Feed.float, Feed.word.injEq] at h
  by_cases hx0 : (x == 0) = true <;> by_cases hy0 : (y == 0) = true
  · exact BEq.trans hx0 (BEq.symm hy0)
  · rw [if_pos hx0, if_neg hy0] at h
    exact absurd (hzero y h.symm) hy0
  · rw [if_neg hx0, if_pos hy0] at h
    exact absurd (hzero x h) hx0
  · rw [if_neg hx0, if_neg hy0] at h
    obtain rfl := Float.toBits_inj.1 (UInt64.toNat_inj.1 h)
    have hx := isNaN_eq_false_iff.1 hx
    exact Float.beq_iff_ne_nan_and_eq.2 ⟨hx, hx, .inl rfl⟩

private theorem beq_of_map_feed_eq (hx : ∀ x ∈ xs, x.isNaN = false)
    (h : xs.map Feed.float = ys.map Feed.float) : (xs == ys) = true := by
  induction xs generalizing ys with
  | nil =>
    obtain rfl := List.map_eq_nil_iff.1 h.symm
    rfl
  | cons x xs ih =>
    cases ys with
    | nil => cases h
    | cons y ys =>
      obtain ⟨hhead, htail⟩ := List.cons.inj h
      obtain ⟨hx, hxs⟩ := List.forall_mem_cons.1 hx
      rw [List.cons_beq_cons, beq_of_feed_eq hx hhead, ih hxs htail]
      rfl

/-- Only numbers compare equal to anything. -/
theorem isNaN_of_beq (h : (x == y) = true) : x.isNaN = false :=
  isNaN_eq_false_iff.2 (Float.beq_iff_ne_nan_and_eq.1 h).1

private theorem isNaN_of_beq_list (h : (xs == ys) = true) : ∀ x ∈ xs, x.isNaN = false := by
  induction xs generalizing ys with
  | nil => simp
  | cons x xs ih =>
    cases ys with
    | nil => cases h
    | cons y ys =>
      rw [List.cons_beq_cons, Bool.and_eq_true] at h
      exact List.forall_mem_cons.2 ⟨isNaN_of_beq h.1, ih h.2⟩

end Scalar

/-- Signed words are determined by their bits. -/
theorem Word.ofSigned_inj {i j : Int} (hi : -(signedLimit : Int) ≤ i ∧ i < signedLimit)
    (hj : -(signedLimit : Int) ≤ j ∧ j < signedLimit) (h : ofSigned i = ofSigned j) : i = j := by
  have hlimit : (limit : Int) = 18446744073709551616 := rfl
  have hsigned : (signedLimit : Int) = 9223372036854775808 := rfl
  rw [ofSigned, ofSigned, hlimit] at h
  rw [hsigned] at hi hj
  omega

private theorem Unary.name_injective : Function.Injective Unary.name := by
  intro f g h
  cases f <;> cases g <;> first | rfl | exact absurd h (by decide)

private theorem Binary.name_injective : Function.Injective Binary.name := by
  intro f g h
  cases f <;> cases g <;> first | rfl | exact absurd h (by decide)

namespace Operator
variable {a b : Operator}

/-- The place of the constructor for each name that operators have. -/
private def kinds : List (String × Nat) :=
  [("@literal", 0), ("@param", 1), ("@return", 2), ("identity", 3), ("undefined", 4),
    ("allocate", 5), ("contiguous", 6), ("convert", 7), ("neg", 8), ("add", 9), ("clip", 10),
    ("transpose", 11), ("reshape", 12), ("broadcast", 13), ("multibroadcast", 14), ("pad", 15),
    ("convolution", 16), ("dot", 17), ("reduce_mean", 18), ("layernorm", 19),
    ("quantizelinear", 20), ("dequantizelinear", 21), ("if", 22), ("loop", 23),
    ("get_tuple_elem", 24)] ++
    Unary.all.tail.map (fun f => (f.name, 8)) ++ Binary.all.tail.map (fun f => (f.name, 9))

private theorem kinds_getElem? (op : Operator) (hu : op.isUnary = false) (hb : op.isBinary = false) :
    kinds[op.ctorIdx]? = some (op.name, op.ctorIdx) := by
  cases op with
  | unary => cases hu
  | binary => cases hb
  | _ => rfl

private theorem mem_kinds (op : Operator) : (op.name, op.ctorIdx) ∈ kinds := by
  cases op with
  | unary f => cases f <;> decide +kernel
  | binary f => cases f <;> decide +kernel
  | _ => exact List.mem_of_getElem? (kinds_getElem? _ rfl rfl)

/-- Operators of the same name differ in attributes only. -/
theorem ctorIdx_eq_of_name_eq (h : a.name = b.name) : a.ctorIdx = b.ctorIdx := by
  have hnames : (kinds.map Prod.fst).Nodup := by decide +kernel
  exact congrArg Prod.snd (List.inj_on_of_nodup_map hnames (mem_kinds a) (mem_kinds b) h)

/-- The attributes that are doubles. -/
def doubles : Operator → List Float
  | literal value => value.data.toList
  | pad _ _ value => [value]
  | layernorm epsilon => [epsilon]
  | _ => []

/-- All doubles among the attributes are numbers. -/
def Numeric (op : Operator) : Prop :=
  ∀ x ∈ op.doubles, x.isNaN = false

/-- The attributes that are signed fit a signed word. -/
def SignedFits : Operator → Prop
  | reshape dims => Decode.SignedWords dims
  | _ => True

private theorem numeric_of_beq (h : (a == b) = true) : a.Numeric := by
  cases a with
  | literal v =>
    cases b with
    | literal w => exact Scalar.isNaN_of_beq_list (Literal.beq_iff.1 h).2
    | _ => cases h
  | pad pads mode x =>
    cases b with
    | pad pads' mode' y =>
      change (pads == pads' && (mode == mode' && x == y)) = true at h
      simp only [Bool.and_eq_true] at h
      exact List.forall_mem_singleton.2 (Scalar.isNaN_of_beq h.2.2)
    | _ => cases h
  | layernorm x =>
    cases b with
    | layernorm y => exact List.forall_mem_singleton.2 (Scalar.isNaN_of_beq h)
    | _ => cases h
  | _ => exact List.forall_mem_nil _

private theorem dims_eq_of_feed_eq {dims dims' : List Int} (hd : Decode.SignedWords dims)
    (hd' : Decode.SignedWords dims') (h : (reshape dims).attributeFeed = (reshape dims').attributeFeed) :
    dims = dims' := by
  have hmap := (List.cons.inj h).2
  clear h
  induction dims generalizing dims' with
  | nil => exact (List.map_eq_nil_iff.1 hmap.symm).symm
  | cons d dims ih =>
    cases dims' with
    | nil => cases hmap
    | cons d' dims' =>
      obtain ⟨hhead, htail⟩ := List.cons.inj hmap
      obtain ⟨hd, hds⟩ := List.forall_mem_cons.1 hd
      obtain ⟨hd', hds'⟩ := List.forall_mem_cons.1 hd'
      rw [Word.ofSigned_inj hd hd' (Feed.word.inj hhead), ih hds hds' htail]

private theorem window_eq_of_feed_eq {w w' : Window}
    (h : (convolution w).attributeFeed = (convolution w').attributeFeed) : w = w' := by
  obtain ⟨padding, stride, dilation, group⟩ := w
  obtain ⟨padding', stride', dilation', group'⟩ := w'
  simp only [attributeFeed, List.append_assoc] at h
  obtain ⟨rfl, hstride⟩ := Feed.nats_append_inj h
  obtain ⟨rfl, hdilation⟩ := Feed.nats_append_inj hstride
  obtain ⟨rfl, hgroup⟩ := Feed.nats_append_inj hdilation
  rw [Feed.word.inj (List.cons.inj hgroup).1]

/-- Operators that give the same to a hash are equal, if they hold numbers only. -/
theorem beq_of_feed_eq (ha : a.Numeric) (hfa : a.SignedFits) (hfb : b.SignedFits)
    (h : a.feed = b.feed) : (a == b) = true := by
  rw [feed, feed, List.cons.injEq, Feed.text.injEq] at h
  obtain ⟨hname, h⟩ := h
  have hkind := ctorIdx_eq_of_name_eq hname
  change instBEqOperator.beq a b = true
  -- the name settles the constructor, so what is left is one case for each of them
  cases a <;> cases b <;> cases hkind
  case literal.literal =>
    obtain ⟨hs, hd⟩ := Shape.feed_append_inj h
    exact Literal.beq_iff.2 ⟨hs, Scalar.beq_of_map_feed_eq ha hd⟩
  case parameter.parameter =>
    obtain ⟨hparameter, hs⟩ := List.cons.inj h
    exact Bool.and_eq_true_iff.2
      ⟨beq_iff_eq.2 (Feed.text.inj hparameter), beq_iff_eq.2 (Shape.feed_injective hs)⟩
  case allocate.allocate => exact beq_iff_eq.2 (Shape.feed_injective h)
  case convert.convert =>
    exact beq_iff_eq.2 (ElementType.number_injective (Feed.word.inj (List.cons.inj h).1))
  case unary.unary => exact beq_iff_eq.2 (Unary.name_injective hname)
  case binary.binary => exact beq_iff_eq.2 (Binary.name_injective hname)
  case transpose.transpose => exact beq_iff_eq.2 (Feed.nats_injective h)
  case reshape.reshape => exact beq_iff_eq.2 (dims_eq_of_feed_eq hfa hfb h)
  case broadcast.broadcast =>
    obtain ⟨haxis, hlens⟩ := List.cons.inj h
    exact Bool.and_eq_true_iff.2
      ⟨beq_iff_eq.2 (Feed.word.inj haxis), beq_iff_eq.2 (Feed.nats_injective hlens)⟩
  case multibroadcast.multibroadcast => exact beq_iff_eq.2 (Feed.nats_injective h)
  case pad.pad pads mode x pads' mode' y =>
    obtain ⟨hpads, hrest⟩ := Feed.nats_append_inj h
    obtain ⟨hmode, hvalue⟩ := List.cons.inj hrest
    have hmode : mode = mode' :=
      Function.LeftInverse.injective PadMode.ofNat_ctorIdx (Feed.word.inj hmode)
    have hvalue := Scalar.beq_of_feed_eq (ha x List.mem_cons_self) (List.cons.inj hvalue).1
    exact Bool.and_eq_true_iff.2
      ⟨beq_iff_eq.2 hpads, Bool.and_eq_true_iff.2 ⟨beq_iff_eq.2 hmode, hvalue⟩⟩
  case convolution.convolution => exact beq_iff_eq.2 (window_eq_of_feed_eq h)
  case reduceMean.reduceMean => exact beq_iff_eq.2 (Feed.nats_injective h)
  case layernorm.layernorm x y =>
    exact Scalar.beq_of_feed_eq (ha x List.mem_cons_self) (List.cons.inj h).1
  case loop.loop => exact beq_iff_eq.2 (Feed.word.inj (List.cons.inj h).1)
  case getTupleElem.getTupleElem => exact beq_iff_eq.2 (Feed.word.inj (List.cons.inj h).1)
  all_goals rfl

end Operator

open Pass.CommonSubexpression in
/-- Hashing is consistent with equality: equal operators give the same to a hash, whatever constructor
and attributes they have, and instructions with equal operators and the same inputs and sub-modules
have one fingerprint. Nothing is left out of a hash either. Where signed attributes fit a word,
operators are equal just if they give the same to a hash and hold numbers only, so that the only
operators not equal to themselves are those that hold a value that is not a number. -/
theorem hash_consistent :
    (∀ a b : Operator, (a == b) = true → a.feed = b.feed) ∧
      (∀ n k : Instruction, (n.op == k.op) = true → n.inputs = k.inputs → n.moduleArgs = k.moduleArgs →
        fingerprint n = fingerprint k) ∧
      ∀ a b : Operator, a.SignedFits → b.SignedFits →
        ((a == b) = true ↔ a.feed = b.feed ∧ a.Numeric) := by
  have hfeed : ∀ a b : Operator, (a == b) = true → a.feed = b.feed :=
    fun a b h => (Operator.alike_of_beq h).feed_eq
  refine ⟨hfeed, fun n k hop hin hargs => fingerprint_eq ?_, fun a b ha hb => ⟨fun h => ?_, ?_⟩⟩
  · simp only [equivalent, hop, hin, hargs, beq_self_eq_true, Bool.and_self]
  · exact ⟨hfeed a b h, Operator.numeric_of_beq h⟩
  · rintro ⟨h, hnumeric⟩
    exact Operator.beq_of_feed_eq hnumeric ha hb h

open Pass.CommonSubexpression in
/-- Literals that differ in the sign of a zero, in instructions and by themselves, and an attribute
that is not a number. -/
theorem hash_consistent_zeros :
    let positive : Operator := .literal ⟨.packedOf .float [2], #[0, 3], by decide⟩
    let negative : Operator := .literal ⟨.packedOf .float [2], #[-0, 3], by decide⟩
    let padding : Instruction :=
      { op := .pad [1, 0] .constant 0, inputs := [⟨0⟩], shape := .packedOf .float [3] }
    let unknown : Operator := .layernorm Float.nan
    positive ≠ negative ∧ (positive == negative) = true ∧ positive.feed = negative.feed ∧
      fingerprint padding = fingerprint { padding with op := .pad [1, 0] .constant (-0), users := [⟨4⟩] } ∧
      unknown.SignedFits ∧ ¬ unknown.Numeric ∧ (unknown == unknown) = false := by
  intro positive negative padding unknown
  obtain ⟨hfeed, hfingerprint, hexact⟩ := hash_consistent
  have hequal : (positive == negative) = true := by decide +kernel
  have hnan : ¬ unknown.Numeric := fun h => absurd (h Float.nan List.mem_cons_self) (by decide +kernel)
  refine ⟨by decide +kernel, hequal, hfeed _ _ hequal, hfingerprint _ _ (by decide +kernel) rfl rfl,
    trivial, hnan, Bool.eq_false_iff.2 fun h => ?_⟩
  exact hnan ((hexact unknown unknown trivial trivial).1 h).2

end TensorGraph
