import TensorGraph.Pass.Gelu
import TensorGraph.Proofs.Module.Expansion
import TensorGraph.Proofs.Pass.Simplification

/-! Rewriting the gaussian error linear unit keeps layouts, except where it is written with operands
that share a packed layout which is not row-major. The constants in it have axes, and so has its
input, along which the new constant is repeated. -/
namespace TensorGraph.Pass
open TensorGraph.Action TensorGraph.Module
variable {m m' m₀ : Module} {i j x : InstructionId} {n : Instruction}

namespace Gelu
open TensorGraph.Pattern TensorGraph.Operator TensorGraph.Shape
variable {b b' b'' : Bindings}

/-- A constant operand binds nothing and has axes. -/
theorem yields_constantOf (h : Accepted m) (hp : Proper m) (value : Float) (i : InstructionId)
    (b : Bindings) :
    Yields m ((constantOf value).matches? m i b) fun b' => b' = b ∧ Spread m i := by
  refine yields_matches? fun hi => yields_skipBroadcasts h.linked hi fun views j hj => ?_
  refine yields_matches? fun _ => yields_hasValue fun v hv hall => ⟨rfl, ?_⟩
  exact spread_of_underBroadcasts h hj
    (spread_of_hasValue h hp.constant hv (Literal.size_ne_zero_of_allEqual hall))

/-- The instruction is `x`, or is computed from it element by element. -/
structure Follows (m : Module) (x i : InstructionId) : Prop where
  earlier : x = i ∨ m.usersOf x ≠ [] ∧ m.order.idxOf x < m.order.idxOf i
  same : SameAxes (m.shapeOf i) (m.shapeOf x)
  static : (m.shapeOf x).isDynamic = false → (m.shapeOf i).isDynamic = false

theorem Follows.refl (m : Module) (x : InstructionId) : Follows m x x :=
  ⟨.inl rfl, ⟨rfl, rfl⟩, id⟩

/-- The instruction is computed element by element from `x` and constants, so that `x` has axes. -/
structure Scaled (m : Module) (x i : InstructionId) : Prop where
  earlier : m.usersOf x ≠ [] ∧ m.order.idxOf x < m.order.idxOf i
  same : SameAxes (m.shapeOf i) (m.shapeOf x)
  static : (m.shapeOf x).isDynamic = false → (m.shapeOf i).isDynamic = false
  single : (m.shapeOf x).isTuple = false
  axes : (m.shapeOf x).toDynamic.dynamicDims ≠ []

private theorem Scaled.follows (h : Scaled m x i) : Follows m x i :=
  ⟨.inr h.earlier, h.same, h.static⟩

/-- An operand that follows `x`, and one that has axes, make the result follow `x`. -/
theorem scaled_of_operands (h : Accepted m) (hn : m.get? i = some n) {k : Nat}
    (hop : Elementwise n.op k) (hj : j ∈ n.inputs) (hx : Follows m x j)
    (hstatic : (m.shapeOf x).isDynamic = false → ∀ c ∈ n.inputs, (m.shapeOf c).isDynamic = false)
    (haxes : ∃ c ∈ n.inputs, (m.shapeOf c).toDynamic.dynamicDims ≠ []) : Scaled m x i := by
  have hcore := core?_of_get? hn
  have hfits := h.fits_of_mem hcore hj
  obtain ⟨hall, hdynamic⟩ := hop.sameAxes hfits
  have hsame : ∀ c ∈ n.inputs, (m.shapeOf c).isTuple = false ∧ SameAxes (m.shapeOf i) (m.shapeOf c) := by
    intro c hc
    rw [shapeOf_of_get? hn]
    exact hall _ (List.mem_map_of_mem hc)
  obtain ⟨hsingle, hij⟩ := hsame j hj
  have hbefore := h.input_before hn hj
  have hix := hij.trans hx.same
  refine ⟨?_, hix, fun hd => ?_, ?_, fun hnil => ?_⟩
  · rcases hx.earlier with rfl | ⟨hused, hle⟩
    · exact hbefore
    · exact ⟨hused, Nat.lt_trans hle hbefore.2⟩
  · rw [shapeOf_of_get? hn]
    refine hdynamic fun s hs => ?_
    obtain ⟨c, hc, rfl⟩ := List.mem_map.1 hs
    exact hstatic hd c hc
  · rw [isTuple, ← hx.same.type_eq]
    exact hsingle
  · obtain ⟨c, hc, hne⟩ := haxes
    exact hne ((hsame c hc).2.dims_eq.symm.trans (hix.dims_eq.trans hnil))

/-- The name `"x"` stands for an instruction of which `P` holds, and stood for no other before. -/
def Bound (P : InstructionId → Prop) (b b' : Bindings) : Prop :=
  ∃ x, b'.lookup "x" = some x ∧ (∀ y, b.lookup "x" = some y → y = x) ∧ P x

theorem Bound.join {P Q : InstructionId → Prop} (h : Bound P b b') (h' : Bound Q b' b'') :
    Bound (fun x => P x ∧ Q x) b b'' := by
  obtain ⟨x, hx, hold, hP⟩ := h
  obtain ⟨y, hy, hold', hQ⟩ := h'
  obtain rfl := hold' x hx
  exact ⟨x, hy, hold, hP, hQ⟩

theorem Bound.imp {P Q : InstructionId → Prop} (h : Bound P b b') (hPQ : ∀ x, P x → Q x) :
    Bound Q b b' := by
  obtain ⟨x, hx, hold, hP⟩ := h
  exact ⟨x, hx, hold, hPQ x hP⟩

/-- Where the pattern matches, `"x"` is bound. -/
def Binds (m : Module) (P : InstructionId → InstructionId → Prop) (p : Pattern) : Prop :=
  ∀ i b, Yields m (p.matches? m i b) (Bound (fun x => P x i) b)

theorem Binds.or {P : InstructionId → InstructionId → Prop} {p q : Pattern} (hp : Binds m P p)
    (hq : Binds m P q) : Binds m P (p.or q) :=
  fun i b => yields_matches? fun _ => yields_or (hp i b) (hq i b)

theorem Binds.imp {P Q : InstructionId → InstructionId → Prop} {p : Pattern} (hp : Binds m P p)
    (h : ∀ x i, P x i → Q x i) : Binds m Q p :=
  fun i b => (hp i b).imp fun _ hb => hb.imp fun x hx => h x i hx

private theorem binds_input : Binds m (Follows m) (.bind .any "x") := fun i _ =>
  yields_matches? fun _ => yields_bound fun hsame => yields_matches? fun _ => yields_any
    ⟨i, Bindings.lookup_bind _ _ i, hsame, .refl m i⟩

section Patterns
variable (h : Accepted m) (hp : Proper m)
include h

/-- The instruction is such an operator on two operands, computed from `x` and constants. -/
def Computed (f : Binary) (m : Module) (x i : InstructionId) : Prop :=
  Scaled m x i ∧ ∃ n, m.get? i = some n ∧ n.op = .binary f

private theorem length_inputs {k : Nat} (hn : m.get? i = some n) (hop : Elementwise n.op k) :
    n.inputs.length = k := by
  have hfits := h.fits_of_not_builtin (core?_of_get? hn) hop.not_builtin
  rw [← hop.length_eq hfits, List.length_map]
  rfl

private theorem inputs_of_binary {f : Binary} (hn : m.get? i = some n) (hop : n.op = .binary f) :
    ∃ a c, n.inputs = [a, c] :=
  List.length_eq_two.1 (length_inputs h hn (hop ▸ .binary f))

/-- Of two operands, one follows `x` and the other has axes. -/
theorem computed_of_pair {f : Binary} {u v : InstructionId} (hn : m.get? i = some n)
    (hop : n.op = .binary f) (hin : n.inputs = [u, v] ∨ n.inputs = [v, u]) (hx : Follows m x u)
    (hstatic : (m.shapeOf x).isDynamic = false → (m.shapeOf v).isDynamic = false)
    (haxes : (m.shapeOf v).toDynamic.dynamicDims ≠ []) : Computed f m x i := by
  have hmem : ∀ c, c ∈ n.inputs ↔ c = u ∨ c = v := by
    rcases hin with hin | hin <;> simp [hin, or_comm]
  have hel : Elementwise n.op 2 := hop ▸ .binary f
  refine ⟨scaled_of_operands h hn hel ((hmem u).2 (.inl rfl)) hx (fun hd c hc => ?_)
    ⟨v, (hmem v).2 (.inr rfl), haxes⟩, n, hn, hop⟩
  rcases (hmem c).1 hc with rfl | rfl
  · exact hx.static hd
  · exact hstatic hd

private theorem yields_binary {f : Binary} {p q : Pattern} {R : Bindings → Prop}
    (hboth : ∀ n a c, m.get? i = some n → n.op = .binary f → n.inputs = [a, c] →
      (Yields m (p.matches? m a b) fun b' => Yields m (q.matches? m c b') R) ∧
        Yields m (q.matches? m a b) fun b' => Yields m (p.matches? m c b') R) :
    Yields m (((Pattern.name f.name).and (.eitherArg 0 1 p q)).matches? m i b) R := by
  refine yields_matches? fun hi => yields_and (yields_matches? fun _ => yields_name hi
    fun n hn hname => ?_)
  have hop : n.op = .binary f := eq_binary_of_name hname
  obtain ⟨a, c, hin⟩ := inputs_of_binary h hn hop
  obtain ⟨hpq, hqp⟩ := hboth n a c hn hop hin
  refine yields_eitherArg hn fun a' ha => ?_
  obtain rfl : a = a' := by simpa [hin] using ha
  refine ⟨hpq.imp fun b' hq c' hc => ?_, hqp.imp fun b' hp c' hc => ?_⟩
  · obtain rfl : c = c' := by simpa [hin] using hc
    exact hq
  · obtain rfl : c = c' := by simpa [hin] using hc
    exact hp

private theorem binds_pair (f : Binary) {p q : Pattern} (hf : Binds m (Follows m) p)
    (hs : Binds m (Scaled m) q) :
    Binds m (Computed f m) ((Pattern.name f.name).and (.eitherArg 0 1 p q)) := by
  have hpair : ∀ {i n u v x}, m.get? i = some n → n.op = .binary f →
      n.inputs = [u, v] ∨ n.inputs = [v, u] → Follows m x u → Scaled m x v → Computed f m x i :=
    fun hn hop hin hu hv => computed_of_pair h hn hop hin hu hv.static (hv.same.dims_eq ▸ hv.axes)
  refine fun i b => yields_binary h fun n a c hn hop hin => ⟨?_, ?_⟩
  · refine (hf a b).imp fun b' hb => (hs c b').imp fun b'' hb' => (hb.join hb').imp fun x hx => ?_
    exact hpair hn hop (.inl hin) hx.1 hx.2
  · refine (hs a b).imp fun b' hb => (hf c b').imp fun b'' hb' => (hb.join hb').imp fun x hx => ?_
    exact hpair hn hop (.inr hin) hx.2 hx.1

include hp

private theorem binds_constant (f : Binary) {p : Pattern} (hf : Binds m (Follows m) p)
    (value : Float) :
    Binds m (Computed f m) ((Pattern.name f.name).and (.eitherArg 0 1 p (constantOf value))) := by
  have hpair : ∀ {i n u v x}, m.get? i = some n → n.op = .binary f →
      n.inputs = [u, v] ∨ n.inputs = [v, u] → Follows m x u → Spread m v → Computed f m x i :=
    fun hn hop hin hu hv => computed_of_pair h hn hop hin hu (fun _ => hv.static) hv.dims_ne_nil
  refine fun i b => yields_binary h fun n a c hn hop hin => ⟨?_, ?_⟩
  · refine (hf a b).imp fun b' hb => (yields_constantOf h hp value c b').imp ?_
    rintro _ ⟨rfl, hc⟩
    exact hb.imp fun x hx => hpair hn hop (.inl hin) hx hc
  · refine (yields_constantOf h hp value a b).imp ?_
    rintro _ ⟨rfl, ha⟩
    exact (hf c _).imp fun b' hb => hb.imp fun x hx => hpair hn hop (.inr hin) hx ha

/-- A quotient is matched in order. -/
theorem binds_quotient {p : Pattern} (hf : Binds m (Follows m) p) (value : Float) :
    Binds m (Scaled m)
      (((Pattern.name "div").and (.arg 0 p)).and (.arg 1 (constantOf value))) := by
  intro i b
  refine yields_matches? fun hi => yields_and (yields_matches? fun _ => yields_and (yields_matches?
    fun _ => yields_name hi fun n hn hname => yields_matches? fun _ => yields_arg hi
      fun n' a hn' ha => ?_))
  have hop : n.op = .binary .div := eq_binary_of_name hname
  cases hn.symm.trans hn'
  refine (hf a b).imp fun b' hb => yields_matches? fun _ => yields_arg hi fun n' c hn' hc => ?_
  cases hn.symm.trans hn'
  obtain ⟨a', c', hin⟩ := inputs_of_binary h hn hop
  obtain rfl : a' = a := by simpa [hin] using ha
  obtain rfl : c' = c := by simpa [hin] using hc
  refine (yields_constantOf h hp value c' b').imp ?_
  rintro _ ⟨rfl, hs⟩
  refine hb.imp fun x hx => ?_
  exact (computed_of_pair h hn hop (.inl hin) hx (fun _ => hs.static) hs.dims_ne_nil).1

omit hp in
private theorem binds_erf {p : Pattern} (hs : Binds m (Scaled m) p) :
    Binds m (Scaled m) ((Pattern.name "erf").and (.arg 0 p)) := by
  intro i b
  refine yields_matches? fun hi => yields_and (yields_matches? fun _ => yields_name hi
    fun n hn hname => yields_matches? fun _ => yields_arg hi fun n' a hn' ha => ?_)
  cases hn.symm.trans hn'
  have hop : n.op = .unary .erf := eq_unary_of_name hname
  have hel : Elementwise n.op 1 := hop ▸ .unary .erf
  obtain ⟨a', hin⟩ := List.length_eq_one_iff.1 (length_inputs h hn hel)
  obtain rfl : a' = a := by simpa [hin] using ha
  refine (hs a' b).imp fun b' hb => hb.imp fun x hx => ?_
  refine scaled_of_operands h hn hel (j := a') (by simp [hin]) hx.follows (fun hd c hc => ?_)
    ⟨a', by simp [hin], hx.same.dims_eq ▸ hx.axes⟩
  rw [hin, List.mem_singleton] at hc
  exact hc ▸ hx.static hd

/-- Where the pattern matches, there is a product that is computed from `"x"` and constants. -/
theorem binds_pattern : Binds m (Computed .mul m) pattern := by
  have hquotient := binds_quotient h hp binds_input 1.4142135623730951
  have hscaled := hquotient.or
    ((binds_constant h hp .mul binds_input 0.7071067811865476).imp fun _ _ hc => hc.1)
  have hplus := (binds_constant h hp .add ((binds_erf h hscaled).imp fun _ _ => Scaled.follows) 1).imp
    fun _ _ hc => hc.1
  have hhalf := (binds_constant h hp .mul binds_input 0.5).imp fun _ _ hc => hc.1.follows
  have hwhole := (binds_pair h .mul binds_input hplus).imp fun _ _ hc => hc.1.follows
  exact (binds_pair h .mul hhalf hplus).or (binds_constant h hp .mul hwhole 0.5)

end Patterns

/-- The input of a product that is row-major has its type and lengths. -/
theorem Scaled.over_of_rowMajor (hs : Scaled m x i) (hp : Proper m) (hx : (m.get? x).isSome)
    (hd : (m.shapeOf x).isDynamic = false) {t : ElementType} {lens : List Nat}
    (hrow : m.shapeOf i = packedOf t lens) : t ≠ .tuple ∧ lens ≠ [] ∧ Over t lens (m.shapeOf x) := by
  have htype : (m.shapeOf x).elementType = t := by
    rw [← hs.same.type_eq, hrow]
    rfl
  have ht : t ≠ .tuple := by
    have hsingle := hs.single
    rw [isTuple, htype] at hsingle
    simpa using hsingle
  have hlens : (m.shapeOf x).lens = lens := by
    refine lens_eq_of_dims (s := packedOf t lens) (by simpa [isTuple, packedOf] using ht) hs.single
      rfl hd ?_
    rw [← hs.same.dims_eq, hrow]
  have haxes := hs.axes
  rw [dims_of_static hd hs.single, hlens] at haxes
  have hover := hp.over hx hs.single hd
  rw [htype, hlens] at hover
  exact ⟨ht, by simpa using haxes, hover⟩

/-- The rule leaves the module as it is, or puts a product of the same shape in place of the root. -/
theorem rule_expands (h : Accepted m) (hp : Proper m) (hn : m.get? i = some n) (hop : n.op = .mul)
    (hs : Scaled m x i) (hb : b.lookup "x" = some x) (hrow : n.shape.isDynamic = false →
      n.shape = packedOf n.shape.elementType n.shape.lens) :
    (rule.apply ⟨i, b⟩).Leaves m (fun _ m' => m' = m ∨ Expanded (fun _ => True) i m m')
      fun _ _ => False := by
  obtain ⟨u, hu⟩ := List.exists_mem_of_ne_nil _ hs.earlier.1
  have hx : (m.get? x).isSome := h.linked.live_input ((h.linked.mem_users x u).1 hu)
  obtain ⟨k, hk⟩ := Option.isSome_iff_exists.1 hx
  have hshape := shapeOf_of_get? hk
  dsimp only [rule]
  rw [leaves_liftFault_bind (get_of_lookup hb), leaves_bind, leaves_get,
    leaves_liftFault_bind (get_eq_ok_iff.2 hk)]
  split
  · rw [leaves_bind, leaves_report]
    exact .inl rfl
  rename_i hd
  replace hd : (m.shapeOf x).isDynamic = false := by rw [hshape]; simpa using hd
  have hni : m.shapeOf i = n.shape := shapeOf_of_get? hn
  have hroot := hrow (hni ▸ hs.static hd)
  generalize n.shape.elementType = t, n.shape.lens = lens at hroot
  obtain ⟨ht, hlens, hover⟩ := hs.over_of_rowMajor hp hx hd (hni.trans hroot)
  have haddr : (packedOf t lens).addressable = true := hroot ▸ (hp.shape i _ (core?_of_get? hn)).2
  have hout : n.core.op.isOutput = false := by rw [show n.core.op = .mul from hop]; rfl
  have hstart : Expanding (fun _ => True) i m [(x, m.shapeOf x)] m :=
    h.expanding hp (by simp [hn]) [x] (by simpa using hs.earlier)
  rw [← hshape, hover.type_eq, hover.lens_eq]
  refine .bind (hstart.addScalar trivial ht) fun scale m₁ h₁ => ?_
  refine .bind (h₁.insertRepeated trivial (l := scale) (by simp) hlens ht haddr) ?_
  rintro repeated m₂ ⟨r₁, ho₁, hpacked, h₂⟩
  refine .bind (h₂.elementwise trivial (x, m.shapeOf x) [(repeated, r₁)] (.binary .mul)
    (by simp [hover, ho₁]) ht haddr) ?_
  rintro kx m₃ ⟨r₂, ho₂, hcases, h₃⟩
  obtain rfl := ho₂.eq_packedOf_of_shared hcases (a := r₁) (by simp) hpacked
  refine .bind (h₃.elementwise trivial (kx, packedOf t lens) [] (.unary .sigmoid) (by simp [ho₂]) ht
    haddr) ?_
  rintro sigmoid m₄ ⟨r₃, ho₃, hcases, h₄⟩
  obtain rfl := ho₃.eq_packedOf_of_shared hcases (a := packedOf t lens) (by simp) fun _ => rfl
  refine .bind (h₄.elementwise trivial (x, m.shapeOf x) [(sigmoid, packedOf t lens)] (.binary .mul)
    (by simp [hover, ho₃]) ht haddr) ?_
  rintro gelu m₅ ⟨r₄, ho₄, hcases, h₅⟩
  obtain rfl := ho₄.eq_packedOf_of_shared hcases (a := packedOf t lens) (by simp) fun _ => rfl
  replace hroot : n.core.shape = packedOf t lens := hroot
  refine .bind (h₅.replaceWith h (core?_of_get? hn) hout (by simp [hroot]) (hroot ▸ haddr)) ?_
  exact fun _ _ he => .inr he

/-- A sweep that visits the instruction finds a match there. -/
def Reaches (m : Module) (i : InstructionId) : Prop :=
  ∃ done rest m' r, m.order = done ++ i :: rest ∧ Rule.Visits [rule] m done m' ∧
    pattern.match? m' i = .ok (some r)

/-- The products that a sweep finds are row-major. -/
def RowMajorMatches (m : Module) : Prop :=
  ∀ i n, m.get? i = some n → n.op = .mul → n.shape.isDynamic = false → Reaches m i →
    n.shape = packedOf n.shape.elementType n.shape.lens

private theorem rowMajorMatches_of_order (hl : Linked m)
    (h : ∀ i ∈ m.order, ∀ n ∈ m.get? i, n.op = .mul →
    n.shape = packedOf n.shape.elementType n.shape.lens) : RowMajorMatches m := by
  intro i n hn hop _ _
  exact h i ((hl.mem_order i).2 (by simp [hn])) n hn hop

/-- How far a sweep has come: shapes are kept, and nothing that was there has become a product. -/
structure Rewriting (m₀ m : Module) : Prop where
  upholds : Upholds m₀ m
  proper : Proper m
  product : ∀ i n₀ n, m₀.get? i = some n₀ → m.get? i = some n → n.op = .mul → n₀.op = .mul

theorem Rewriting.expanded (h : Rewriting m₀ m) (he : Expanded (fun _ => True) j m m') :
    Rewriting m₀ m' := by
  refine ⟨h.upholds.trans he.upholds, he.proper, fun i n₀ n' hn₀ hn' hop => ?_⟩
  obtain ⟨n, hn, -⟩ := h.upholds.kept i n₀ hn₀
  rcases he.came i n'.core (core?_of_get? hn') with ⟨k, hk, hsame, -⟩ | ⟨hnone, -⟩ | ⟨-, hid⟩
  · cases (core?_of_get? hn).symm.trans hk
    exact h.product i n₀ n hn₀ hn (hsame.symm.trans hop)
  · cases (core?_of_get? hn).symm.trans hnone
  · cases hid.symm.trans hop

theorem Rewriting.visit (h : Rewriting m₀ m) (hn : m.get? i = some n)
    (hrow : ∀ r, pattern.match? m i = .ok (some r) → n.op = .mul → n.shape.isDynamic = false →
      n.shape = packedOf n.shape.elementType n.shape.lens) :
    (Rule.applyFirst [rule] i).Leaves m (fun _ => Rewriting m₀) BrokenConstant := by
  have hm := h.upholds.accepted
  obtain ⟨hmatch, hfault⟩ := match?_spec (binds_pattern hm h.proper i [])
  simp only [Rule.applyFirst, leaves_bind, leaves_get, leaves_liftFault]
  refine ⟨fun r hr => ?_, fun f hf => ⟨f, rfl, hfault f hf⟩⟩
  cases r with
  | none => exact h
  | some r =>
    obtain ⟨rfl, x, hx, -, hscaled, k, hk, hop⟩ := hmatch r hr
    cases hn.symm.trans hk
    refine (rule_expands hm h.proper hn hop hscaled hx (hrow r hr hop)).mono ?_ fun _ _ hf => hf.elim
    rintro _ m' (rfl | he)
    · exact h
    · exact h.expanded he

/-- A sweep keeps all shapes where the products it finds are row-major. -/
theorem rewriting_run (h : Accepted m) (hp : Proper m) (hrow : RowMajorMatches m) :
    gelu.run.Leaves m (fun _ => Rewriting m) BrokenConstant := by
  have hstart : Rewriting m m := by
    refine ⟨h.upholds, hp, fun i n₀ n hn₀ hn hop => ?_⟩
    cases hn.symm.trans hn₀
    exact hop
  simp only [gelu, ofRules, Rule.sweep, leaves_bind, leaves_get, leaves_pure]
  refine Rule.sweepOver_visits (Q := fun _ => Rewriting m) (fun done i rest m' hsplit hv hm' =>
    ⟨fun _ => hm', fun hi => ?_⟩) hstart
  obtain ⟨n, hn⟩ := Option.isSome_iff_exists.1 hi
  have hmem : i ∈ m.order := by simp [hsplit]
  obtain ⟨n₀, hn₀⟩ := Option.isSome_iff_exists.1 ((h.linked.mem_order i).1 hmem)
  obtain ⟨n', hn', hs⟩ := hm'.upholds.kept i n₀ hn₀
  cases hn.symm.trans hn'
  refine hm'.visit hn fun r hr hop => ?_
  rw [hs]
  exact fun hd => hrow i n₀ hn₀ (hm'.product i n₀ n hn₀ hn hop) hd ⟨done, rest, m', r, hsplit, hv, hr⟩

end Gelu

open Gelu

/-- On every module that edits build, that passes its check and in which the products that are found
are row-major, the rewriting ends well, keeps the shapes of all instructions and leaves a module that
passes its check, or an operator breaks down on constant arguments. -/
theorem gelu_keeps_layouts (hb : Built m) (hv : m.validate = .ok ()) (hp : Proper m)
    (hrow : RowMajorMatches m) :
    (∃ changed, (gelu.run m).result = .ok changed ∧ (gelu.run m).state.validate = .ok () ∧
      ∀ i n, m.get? i = some n → ∃ n', (gelu.run m).state.get? i = some n' ∧ n'.shape = n.shape) ∨
    ∃ f, (gelu.run m).result = .error (.broken f) ∧ (gelu.run m).state.ConstantFault f := by
  have hrun := rewriting_run (hb.accepted hv) hp hrow
  cases hr : (gelu.run m).result with
  | ok changed =>
    have h := hrun.ok hr
    exact .inl ⟨changed, rfl, h.upholds.accepted.validate, h.upholds.kept⟩
  | error e =>
    obtain ⟨f, rfl, hf⟩ := hrun.error hr
    exact .inr ⟨f, rfl, hf⟩

/-- The unit of a transposed input, written with constants that are made from the given ones. -/
private def unit (constant : Float → Literal) (spread : Operator) : Module :=
  Mutation.applyAll (Module.empty "main")
    [.addParameter "x" ⟨.float, [2, 3], [1, 2], [], []⟩, .addLiteral (constant 1.4142135623730951),
      .addLiteral (constant 1), .addLiteral (constant 0.5), .add spread [⟨1⟩], .add spread [⟨2⟩],
      .add spread [⟨3⟩], .add .div [⟨0⟩, ⟨4⟩], .add (.unary .erf) [⟨7⟩], .add .add [⟨8⟩, ⟨5⟩],
      .add .mul [⟨0⟩, ⟨6⟩], .add .mul [⟨10⟩, ⟨9⟩], .add (.unary .relu) [⟨11⟩],
      .add (.unary .tanh) [⟨12⟩]]

private def repeatedUnit : Module :=
  unit (Literal.scalar .float) (.multibroadcast [2, 3])

/-- Constants that are repeated share no layout with the input. -/
theorem gelu_keeps_layouts_repeated :
    (gelu.run repeatedUnit).result = .ok true ∧ Built repeatedUnit ∧ repeatedUnit.validate = .ok () ∧
    Proper repeatedUnit ∧ RowMajorMatches repeatedUnit ∧
    ((∃ changed, (gelu.run repeatedUnit).result = .ok changed ∧
        (gelu.run repeatedUnit).state.validate = .ok () ∧
        ∀ i n, repeatedUnit.get? i = some n →
          ∃ n', (gelu.run repeatedUnit).state.get? i = some n' ∧ n'.shape = n.shape) ∨
      ∃ f, (gelu.run repeatedUnit).result = .error (.broken f) ∧
        (gelu.run repeatedUnit).state.ConstantFault f) := by
  have hb : Built repeatedUnit := (Built.empty "main").applyAll _
  have hv : repeatedUnit.validate = .ok () := by decide +kernel
  have hp : Proper repeatedUnit := proper_of_order hb.linked (by decide +kernel)
  have hrow : RowMajorMatches repeatedUnit := rowMajorMatches_of_order hb.linked (by decide +kernel)
  refine ⟨?_, hb, hv, hp, hrow, gelu_keeps_layouts hb hv hp hrow⟩
  unfold gelu rule replaceWith checkRedirect
  simp only [dependsOn_eq_getD 16]
  decide +kernel

private def transposedUnit : Module :=
  unit (fun v => ⟨.packedOf .float [3, 2], Array.replicate 6 (ElementType.float.cast v),
      by rw [Array.size_replicate]; decide⟩)
    (.transpose [1, 0])

/-- Where the constants are transposed like the input, so is the unit. Its users become row-major, and
theirs do not, so the module no longer passes its check. -/
theorem gelu_loses_layout :
    Built transposedUnit ∧ transposedUnit.validate = .ok () ∧ Proper transposedUnit ∧
    (gelu.run transposedUnit).result = .ok true ∧
    (gelu.run transposedUnit).state.validate ≠ .ok () ∧
    transposedUnit.shapeOf ⟨12⟩ = ⟨.float, [2, 3], [1, 2], [], []⟩ ∧
    (gelu.run transposedUnit).state.shapeOf ⟨12⟩ = .packedOf .float [2, 3] := by
  have hb : Built transposedUnit := (Built.empty "main").applyAll _
  refine ⟨hb, by decide +kernel, proper_of_order hb.linked (by decide +kernel), ?_⟩
  unfold gelu rule replaceWith checkRedirect
  simp only [dependsOn_eq_getD 16]
  decide +kernel

end TensorGraph.Pass
