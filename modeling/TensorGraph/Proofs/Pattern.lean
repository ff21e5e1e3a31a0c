import Mathlib.Data.List.Induction
import TensorGraph.Pass.Basic
import TensorGraph.Proofs.Module.Accepted
import TensorGraph.Proofs.Module.Evaluation

/-! What a match establishes, one rule for each kind of pattern, and what a sweep of rules leaves. A
pattern breaks down only where the evaluation of a constant does. -/
namespace TensorGraph

namespace Bindings
variable {b b' b'' : Bindings} {name other : String} {i : InstructionId}

/-- Names keep what they stand for. -/
def Grows (b b' : Bindings) : Prop :=
  ∀ name i, b.lookup name = some i → b'.lookup name = some i

theorem Grows.refl (b : Bindings) : b.Grows b := fun _ _ h => h

theorem Grows.trans (h : b.Grows b') (h' : b'.Grows b'') : b.Grows b'' :=
  fun name i hi => h' name i (h name i hi)

theorem lookup_bind (b : Bindings) (name : String) (i : InstructionId) :
    (b.bind name i).lookup name = some i := by
  simp [Bindings.bind]

theorem lookup_bind_of_ne (h : other ≠ name) (b : Bindings) (i : InstructionId) :
    (b.bind name i).lookup other = b.lookup other := by
  rw [Bindings.bind, List.lookup_cons, beq_false_of_ne h]
  change List.lookup other (b.filter _) = _
  induction b with
  | nil => rfl
  | cons e rest ih =>
    by_cases he : e.1 = name
    · have hne : other ≠ e.1 := fun hoe => h (hoe.trans he)
      rw [List.filter_cons_of_neg (by simpa using he), List.lookup_cons, beq_false_of_ne hne, ih]
    · rw [List.filter_cons_of_pos (by simpa using he), List.lookup_cons, List.lookup_cons, ih]

/-- A name is bound again only to what it stood for. -/
theorem Grows.bind (h : b.Grows b') (hname : ∀ j, b.lookup name = some j → j = i) :
    b.Grows (b'.bind name i) := by
  intro other j hj
  by_cases ho : other = name
  · subst ho
    rw [hname j hj, lookup_bind]
  · rw [lookup_bind_of_ne ho]
    exact h other j hj

end Bindings

namespace Pattern
open TensorGraph.Module
variable {m : Module} {i : InstructionId} {b : Bindings} {Q : Bindings → Prop} {p q : Pattern}

/-- Where the pattern matches, the bindings satisfy `Q`. -/
def Yields (m : Module) (r : Tested) (Q : Bindings → Prop) : Prop :=
  (∀ b, r = .ok (true, b) → Q b) ∧ ∀ f, r = .error f → m.ConstantFault f

private theorem yields_ok {c : Bool} (h : c = true → Q b) : Yields m (.ok (c, b)) Q := by
  refine ⟨fun b' hb => ?_, fun f hf => ?_⟩
  · cases hb
    exact h rfl
  · cases hf

theorem Yields.imp {r : Tested} {Q' : Bindings → Prop} (h : Yields m r Q) (hq : ∀ b, Q b → Q' b) :
    Yields m r Q' :=
  ⟨fun b hb => hq b (h.1 b hb), h.2⟩

private theorem yields_bind {α : Type} {x : Except Fault α} {f : α → Tested}
    (hok : ∀ a, x = .ok a → Yields m (f a) Q) (herror : ∀ e, x = .error e → m.ConstantFault e) :
    Yields m (x >>= f) Q := by
  cases x with
  | ok a => exact hok a rfl
  | error e =>
    refine ⟨fun b hb => ?_, fun g hg => ?_⟩
    · cases hb
    · cases hg
      exact herror e rfl

/-- An instruction that is there is found. -/
theorem yields_get {f : Instruction → Tested} (hi : (m.get? i).isSome)
    (h : ∀ n, m.get? i = some n → Yields m (f n) Q) : Yields m (m.get i >>= f) Q :=
  yields_bind (fun n hn => h n (get_eq_ok_iff.1 hn)) fun e he => by
    rw [get_eq_error he] at hi
    cases hi

private theorem yields_then {r : Tested} {f : Bool × Bindings → Tested}
    (h : Yields m r fun b => Yields m (f (true, b)) Q)
    (hf : ∀ b, r = .ok (false, b) → Yields m (f (false, b)) Q) : Yields m (r >>= f) Q := by
  refine yields_bind (fun a ha => ?_) h.2
  obtain ⟨c, b⟩ := a
  cases c with
  | true => exact h.1 b ha
  | false => exact hf b ha

private theorem yields_guarded {before : Bindings} {r : Tested}
    (h : (m.get? i).isSome → Yields m r Q) : Yields m (guarded m i before r) Q := by
  rw [guarded, contains_eq_isSome]
  cases hi : (m.get? i).isSome with
  | false => exact yields_ok (by simp)
  | true =>
    exact yields_then ((h hi).imp fun b hb => yields_ok fun _ => hb) fun _ _ => yields_ok (by simp)

theorem yields_matches? (h : (m.get? i).isSome → Yields m (p.test m i b) Q) :
    Yields m (p.matches? m i b) Q :=
  yields_guarded h

theorem eq_of_guarded_false {before after : Bindings} {r : Tested}
    (h : guarded m i before r = .ok (false, after)) : after = before := by
  rw [guarded] at h
  split at h
  · cases h
    rfl
  · rw [Except.bind_eq_ok] at h
    obtain ⟨⟨c, b⟩, -, h⟩ := h
    cases c <;> cases h
    rfl

theorem yields_any (h : Q b) : Yields m (any.test m i b) Q := by
  exact yields_ok fun _ => h

theorem yields_name {name : String} (hi : (m.get? i).isSome)
    (h : ∀ n, m.get? i = some n → n.name = name → Q b) :
    Yields m ((Pattern.name name).test m i b) Q := by
  exact yields_get hi fun n hn => yields_ok fun he => h n hn (by simpa using he)

theorem yields_evaluated {x : Float}
    (h : ∀ v, m.eval i = .ok (some v) → v.allEqual x = true → Q b) :
    Yields m ((hasValue x).test m i b) Q := by
  refine yields_bind (fun value hv => yields_ok fun he => ?_) fun _ he => eval_eq_error he
  obtain ⟨v, rfl, hall⟩ := (Option.any_eq_true _ _).1 he
  exact h v hv hall

theorem yields_hasValue {x : Float}
    (h : ∀ value, m.HasValue i value → value.allEqual x = true → Q b) :
    Yields m ((hasValue x).test m i b) Q :=
  yields_evaluated fun v hv => h v (hasValue_of_eval hv)

theorem yields_isConstant (h : Q b) : Yields m (isConstant.test m i b) Q :=
  yields_bind (fun _ _ => yields_ok fun _ => h) fun _ he => eval_eq_error he

theorem yields_sameShapeAsInput {k : Nat} (hl : Linked m) (hi : (m.get? i).isSome)
    (h : ∀ n input a, m.get? i = some n → n.inputs[k]? = some input → m.get? input = some a →
      a.shape = n.shape → Q b) : Yields m ((sameShapeAsInput k).test m i b) Q := by
  refine yields_get hi fun n hn => ?_
  cases hk : n.inputs[k]? with
  | none => exact yields_ok (by simp)
  | some input =>
    have hin : input ∈ m.inputsOf i := by
      rw [inputsOf_of_get? hn]
      exact List.mem_of_getElem? hk
    refine yields_get (hl.live_input hin) fun a ha => yields_ok fun he => ?_
    exact h n input a hn hk ha (by simpa using he)

theorem yields_arg {k : Nat} (hi : (m.get? i).isSome)
    (h : ∀ n input, m.get? i = some n → n.inputs[k]? = some input →
      Yields m (p.matches? m input b) Q) : Yields m ((arg k p).test m i b) Q := by
  refine yields_get hi fun n hn => ?_
  cases hk : n.inputs[k]? with
  | none => exact yields_ok (by simp)
  | some input => exact h n input hn hk

theorem yields_argOf {n : Instruction} {k : Nat} (hn : m.get? i = some n)
    (h : ∀ input, n.inputs[k]? = some input → Yields m (p.matches? m input b) Q) :
    Yields m ((arg k p).matches? m i b) Q :=
  yields_matches? fun hi => yields_arg hi fun _ input hn' hinput => by
    cases hn.symm.trans hn'
    exact h input hinput

/-- A name is bound to the instruction, which is the one it stood for before. -/
theorem yields_bound {name : String} (h : (∀ j, b.lookup name = some j → j = i) →
    Yields m (p.matches? m i b) fun b' => Q (b'.bind name i)) :
    Yields m ((p.bind name).test m i b) Q := by
  rw [test]
  split
  · exact yields_ok (by simp)
  · rename_i hfree
    have hp := h fun j hj => by simpa [hj] using hfree
    exact yields_then (hp.imp fun b' hb => yields_ok fun _ => hb) fun _ _ => yields_ok (by simp)

/-- The bindings that a name is added to hold what they held. -/
theorem yields_named {name : String}
    (h : Yields m (p.matches? m i b) fun b' => b.Grows b' ∧ Q (b'.bind name i)) :
    Yields m ((p.bind name).matches? m i b) fun b' => b.Grows b' ∧ Q b' :=
  yields_matches? fun _ => yields_bound fun hname => h.imp fun _ hb => ⟨hb.1.bind hname, hb.2⟩

/-- Two inputs match one by one, and there are no others. -/
theorem yields_args {n : Instruction} (hn : m.get? i = some n)
    (h : ∀ a c, n.inputs = [a, c] →
      Yields m (p.matches? m a b) fun b' => Yields m (q.matches? m c b') Q) :
    Yields m ((args [p, q]).matches? m i b) Q := by
  refine yields_matches? fun _ => ?_
  refine yields_get (by simp [hn]) fun k hk => ?_
  cases hn.symm.trans hk
  dsimp only
  split
  · exact yields_ok (by simp)
  rename_i hlength
  obtain ⟨a, c, hin⟩ := List.length_eq_two.1 (not_not.1 hlength)
  rw [hin]
  refine yields_then ((h a c hin).imp fun b' hb => ?_) fun _ _ => yields_ok (by simp)
  exact yields_then (hb.imp fun b'' hb' => yields_ok fun _ => hb') fun _ _ => yields_ok (by simp)

private theorem yields_testAll_cons {ps : List Pattern}
    (h : Yields m (p.matches? m i b) fun b' => Yields m (testAll m ps i b') Q) :
    Yields m (testAll m (p :: ps) i b) Q := by
  exact yields_then h fun _ _ => yields_ok (by simp)

theorem yields_and (h : Yields m (p.matches? m i b) fun b' => Yields m (q.matches? m i b') Q) :
    Yields m ((p.and q).test m i b) Q := by
  have hall : Yields m (testAll m [p, q] i b) Q := by
    refine yields_testAll_cons (h.imp fun b' hb => yields_testAll_cons ?_)
    exact hb.imp fun b'' hb' => yields_ok fun _ => hb'
  exact yields_then (hall.imp fun b' hb => yields_ok fun _ => hb) fun _ _ => yields_ok (by simp)

theorem yields_or (hp : Yields m (p.matches? m i b) Q) (hq : Yields m (q.matches? m i b) Q) :
    Yields m ((p.or q).test m i b) Q := by
  refine yields_then (hp.imp fun b' hb => yields_ok fun _ => hb) fun b' hb => ?_
  cases eq_of_guarded_false hb
  exact yields_then (hq.imp fun b' hb => yields_ok fun _ => hb) fun _ _ => yields_ok (by simp)

/-- Two inputs match, one way or the other. -/
theorem yields_eitherArg {n : Instruction} {k l : Nat} (hn : m.get? i = some n)
    (h : ∀ a, n.inputs[k]? = some a →
      (Yields m (p.matches? m a b) fun b' => ∀ c, n.inputs[l]? = some c →
        Yields m (q.matches? m c b') Q) ∧
      Yields m (q.matches? m a b) fun b' => ∀ c, n.inputs[l]? = some c →
        Yields m (p.matches? m c b') Q) :
    Yields m ((eitherArg k l p q).matches? m i b) Q := by
  refine yields_matches? fun _ => yields_or ?_ ?_ <;> refine yields_matches? fun _ => yields_and ?_
  · exact yields_argOf hn fun a ha => (h a ha).1.imp fun _ hq => yields_argOf hn hq
  · exact yields_argOf hn fun a ha => (h a ha).2.imp fun _ hp => yields_argOf hn hp

/-- Going through broadcasting views never breaks down. -/
theorem exists_underBroadcasts (hl : Linked m) (views : Nat) (hi : (m.get? i).isSome) :
    ∃ j, underBroadcasts m views i = .ok j := by
  induction views generalizing i with
  | zero => exact ⟨i, rfl⟩
  | succ views ih =>
    obtain ⟨n, hn⟩ := Option.isSome_iff_exists.1 hi
    rw [underBroadcasts, get_eq_ok_iff.2 hn, Except.ok_bind]
    split
    · rename_i input _ hin
      exact ih (hl.live_input (j := i) (by simp [inputsOf_of_get? hn, hin]))
    · exact ⟨i, rfl⟩

theorem yields_skipBroadcasts (hl : Linked m) (hi : (m.get? i).isSome)
    (h : ∀ views j, underBroadcasts m views i = .ok j → Yields m (p.matches? m j b) Q) :
    Yields m ((skipBroadcasts p).test m i b) Q := by
  obtain ⟨j, hj⟩ := exists_underBroadcasts hl (m.instructions.size + 1) hi
  refine yields_bind (fun k hk => h _ k hk) fun f hf => ?_
  cases hj.symm.trans hf

/-- What a broadcasting view takes over from its input holds of all views above an instruction. -/
theorem of_underBroadcasts {P : InstructionId → Prop} {views : Nat} {j : InstructionId}
    (h : underBroadcasts m views i = .ok j) (hj : P j)
    (hview : ∀ i n input, m.get? i = some n → n.op.isBroadcast = true → n.inputs = [input] →
      P input → P i) : P i := by
  induction views generalizing i with
  | zero =>
    cases h
    exact hj
  | succ views ih =>
    rw [underBroadcasts, Except.bind_eq_ok] at h
    obtain ⟨n, hn, h⟩ := h
    split at h
    · rename_i input hop hin
      exact hview i n input (get_eq_ok_iff.1 hn) hop hin (ih h)
    · cases h
      exact hj

/-- The views of a module that passes its check have the shapes that are inferred for them. -/
theorem of_views {P : InstructionId → Prop} {views : Nat} {j : InstructionId} (ha : Accepted m)
    (h : underBroadcasts m views i = .ok j) (hj : P j)
    (hview : ∀ i n input, m.core? i = some n → n.op.isBroadcast = true → n.inputs = [input] →
      n.op.inferShape [m.shapeOf input] n.moduleOutputs = .ok (m.shapeOf i) → P input → P i) :
    P i := by
  refine of_underBroadcasts h hj fun i n input hn hop hin hP => ?_
  have hcore := core?_of_get? hn
  replace hin : n.core.inputs = [input] := hin
  have hfits := ha.fits_of_mem hcore (j := input) (by simp [hin])
  rw [ShapeFits, hin, ← shapeOf_of_core? hcore] at hfits
  exact hview i n.core input hcore hop hin hfits hP

/-- What lies under broadcasting views is depended on. -/
theorem depends_of_underBroadcasts {views : Nat} {j : InstructionId}
    (h : underBroadcasts m views i = .ok j) : m.Depends i j := by
  refine of_underBroadcasts (P := fun i => m.Depends i j) h .refl fun i n input hn _ hin hd => .head ?_ hd
  rw [inputsOf_of_get? hn, hin]
  exact List.mem_singleton_self input

/-- What a match establishes of the bindings, and that nothing but constants breaks down. -/
theorem match?_spec (h : Yields m (p.matches? m i []) Q) :
    (∀ r, p.match? m i = .ok (some r) → r.root = i ∧ Q r.bindings) ∧
      ∀ f, p.match? m i = .error f → m.ConstantFault f := by
  rw [match?]
  cases hm : p.matches? m i [] with
  | error f =>
    refine ⟨fun r hr => (nomatch hr), fun g hg => ?_⟩
    cases hg
    exact h.2 f hm
  | ok a =>
    obtain ⟨c, b⟩ := a
    cases c with
    | false => exact ⟨fun r hr => (nomatch hr), fun f hf => (nomatch hf)⟩
    | true =>
      refine ⟨fun r hr => ?_, fun f hf => (nomatch hf)⟩
      cases hr
      exact ⟨rfl, h.1 b hm⟩

private theorem matches?_of_test {c : Bool} (hi : (m.get? i).isSome) (h : p.test m i b = .ok (c, b)) :
    p.matches? m i b = .ok (c, b) := by
  rw [matches?, guarded, contains_eq_isSome, hi, h]
  cases c <;> rfl

theorem match?_of_matches? {c : Bool} (h : p.matches? m i [] = .ok (c, [])) :
    p.match? m i = .ok (if c then some ⟨i, []⟩ else none) := by
  rw [match?, h]
  cases c <;> rfl

theorem matches?_name {n : Instruction} (hn : m.get? i = some n) (name : String) :
    (Pattern.name name).matches? m i b = .ok (n.name == name, b) :=
  matches?_of_test (by simp [hn]) (Except.bind_of_ok (get_eq_ok_iff.2 hn) _)

theorem matches?_arg {n : Instruction} {k : Nat} {j : InstructionId} {c : Bool}
    (hn : m.get? i = some n) (hj : n.inputs[k]? = some j) (h : p.matches? m j b = .ok (c, b)) :
    (arg k p).matches? m i b = .ok (c, b) := by
  refine matches?_of_test (by simp [hn]) ((Except.bind_of_ok (get_eq_ok_iff.2 hn) _).trans ?_)
  rw [hj]
  exact h

theorem matches?_sameShapeAsInput {n a : Instruction} {k : Nat} {j : InstructionId}
    (hn : m.get? i = some n) (hj : n.inputs[k]? = some j) (ha : m.get? j = some a) :
    (sameShapeAsInput k).matches? m i b = .ok (a.shape == n.shape, b) := by
  refine matches?_of_test (by simp [hn]) ((Except.bind_of_ok (get_eq_ok_iff.2 hn) _).trans ?_)
  rw [hj]
  exact Except.bind_of_ok (get_eq_ok_iff.2 ha) _

theorem matches?_and {c d : Bool} (hi : (m.get? i).isSome) (hp : p.matches? m i b = .ok (c, b))
    (hq : c = true → q.matches? m i b = .ok (d, b)) :
    (p.and q).matches? m i b = .ok (c && d, b) := by
  have hall : testAll m [p, q] i b = .ok (c && d, b) := by
    refine (Except.bind_of_ok hp _).trans ?_
    cases c with
    | false => rfl
    | true =>
      refine (Except.bind_of_ok (hq rfl) _).trans ?_
      cases d <;> rfl
  refine matches?_of_test hi ((Except.bind_of_ok hall _).trans ?_)
  cases c && d <;> rfl

/-- A name alone matches without binding anything. -/
theorem match?_name {n : Instruction} (hn : m.get? i = some n) (name : String) :
    (Pattern.name name).match? m i = .ok (if n.name = name then some ⟨i, []⟩ else none) := by
  rw [match?_of_matches? (matches?_name hn name)]
  simp only [beq_iff_eq]

end Pattern

namespace Rule
open TensorGraph.Action
variable {P : Module → Prop} {E : Failure → Module → Prop}

/-- Where the rule matches, it is applied, and keeps `P`. -/
def Keeps (P : Module → Prop) (E : Failure → Module → Prop) (rule : Rule) : Prop :=
  ∀ m i, P m → (m.get? i).isSome →
    (∀ r, rule.pattern.match? m i = .ok (some r) → (rule.apply r).Leaves m (fun _ => P) E) ∧
      ∀ f, rule.pattern.match? m i = .error f → E (.broken f) m

private theorem applyFirst_leaves {rules : List Rule} (h : ∀ rule ∈ rules, rule.Keeps P E)
    {m : Module} {i : InstructionId} (hm : P m) (hi : (m.get? i).isSome) :
    (applyFirst rules i).Leaves m (fun _ => P) E := by
  induction rules with
  | nil => exact hm
  | cons rule rules ih =>
    obtain ⟨hrule, hrules⟩ := List.forall_mem_cons.1 h
    simp only [applyFirst, leaves_bind, leaves_get, leaves_liftFault]
    refine ⟨fun r hr => ?_, fun f hf => (hrule m i hm hi).2 f hf⟩
    cases r with
    | none => exact ih hrules
    | some r => exact (hrule m i hm hi).1 r hr

theorem leaves_applyFirst_of_some {rule : Rule} {rules : List Rule} {r : Match} {m : Module}
    {i : InstructionId} {Q : Bool → Module → Prop} (h : rule.pattern.match? m i = .ok (some r)) :
    (applyFirst (rule :: rules) i).Leaves m Q E ↔ (rule.apply r).Leaves m Q E := by
  rw [applyFirst, leaves_bind, leaves_get, leaves_liftFault_bind h]

theorem leaves_applyFirst_of_none {rule : Rule} {rules : List Rule} {m : Module} {i : InstructionId}
    {Q : Bool → Module → Prop} (h : rule.pattern.match? m i = .ok none) :
    (applyFirst (rule :: rules) i).Leaves m Q E ↔ (applyFirst rules i).Leaves m Q E := by
  rw [applyFirst, leaves_bind, leaves_get, leaves_liftFault_bind h]

/-- How far a sweep has come: the instructions it has visited, and the module it has then. -/
inductive Visits (rules : List Rule) (m : Module) : List InstructionId → Module → Prop
  | nil : Visits rules m [] m
  | gone {done : List InstructionId} {i : InstructionId} {m' : Module} (h : Visits rules m done m')
      (hi : m'.get? i = none) : Visits rules m (done ++ [i]) m'
  | applied {done : List InstructionId} {i : InstructionId} {m' : Module} {b : Bool}
      (h : Visits rules m done m') (hi : (m'.get? i).isSome)
      (hr : (applyFirst rules i m').result = .ok b) :
      Visits rules m (done ++ [i]) (applyFirst rules i m').state

/-- Where no rule matches, a visit changes nothing. -/
theorem Visits.idle {rules : List Rule} {m m' : Module} {done : List InstructionId} {i : InstructionId}
    (h : Visits rules m done m') (hi : (m'.get? i).isSome)
    (hno : ∀ rule ∈ rules, rule.pattern.match? m' i = .ok none) :
    Visits rules m (done ++ [i]) m' := by
  have hidle : (applyFirst rules i).Leaves m' (fun _ t => t = m') fun _ _ => False := by
    clear h
    induction rules with
    | nil => exact rfl
    | cons rule rules ih =>
      obtain ⟨hrule, hrules⟩ := List.forall_mem_cons.1 hno
      rw [leaves_applyFirst_of_none hrule]
      exact ih hrules
  obtain ⟨changed, hr, hstate⟩ := hidle.exists_ok
  exact hstate ▸ Visits.applied h hi hr

theorem visits_of_idle {rules : List Rule} {m : Module} {done : List InstructionId}
    (h : ∀ i ∈ done, (m.get? i).isSome ∧ ∀ rule ∈ rules, rule.pattern.match? m i = .ok none) :
    Visits rules m done m := by
  induction done using List.reverseRecOn with
  | nil => exact .nil
  | append_singleton done i ih =>
    obtain ⟨hi, hno⟩ := h i (by simp)
    exact (ih fun j hj => h j (by simp [hj])).idle hi hno

theorem Visits.keeps {rules : List Rule} (hrules : ∀ rule ∈ rules, rule.Keeps P E) {m m' : Module}
    {done : List InstructionId} (h : Visits rules m done m') (hm : P m) : P m' := by
  induction h with
  | nil => exact hm
  | gone _ _ ih => exact ih
  | applied _ hi hr ih => exact (applyFirst_leaves hrules ih hi).ok hr

/-- A sweep keeps what each visit keeps, where this may depend on how far it has come. -/
theorem sweepOver_visits {rules : List Rule} {Q : List InstructionId → Module → Prop} {m : Module}
    {is : List InstructionId}
    (h : ∀ done i rest m', is = done ++ i :: rest → Visits rules m done m' → Q done m' →
      (m'.get? i = none → Q (done ++ [i]) m') ∧
        ((m'.get? i).isSome → (applyFirst rules i).Leaves m' (fun _ => Q (done ++ [i])) E))
    (hm : Q [] m) : (sweepOver rules is).Leaves m (fun _ => Q is) E := by
  suffices hrest : ∀ rest done m', is = done ++ rest → Visits rules m done m' → Q done m' →
      (sweepOver rules rest).Leaves m' (fun _ => Q is) E from hrest is [] m rfl .nil hm
  intro rest
  induction rest with
  | nil =>
    intro done m' hsplit _ hQ
    rw [hsplit, List.append_nil]
    exact hQ
  | cons i rest ih =>
    intro done m' hsplit hv hQ
    obtain ⟨hgone, happlied⟩ := h done i rest m' hsplit hv hQ
    have hnext : is = (done ++ [i]) ++ rest := by simp [hsplit]
    simp only [sweepOver, leaves_bind, leaves_get]
    split
    · rename_i hi
      simp only [leaves_bind, leaves_pure]
      refine (happlied hi).result.imp ?_
      rintro b _ ⟨hr, rfl, hQ'⟩
      exact ih _ _ hnext (.applied hv hi hr) hQ'
    · rename_i hi
      simp only [leaves_bind, leaves_pure]
      have hnone : m'.get? i = none := by simpa [Module.contains_eq_isSome] using hi
      exact ih _ _ hnext (.gone hv hnone) (hgone hnone)

private theorem sweepOver_leaves {rules : List Rule} (h : ∀ rule ∈ rules, rule.Keeps P E)
    (is : List InstructionId) {m : Module} (hm : P m) :
    (sweepOver rules is).Leaves m (fun _ => P) E :=
  sweepOver_visits (fun _ _ _ _ _ _ hP => ⟨fun _ => hP, applyFirst_leaves h hP⟩) hm

/-- A sweep keeps what every one of its rules keeps. -/
theorem sweep_leaves {rules : List Rule} (h : ∀ rule ∈ rules, rule.Keeps P E) {m : Module}
    (hm : P m) : (Pass.ofRules name rules).run.Leaves m (fun _ => P) E := by
  simp only [Pass.ofRules, sweep, leaves_bind, leaves_get, leaves_pure]
  exact sweepOver_leaves h m.order hm

end Rule
end TensorGraph
