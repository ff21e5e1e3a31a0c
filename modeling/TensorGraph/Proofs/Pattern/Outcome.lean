import TensorGraph.Proofs.Pattern

/-! How a match ends: when each kind of pattern matches, with what bindings, and what it breaks down
on. Lists of patterns are matched in turn, each with the bindings that the last one left. -/
namespace TensorGraph.Pattern
open TensorGraph.Module
variable {m : Module} {i j : InstructionId} {b b' : Bindings} {p : Pattern} {ps : List Pattern}
  {f : Fault}

/-- A pattern that looks for nothing beyond the instruction and its inputs, and binds nothing. -/
def isLeaf : Pattern → Bool
  | arg _ _ | args _ | anyOf _ | allOf _ | noneOf _ | skipBroadcasts _ | bind _ _ => false
  | any | name _ | nameAny _ | hasValue _ | isConstant | usedOnce | standardShape
  | sameShapeAsInput _ => true

/-- Induction on a pattern, with a hypothesis for every member of a list of patterns. -/
@[elab_as_elim]
theorem induction_on_members {P : Pattern → Prop} (p : Pattern)
    (leaf : ∀ p, p.isLeaf = true → P p)
    (arg : ∀ k p, P p → P (arg k p))
    (args : ∀ ps, (∀ p ∈ ps, P p) → P (args ps))
    (anyOf : ∀ ps, (∀ p ∈ ps, P p) → P (anyOf ps))
    (allOf : ∀ ps, (∀ p ∈ ps, P p) → P (allOf ps))
    (noneOf : ∀ ps, (∀ p ∈ ps, P p) → P (noneOf ps))
    (skipBroadcasts : ∀ p, P p → P (skipBroadcasts p))
    (bind : ∀ p name, P p → P (bind p name)) : P p := by
  refine @Pattern.rec P (fun ps => ∀ p ∈ ps, P p) (leaf _ rfl) (fun _ => leaf _ rfl)
    (fun _ => leaf _ rfl) (fun _ => leaf _ rfl) (leaf _ rfl) (leaf _ rfl) (leaf _ rfl)
    (fun _ => leaf _ rfl) arg args anyOf allOf noneOf skipBroadcasts bind ?_ ?_ p
  · exact fun _ h => absurd h List.not_mem_nil
  · exact fun _ _ hp hps => List.forall_mem_cons.2 ⟨hp, hps⟩

/-- A computation goes on after a match only. -/
theorem then_eq_true {r : Tested} {g : Bool × Bindings → Tested}
    (hg : ∀ a a', g (false, a) ≠ .ok (true, a')) :
    r >>= g = .ok (true, b') ↔ ∃ a, r = .ok (true, a) ∧ g (true, a) = .ok (true, b') := by
  rw [Except.bind_eq_ok]
  constructor
  · rintro ⟨⟨_ | _, a⟩, hr, h⟩
    · exact absurd h (hg a b')
    · exact ⟨a, hr, h⟩
  · rintro ⟨a, hr, h⟩
    exact ⟨(true, a), hr, h⟩

private theorem matches?_of_live (hi : (m.get? i).isSome) : p.matches? m i b =
    (do match ← p.test m i b with
      | (true, after) => return (true, after)
      | (false, _) => return (false, b)) := by
  rw [matches?, guarded, contains_eq_isSome, hi]
  rfl

private theorem matches?_of_gone (hi : (m.get? i).isSome = false) :
    p.matches? m i b = .ok (false, b) := by
  rw [matches?, guarded, contains_eq_isSome, hi]
  rfl

theorem matches?_eq_true :
    p.matches? m i b = .ok (true, b') ↔ (m.get? i).isSome ∧ p.test m i b = .ok (true, b') := by
  cases hi : (m.get? i).isSome with
  | false => simp [matches?_of_gone hi]
  | true =>
    rw [matches?_of_live hi, then_eq_true fun a a' h => by cases h]
    simp

private theorem matches?_eq_error (h : p.matches? m i b = .error f) :
    (m.get? i).isSome ∧ p.test m i b = .error f := by
  cases hi : (m.get? i).isSome with
  | false =>
    rw [matches?_of_gone hi] at h
    cases h
  | true =>
    rw [matches?_of_live hi, Except.bind_eq_error] at h
    rcases h with h | ⟨⟨_ | _, a⟩, -, h⟩
    · exact ⟨rfl, h⟩
    · cases h
    · cases h

/-- A match that fails gives the bindings back as they were. -/
theorem eq_of_matches?_false (h : p.matches? m i b = .ok (false, b')) : b' = b :=
  eq_of_guarded_false h

theorem eq_of_leaf {c : Bool} (hp : p.isLeaf = true) (h : p.test m i b = .ok (c, b')) : b' = b := by
  cases p with
  | any =>
    cases h
    rfl
  | name | nameAny | hasValue | isConstant | usedOnce =>
    obtain ⟨_, -, h⟩ := Except.bind_eq_ok.1 h
    cases h
    rfl
  | standardShape =>
    obtain ⟨_, -, h⟩ := Except.bind_eq_ok.1 h
    obtain ⟨_, -, h⟩ := Except.bind_eq_ok.1 h
    cases h
    rfl
  | sameShapeAsInput k =>
    obtain ⟨n, -, h⟩ := Except.bind_eq_ok.1 h
    cases hk : n.inputs[k]? with
    | none =>
      rw [hk] at h
      cases h
      rfl
    | some input =>
      rw [hk] at h
      obtain ⟨_, -, h⟩ := Except.bind_eq_ok.1 h
      cases h
      rfl
  | arg | args | anyOf | allOf | noneOf | skipBroadcasts | bind => cases hp

theorem matches?_arg_eq_true {k : Nat} : (arg k p).matches? m i b = .ok (true, b') ↔
    ∃ n input, m.get? i = some n ∧ n.inputs[k]? = some input ∧
      p.matches? m input b = .ok (true, b') := by
  rw [matches?_eq_true]
  constructor
  · rintro ⟨-, h⟩
    obtain ⟨n, hn, h⟩ := Except.bind_eq_ok.1 h
    cases hk : n.inputs[k]? with
    | none =>
      rw [hk] at h
      cases h
    | some input =>
      rw [hk] at h
      exact ⟨n, input, get_eq_ok_iff.1 hn, hk, h⟩
  · rintro ⟨n, input, hn, hk, h⟩
    refine ⟨by simp [hn], (Except.bind_of_ok (get_eq_ok_iff.2 hn) _).trans ?_⟩
    rw [hk]
    exact h

theorem matches?_skipBroadcasts_eq_true : (skipBroadcasts p).matches? m i b = .ok (true, b') ↔
    ∃ j, underBroadcasts m (m.instructions.size + 1) i = .ok j ∧
      p.matches? m j b = .ok (true, b') := by
  rw [matches?_eq_true]
  constructor
  · rintro ⟨-, h⟩
    exact Except.bind_eq_ok.1 h
  · rintro ⟨j, hj, h⟩
    refine ⟨?_, (Except.bind_of_ok hj _).trans h⟩
    obtain ⟨n, hn, -⟩ := Except.bind_eq_ok.1 hj
    simp [get_eq_ok_iff.1 hn]

/-- A name that stands for the instruction, or for nothing, is bound to it. -/
theorem matches?_bind_eq_true {name : String} : (p.bind name).matches? m i b = .ok (true, b') ↔
    (∀ j, b.lookup name = some j → j = i) ∧
      ∃ after, p.matches? m i b = .ok (true, after) ∧ b' = after.bind name i := by
  have hcheck : (b.lookup name).any (· ≠ i) = true ↔ ¬ ∀ j, b.lookup name = some j → j = i := by
    cases b.lookup name <;> simp
  rw [matches?_eq_true, test]
  constructor
  · rintro ⟨-, h⟩
    split at h
    · cases h
    · rename_i hfree
      rw [hcheck, not_not] at hfree
      obtain ⟨after, hp, h⟩ := (then_eq_true fun a a' h => by cases h).1 h
      cases h
      exact ⟨hfree, after, hp, rfl⟩
  · rintro ⟨hfree, after, hp, rfl⟩
    rw [if_neg (by rw [hcheck, not_not]; exact hfree)]
    exact ⟨(matches?_eq_true.1 hp).1, (then_eq_true fun a a' h => by cases h).2 ⟨after, hp, rfl⟩⟩

/-- The goals match one after the other, each with the bindings that the last one left. -/
def InTurn (m : Module) : List (Pattern × InstructionId) → Bindings → Bindings → Prop
  | [], b, b' => b' = b
  | goal :: goals, b, b' =>
    ∃ after, goal.1.matches? m goal.2 b = .ok (true, after) ∧ InTurn m goals after b'

theorem inTurn_append {goals rest : List (Pattern × InstructionId)} :
    InTurn m (goals ++ rest) b b' ↔ ∃ after, InTurn m goals b after ∧ InTurn m rest after b' := by
  induction goals generalizing b with
  | nil => simp [InTurn]
  | cons goal goals ih =>
    simp only [List.cons_append, InTurn, ih]
    constructor
    · rintro ⟨a, hg, c, hgoals, hrest⟩
      exact ⟨c, ⟨a, hg, hgoals⟩, hrest⟩
    · rintro ⟨c, ⟨a, hg, hgoals⟩, hrest⟩
      exact ⟨a, hg, c, hgoals, hrest⟩

theorem inTurn_singleton : InTurn m [(p, i)] b b' ↔ p.matches? m i b = .ok (true, b') := by
  simp [InTurn]

private theorem testArgs_eq_true {is : List InstructionId} :
    testArgs m ps is b = .ok (true, b') ↔ InTurn m (ps.zip is) b b' := by
  induction ps generalizing is b with
  | nil => simp [testArgs, InTurn, eq_comm]
  | cons p ps ih =>
    cases is with
    | nil => simp [testArgs, InTurn, eq_comm]
    | cons i is =>
      refine (then_eq_true fun a a' h => by cases h).trans ?_
      simp only [List.zip_cons_cons, InTurn, ← ih]
      exact Iff.rfl

/-- Matching patterns on one instruction is matching them on copies of it. -/
theorem testAll_eq_testArgs (ps : List Pattern) (i : InstructionId) (b : Bindings) :
    testAll m ps i b = testArgs m ps (ps.map fun _ => i) b := by
  induction ps generalizing b with
  | nil => rfl
  | cons p ps ih =>
    refine congrArg (p.matches? m i b >>= ·) (funext fun r => ?_)
    obtain ⟨_ | _, after⟩ := r
    · rfl
    · exact ih after

private theorem zip_copies (ps : List Pattern) (i : InstructionId) :
    ps.zip (ps.map fun _ => i) = ps.map fun p => (p, i) := by
  simpa using List.zip_map' (f := id) (g := fun _ => i) (l := ps)

private theorem testAll_eq_true {i : InstructionId} :
    testAll m ps i b = .ok (true, b') ↔ InTurn m (ps.map fun p => (p, i)) b b' := by
  rw [testAll_eq_testArgs, testArgs_eq_true, zip_copies]

theorem matches?_args_eq_true : (args ps).matches? m i b = .ok (true, b') ↔
    ∃ n, m.get? i = some n ∧ n.inputs.length = ps.length ∧
      InTurn m (ps.zip n.inputs) b b' := by
  rw [matches?_eq_true]
  constructor
  · rintro ⟨-, h⟩
    obtain ⟨n, hn, h⟩ := Except.bind_eq_ok.1 h
    dsimp only at h
    split at h
    · cases h
    · rename_i hlen
      exact ⟨n, get_eq_ok_iff.1 hn, not_not.1 hlen, testArgs_eq_true.1 h⟩
  · rintro ⟨n, hn, hlen, h⟩
    refine ⟨by simp [hn], (Except.bind_of_ok (get_eq_ok_iff.2 hn) _).trans ?_⟩
    dsimp only
    rw [if_neg (not_not.2 hlen)]
    exact testArgs_eq_true.2 h

theorem matches?_allOf_eq_true : (allOf ps).matches? m i b = .ok (true, b') ↔
    (m.get? i).isSome ∧ InTurn m (ps.map fun p => (p, i)) b b' := by
  rw [matches?_eq_true, ← testAll_eq_true]
  refine and_congr_right fun _ => (then_eq_true fun a a' h => by cases h).trans ?_
  simp

/-- Alternatives are tried one after the other, with the same bindings. -/
theorem testAny_eq_true {i : InstructionId} : testAny m ps i b = .ok (true, b') ↔
    ∃ failed p rest, ps = failed ++ p :: rest ∧
      (∀ q ∈ failed, q.matches? m i b = .ok (false, b)) ∧ p.matches? m i b = .ok (true, b') := by
  induction ps with
  | nil => simp [testAny]
  | cons p ps ih =>
    have hstep : testAny m (p :: ps) i b = .ok (true, b') ↔
        p.matches? m i b = .ok (true, b') ∨
          p.matches? m i b = .ok (false, b) ∧ testAny m ps i b = .ok (true, b') := by
      refine Except.bind_eq_ok.trans ?_
      constructor
      · rintro ⟨⟨_ | _, a⟩, hp, h⟩
        · cases eq_of_guarded_false hp
          exact .inr ⟨hp, h⟩
        · cases h
          exact .inl hp
      · rintro (hp | ⟨hp, h⟩)
        · exact ⟨(true, b'), hp, rfl⟩
        · exact ⟨(false, b), hp, h⟩
    rw [hstep, ih]
    constructor
    · rintro (hp | ⟨hp, failed, q, rest, rfl, hfailed, hq⟩)
      · exact ⟨[], p, ps, rfl, by simp, hp⟩
      · exact ⟨p :: failed, q, rest, rfl, List.forall_mem_cons.2 ⟨hp, hfailed⟩, hq⟩
    · rintro ⟨_ | ⟨q, failed⟩, r, rest, heq, hfailed, hr⟩
      · cases heq
        exact .inl hr
      · cases heq
        obtain ⟨hp, hfailed⟩ := List.forall_mem_cons.1 hfailed
        exact .inr ⟨hp, failed, r, rest, rfl, hfailed, hr⟩

private theorem testAny_eq_false {i : InstructionId} : testAny m ps i b = .ok (false, b') ↔
    b' = b ∧ ∀ q ∈ ps, q.matches? m i b = .ok (false, b) := by
  induction ps with
  | nil => simp [testAny, eq_comm]
  | cons p ps ih =>
    rw [List.forall_mem_cons, and_left_comm, ← ih]
    refine Except.bind_eq_ok.trans ?_
    constructor
    · rintro ⟨⟨_ | _, a⟩, hp, h⟩
      · cases eq_of_guarded_false hp
        exact ⟨hp, h⟩
      · cases h
    · rintro ⟨hp, h⟩
      exact ⟨(false, b), hp, h⟩

theorem matches?_anyOf_eq_true : (anyOf ps).matches? m i b = .ok (true, b') ↔
    ∃ failed p rest, ps = failed ++ p :: rest ∧
      (∀ q ∈ failed, q.matches? m i b = .ok (false, b)) ∧ p.matches? m i b = .ok (true, b') := by
  rw [matches?_eq_true, ← testAny_eq_true]
  refine ⟨fun h => h.2, fun h => ⟨?_, h⟩⟩
  obtain ⟨failed, p, rest, -, -, hp⟩ := testAny_eq_true.1 h
  exact (matches?_eq_true.1 hp).1

theorem matches?_noneOf_eq_true : (noneOf ps).matches? m i b = .ok (true, b') ↔
    (m.get? i).isSome ∧ b' = b ∧ ∀ q ∈ ps, q.matches? m i b = .ok (false, b) := by
  rw [matches?_eq_true]
  refine and_congr_right fun _ => Except.bind_eq_ok.trans ?_
  constructor
  · rintro ⟨⟨_ | _, a⟩, hany, h⟩
    · cases h
      exact ⟨rfl, (testAny_eq_false.1 hany).2⟩
    · cases h
  · rintro ⟨rfl, hnone⟩
    exact ⟨(false, b'), testAny_eq_false.2 ⟨rfl, hnone⟩, rfl⟩

/-- The evaluation of an instruction that contributes fails, or the layout of its shape cannot be
told. -/
def BreaksOn (m : Module) (i : InstructionId) (f : Fault) : Prop :=
  ∃ j, m.Depends i j ∧
    (m.eval j = .error f ∨ ∃ n, m.get? j = some n ∧ n.shape.isStandard = .error f)

private theorem BreaksOn.of_depends (h : BreaksOn m j f) (hd : m.Depends i j) : BreaksOn m i f := by
  obtain ⟨k, hk, hf⟩ := h
  exact ⟨k, hd.trans hk, hf⟩

private theorem BreaksOn.of_input {n : Instruction} (h : BreaksOn m j f) (hn : m.get? i = some n)
    (hj : j ∈ n.inputs) : BreaksOn m i f :=
  h.of_depends (.single (inputsOf_of_get? hn ▸ hj))

private theorem get_ne_error (hi : (m.get? i).isSome) : m.get i ≠ .error f := by
  intro h
  rw [get_eq_error h] at hi
  cases hi

private theorem breaksOn_of_leaf (hl : Linked m) (hi : (m.get? i).isSome) (hp : p.isLeaf = true)
    (h : p.test m i b = .error f) : BreaksOn m i f := by
  cases p with
  | any => cases h
  | name | nameAny | usedOnce =>
    rcases Except.bind_eq_error.1 h with h | ⟨_, -, h⟩
    · exact absurd h (get_ne_error hi)
    · cases h
  | hasValue | isConstant =>
    rcases Except.bind_eq_error.1 h with h | ⟨_, -, h⟩
    · exact ⟨i, .refl, .inl h⟩
    · cases h
  | standardShape =>
    rcases Except.bind_eq_error.1 h with h | ⟨n, hn, h⟩
    · exact absurd h (get_ne_error hi)
    · rcases Except.bind_eq_error.1 h with h | ⟨_, -, h⟩
      · exact ⟨i, .refl, .inr ⟨n, get_eq_ok_iff.1 hn, h⟩⟩
      · cases h
  | sameShapeAsInput k =>
    rcases Except.bind_eq_error.1 h with h | ⟨n, hn, h⟩
    · exact absurd h (get_ne_error hi)
    · cases hk : n.inputs[k]? with
      | none =>
        rw [hk] at h
        cases h
      | some input =>
        have hin : input ∈ m.inputsOf i := by
          rw [inputsOf_of_get? (get_eq_ok_iff.1 hn)]
          exact List.mem_of_getElem? hk
        rw [hk] at h
        rcases Except.bind_eq_error.1 h with h | ⟨_, -, h⟩
        · exact absurd h (get_ne_error (hl.live_input hin))
        · cases h
  | arg | args | anyOf | allOf | noneOf | skipBroadcasts | bind => cases hp

private theorem exists_of_testArgs_eq_error {is : List InstructionId}
    (h : testArgs m ps is b = .error f) :
    ∃ goal ∈ ps.zip is, ∃ b, goal.1.matches? m goal.2 b = .error f := by
  induction ps generalizing is b with
  | nil => simp [testArgs] at h
  | cons p ps ih =>
    cases is with
    | nil => simp [testArgs] at h
    | cons i is =>
      rcases Except.bind_eq_error.1 h with h | ⟨⟨_ | _, a⟩, -, h⟩
      · exact ⟨(p, i), by simp, b, h⟩
      · cases h
      · obtain ⟨goal, hg, he⟩ := ih h
        exact ⟨goal, List.mem_cons_of_mem _ hg, he⟩

private theorem exists_of_testAll_eq_error {i : InstructionId} (h : testAll m ps i b = .error f) :
    ∃ p ∈ ps, ∃ b, p.matches? m i b = .error f := by
  rw [testAll_eq_testArgs] at h
  obtain ⟨goal, hg, b, he⟩ := exists_of_testArgs_eq_error h
  rw [zip_copies] at hg
  obtain ⟨p, hp, rfl⟩ := List.mem_map.1 hg
  exact ⟨p, hp, b, he⟩

private theorem exists_of_testAny_eq_error {i : InstructionId} (h : testAny m ps i b = .error f) :
    ∃ p ∈ ps, ∃ b, p.matches? m i b = .error f := by
  induction ps generalizing b with
  | nil => cases h
  | cons p ps ih =>
    rcases Except.bind_eq_error.1 h with h | ⟨⟨_ | _, a⟩, -, h⟩
    · exact ⟨p, by simp, b, h⟩
    · obtain ⟨q, hq, he⟩ := ih h
      exact ⟨q, List.mem_cons_of_mem _ hq, he⟩
    · cases h

theorem breaksOn_of_matches? (hl : Linked m) (h : p.matches? m i b = .error f) :
    BreaksOn m i f := by
  induction p using induction_on_members generalizing i b with
  | leaf p hp =>
    obtain ⟨hi, h⟩ := matches?_eq_error h
    exact breaksOn_of_leaf hl hi hp h
  | arg k p ih =>
    obtain ⟨hi, h⟩ := matches?_eq_error h
    rcases Except.bind_eq_error.1 h with h | ⟨n, hn, h⟩
    · exact absurd h (get_ne_error hi)
    · cases hk : n.inputs[k]? with
      | none =>
        rw [hk] at h
        cases h
      | some input =>
        rw [hk] at h
        exact (ih h).of_input (get_eq_ok_iff.1 hn) (List.mem_of_getElem? hk)
  | args ps ih =>
    obtain ⟨hi, h⟩ := matches?_eq_error h
    rcases Except.bind_eq_error.1 h with h | ⟨n, hn, h⟩
    · exact absurd h (get_ne_error hi)
    · dsimp only at h
      split at h
      · cases h
      · obtain ⟨goal, hg, b, he⟩ := exists_of_testArgs_eq_error h
        obtain ⟨hp, hin⟩ := List.of_mem_zip hg
        exact (ih goal.1 hp he).of_input (get_eq_ok_iff.1 hn) hin
  | anyOf ps ih =>
    obtain ⟨p, hp, b, he⟩ := exists_of_testAny_eq_error (matches?_eq_error h).2
    exact ih p hp he
  | allOf ps ih =>
    rcases Except.bind_eq_error.1 (matches?_eq_error h).2 with h | ⟨⟨_ | _, a⟩, -, h⟩
    · obtain ⟨p, hp, b, he⟩ := exists_of_testAll_eq_error h
      exact ih p hp he
    · cases h
    · cases h
  | noneOf ps ih =>
    rcases Except.bind_eq_error.1 (matches?_eq_error h).2 with h | ⟨⟨_ | _, a⟩, -, h⟩
    · obtain ⟨p, hp, b, he⟩ := exists_of_testAny_eq_error h
      exact ih p hp he
    · cases h
    · cases h
  | skipBroadcasts p ih =>
    obtain ⟨hi, h⟩ := matches?_eq_error h
    obtain ⟨j, hj⟩ := exists_underBroadcasts hl (m.instructions.size + 1) hi
    rcases Except.bind_eq_error.1 h with h | ⟨k, hk, h⟩
    · cases hj.symm.trans h
    · exact (ih h).of_depends (depends_of_underBroadcasts hk)
  | bind p name ih =>
    obtain ⟨hi, h⟩ := matches?_eq_error h
    rw [test] at h
    split at h
    · cases h
    · rcases Except.bind_eq_error.1 h with h | ⟨⟨_ | _, a⟩, -, h⟩
      · exact ih h
      · cases h
      · cases h

/-- Going through views ends before they run out, and at an instruction that is no view of one input
itself: each view stands behind what it shows. -/
theorem underBroadcasts_ends (hl : Linked m) (ho : Ordered m) {views : Nat}
    (hi : (m.get? i).isSome) (hviews : m.order.idxOf i < views) :
    ∃ j n, underBroadcasts m views i = .ok j ∧ m.get? j = some n ∧
      ∀ input, n.op.isBroadcast = true → n.inputs ≠ [input] := by
  induction views generalizing i with
  | zero => exact absurd hviews (Nat.not_lt_zero _)
  | succ views ih =>
    obtain ⟨n, hn⟩ := Option.isSome_iff_exists.1 hi
    rw [underBroadcasts, get_eq_ok_iff.2 hn, Except.ok_bind]
    split
    · rename_i input _ hin
      have hinput : input ∈ m.inputsOf i := by simp [inputsOf_of_get? hn, hin]
      have hlt := ho.idxOf_lt hl hinput
      exact ih (hl.live_input hinput) (by omega)
    · rename_i hview
      exact ⟨i, n, rfl, hn, fun input hop hin => hview input hop hin⟩

theorem idxOf_lt_size (hl : Linked m) (hi : (m.get? i).isSome) :
    m.order.idxOf i < m.instructions.size + 1 := by
  have hlt := List.idxOf_lt_length_iff.2 ((hl.mem_order i).2 hi)
  rw [← hl.size] at hlt
  omega

end TensorGraph.Pattern
