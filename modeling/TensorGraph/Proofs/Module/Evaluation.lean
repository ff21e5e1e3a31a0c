import TensorGraph.Module.Evaluation
import TensorGraph.Proofs.Except

/-! Evaluation of instructions that depend on constants only. What a memo holds are values, and when
evaluation breaks down, an operator does so on constant arguments. -/
namespace TensorGraph.Module
variable {m : Module}

/-- The value that constants give to an instruction. -/
inductive HasValue (m : Module) : InstructionId → Literal → Prop
  | literal {i : InstructionId} {n : Instruction} {v : Literal} (hn : m.get? i = some n)
      (hop : n.op = .literal v) : HasValue m i v
  | computed {i : InstructionId} {n : Instruction} {args : List Literal} {v : Literal}
      (hn : m.get? i = some n) (hargs : List.Forall₂ (HasValue m) n.inputs args)
      (he : n.op.evaluate n.shape args = .ok (some v)) : HasValue m i v

/-- The operator of an instruction breaks down on constant arguments. -/
def ConstantFault (m : Module) (f : Fault) : Prop :=
  ∃ i n args, m.get? i = some n ∧ List.Forall₂ (HasValue m) n.inputs args ∧
    n.op.evaluate n.shape args = .error f

def MemoHolds (m : Module) (memo : Memo) : Prop :=
  ∀ i v, (i, some v) ∈ memo → HasValue m i v

theorem memoHolds_nil (m : Module) : MemoHolds m [] := by simp [MemoHolds]

/-- An evaluation finds nothing but what satisfies `P`, keeps the memo right, and breaks down only
where an operator does. -/
def Finds {α : Type} (m : Module) (P : α → Prop) (r : Except Fault (Option α × Memo)) : Prop :=
  (∀ value memo, r = .ok (value, memo) → (∀ v, value = some v → P v) ∧ MemoHolds m memo) ∧
    ∀ f, r = .error f → ConstantFault m f

theorem finds_ok {α : Type} {P : α → Prop} {value : Option α} {memo : Memo}
    (hv : ∀ v, value = some v → P v) (hm : MemoHolds m memo) :
    Finds m P (.ok (value, memo)) := by
  refine ⟨fun value' memo' h => ?_, fun f h => ?_⟩
  · cases h
    exact ⟨hv, hm⟩
  · cases h

theorem finds_bind {α β : Type} {P : α → Prop} {Q : β → Prop} {r : Except Fault (Option α × Memo)}
    {f : Option α × Memo → Except Fault (Option β × Memo)} (h : Finds m P r)
    (hf : ∀ value memo, (∀ v, value = some v → P v) → MemoHolds m memo → Finds m Q (f (value, memo))) :
    Finds m Q (r >>= f) := by
  cases r with
  | error e =>
    refine ⟨fun _ _ h => ?_, fun f' h' => ?_⟩
    · cases h
    · cases h'
      exact h.2 e rfl
  | ok p =>
    obtain ⟨hv, hm⟩ := h.1 p.1 p.2 rfl
    exact hf p.1 p.2 hv hm

private theorem finds_evalAll {eval : InstructionId → Memo → Except Fault (Option Literal × Memo)}
    (he : ∀ i memo, MemoHolds m memo → Finds m (HasValue m i) (eval i memo))
    (is : List InstructionId) (memo : Memo) (hm : MemoHolds m memo) :
    Finds m (List.Forall₂ (HasValue m) is) (evalAll eval is memo) := by
  induction is generalizing memo with
  | nil =>
    refine finds_ok (fun v hv => ?_) hm
    cases hv
    exact .nil
  | cons i rest ih =>
    rw [evalAll]
    refine finds_bind (he i memo hm) fun value memo' hv hm' => ?_
    cases value with
    | none => exact finds_ok (by simp) hm'
    | some v =>
      refine finds_bind (ih memo' hm') fun vs memo'' hvs hm'' => ?_
      refine finds_ok (fun l hl => ?_) hm''
      obtain ⟨vs', rfl, rfl⟩ := Option.map_eq_some_iff.1 hl
      exact .cons (hv v rfl) (hvs vs' rfl)

private theorem finds_evalDepth (depth : Nat) (i : InstructionId) (memo : Memo)
    (hm : MemoHolds m memo) : Finds m (HasValue m i) (m.evalDepth depth i memo) := by
  induction depth generalizing i memo with
  | zero => exact finds_ok (by simp) hm
  | succ depth ih =>
    have hstore : ∀ value memo, (∀ v, value = some v → HasValue m i v) → MemoHolds m memo →
        Finds m (HasValue m i) (.ok (value, (i, value) :: memo)) := by
      refine fun value memo hv hm => finds_ok hv fun j v hj => ?_
      rcases List.mem_cons.1 hj with he | hj
      · cases he
        exact hv v rfl
      · exact hm j v hj
    rw [evalDepth]
    split
    · rename_i value hl
      refine finds_ok (fun v hv => hm i v ?_) hm
      obtain ⟨front, back, rfl, -⟩ := List.lookup_eq_some_iff.1 hl
      simp [hv]
    split
    · exact finds_ok (by simp) hm
    rename_i n hn
    split
    · rename_i value hop
      exact hstore (some value) memo (fun v hv => Option.some.inj hv ▸ .literal hn hop) hm
    · split
      · exact hstore none memo (by simp) hm
      · refine finds_bind (finds_evalAll ih n.inputs memo hm) fun vs memo' hvs hm' => ?_
        cases vs with
        | none => exact hstore none memo' (by simp) hm'
        | some args =>
          cases he : n.op.evaluate n.shape args with
          | error f =>
            change Finds m _ (n.op.evaluate n.shape args >>= fun value =>
              .ok (value, (i, value) :: memo'))
            rw [he]
            refine ⟨fun _ _ h => (nomatch h), fun g hg => ?_⟩
            cases hg
            exact ⟨i, n, args, hn, hvs args rfl, he⟩
          | ok value =>
            change Finds m _ (n.op.evaluate n.shape args >>= fun value =>
              .ok (value, (i, value) :: memo'))
            rw [he]
            exact hstore value memo' (fun v hv => .computed hn (hvs args rfl) (hv ▸ he)) hm'

theorem finds_evalMemo (i : InstructionId) {memo : Memo} (hm : MemoHolds m memo) :
    Finds m (HasValue m i) (m.evalMemo i memo) :=
  finds_evalDepth _ i memo hm

theorem hasValue_of_eval {i : InstructionId} {v : Literal} (h : m.eval i = .ok (some v)) :
    HasValue m i v := by
  rw [eval, Except.bind_eq_ok] at h
  obtain ⟨⟨value, memo⟩, hr, h⟩ := h
  exact ((finds_evalMemo i (memoHolds_nil m)).1 value memo hr).1 v (Except.ok.inj h)

theorem eval_eq_error {i : InstructionId} {f : Fault} (h : m.eval i = .error f) :
    ConstantFault m f := by
  rw [eval, Except.bind_eq_error] at h
  rcases h with h | ⟨_, -, h⟩
  · exact (finds_evalMemo i (memoHolds_nil m)).2 f h
  · cases h

end TensorGraph.Module
