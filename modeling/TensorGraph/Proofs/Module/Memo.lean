import TensorGraph.Proofs.Module.Built
import TensorGraph.Proofs.Module.Values

/-! Evaluation with a memo. The recursion over inputs comes to an end, whatever the memo holds, and a
memo that holds the values of instructions makes no difference: it can be shared by any number of
evaluations, one after another. -/
namespace TensorGraph.Module
open TensorGraph.Instruction
variable {m : Module} {i : InstructionId} {n : Instruction} {memo memo' : Memo} {r : Option Literal}

/-- Inputs evaluated one after another, up to the first that has no value. -/
inductive Collects (run : InstructionId → Memo → Option Literal → Memo → Prop) :
    List InstructionId → Memo → Option (List Literal) → Memo → Prop
  | nil (memo : Memo) : Collects run [] memo (some []) memo
  | stop {i : InstructionId} {rest : List InstructionId} {memo memo' : Memo}
      (h : run i memo none memo') : Collects run (i :: rest) memo none memo'
  | cons {i : InstructionId} {rest : List InstructionId} {memo memo₁ memo₂ : Memo} {v : Literal}
      {vs : Option (List Literal)} (h : run i memo (some v) memo₁)
      (hrest : Collects run rest memo₁ vs memo₂) :
      Collects run (i :: rest) memo (vs.map (v :: ·)) memo₂

/-- An evaluation that comes to an end, with the memo before and after it. -/
inductive Evaluates (m : Module) : InstructionId → Memo → Option Literal → Memo → Prop
  | remembered {i : InstructionId} {memo : Memo} {r : Option Literal} (h : memo.lookup i = some r) :
      Evaluates m i memo r memo
  | absent {i : InstructionId} {memo : Memo} (hnew : memo.lookup i = none) (hn : m.get? i = none) :
      Evaluates m i memo none memo
  | literal {i : InstructionId} {memo : Memo} {n : Instruction} {v : Literal}
      (hnew : memo.lookup i = none) (hn : m.get? i = some n) (hop : n.op = .literal v) :
      Evaluates m i memo (some v) ((i, some v) :: memo)
  | unevaluated {i : InstructionId} {memo : Memo} {n : Instruction}
      (hnew : memo.lookup i = none) (hn : m.get? i = some n) (hop : ∀ v, n.op ≠ .literal v)
      (hno : n.inputs.isEmpty || n.shape.isTuple || n.shape.isDynamic) :
      Evaluates m i memo none ((i, none) :: memo)
  | stopped {i : InstructionId} {memo memo' : Memo} {n : Instruction}
      (hnew : memo.lookup i = none) (hn : m.get? i = some n) (hop : ∀ v, n.op ≠ .literal v)
      (hyes : ¬ (n.inputs.isEmpty || n.shape.isTuple || n.shape.isDynamic))
      (hargs : Collects (Evaluates m) n.inputs memo none memo') :
      Evaluates m i memo none ((i, none) :: memo')
  | computed {i : InstructionId} {memo memo' : Memo} {n : Instruction} {args : List Literal}
      {r : Option Literal}
      (hnew : memo.lookup i = none) (hn : m.get? i = some n) (hop : ∀ v, n.op ≠ .literal v)
      (hyes : ¬ (n.inputs.isEmpty || n.shape.isTuple || n.shape.isDynamic))
      (hargs : Collects (Evaluates m) n.inputs memo (some args) memo')
      (he : n.op.evaluate n.shape args = .ok r) : Evaluates m i memo r ((i, r) :: memo')

private theorem collects_of_evalAll
    {eval : InstructionId → Memo → Except Fault (Option Literal × Memo)}
    {run : InstructionId → Memo → Option Literal → Memo → Prop} {is : List InstructionId}
    {vs : Option (List Literal)}
    (h : ∀ i ∈ is, ∀ memo r memo', eval i memo = .ok (r, memo') → run i memo r memo')
    (he : evalAll eval is memo = .ok (vs, memo')) : Collects run is memo vs memo' := by
  induction is generalizing memo vs with
  | nil =>
    cases he
    exact .nil _
  | cons i rest ih =>
    obtain ⟨hi, hrest⟩ := List.forall_mem_cons.1 h
    rw [evalAll, Except.bind_eq_ok] at he
    obtain ⟨⟨r, memo₁⟩, hr, he⟩ := he
    cases r with
    | none =>
      cases he
      exact .stop (hi memo none memo' hr)
    | some v =>
      obtain ⟨⟨ws, memo₂⟩, hws, he⟩ := Except.bind_eq_ok.1 he
      cases he
      exact .cons (hi memo (some v) memo₁ hr) (ih hrest hws)

private theorem evalAll_of_collects
    {eval : InstructionId → Memo → Except Fault (Option Literal × Memo)}
    {run : InstructionId → Memo → Option Literal → Memo → Prop} {is : List InstructionId}
    {vs : Option (List Literal)}
    (h : ∀ i ∈ is, ∀ memo r memo', run i memo r memo' → eval i memo = .ok (r, memo'))
    (hc : Collects run is memo vs memo') : evalAll eval is memo = .ok (vs, memo') := by
  induction hc with
  | nil memo => rfl
  | stop hi =>
    rw [evalAll, h _ List.mem_cons_self _ _ _ hi, Except.ok_bind]
    rfl
  | cons hi _ ih =>
    rw [evalAll, h _ List.mem_cons_self _ _ _ hi, Except.ok_bind]
    dsimp only
    rw [ih fun j hj => h j (List.mem_cons_of_mem _ hj)]
    rfl

/-- Inputs are within a bound that is one less. -/
theorem input_lt (hl : Linked m) (ho : Ordered m) (hn : m.get? i = some n) {depth : Nat}
    (hd : m.order.idxOf i < depth + 1) {j : InstructionId} (hj : j ∈ n.inputs) :
    m.order.idxOf j < depth :=
  Nat.lt_of_lt_of_le (ho.idxOf_lt hl (inputsOf_of_get? hn ▸ hj)) (Nat.le_of_lt_succ hd)

section Ordered
variable (hl : Linked m) (ho : Ordered m)
include hl ho

/-- As long as the bound exceeds the position of the instruction, it is never reached. -/
theorem evaluates_of_evalDepth {depth : Nat} (hd : m.order.idxOf i < depth)
    (h : m.evalDepth depth i memo = .ok (r, memo')) : Evaluates m i memo r memo' := by
  -- inputs stand earlier, so a bound that is one less still exceeds their positions
  induction depth generalizing i memo r memo' with
  | zero => exact absurd hd (Nat.not_lt_zero _)
  | succ depth ih =>
    rw [evalDepth] at h
    split at h
    · rename_i hr
      cases h
      exact .remembered hr
    rename_i hnew
    split at h
    · rename_i hn
      cases h
      exact .absent hnew hn
    rename_i n hn
    split at h
    · rename_i v hop
      cases h
      exact .literal hnew hn hop
    rename_i hop
    split at h
    · rename_i hno
      cases h
      exact .unevaluated hnew hn hop hno
    rename_i hyes
    obtain ⟨⟨args, memo₁⟩, hargs, he⟩ := Except.bind_eq_ok.1 h
    have hcollected := collects_of_evalAll (fun j hj _ _ _ => ih (input_lt hl ho hn hd hj)) hargs
    cases args with
    | none =>
      cases he
      exact .stopped hnew hn hop hyes hcollected
    | some args =>
      obtain ⟨r', hr, he⟩ := Except.bind_eq_ok.1 he
      cases he
      exact .computed hnew hn hop hyes hcollected hr

private theorem evalDepth_of_evaluates {depth : Nat} (hd : m.order.idxOf i < depth)
    (h : Evaluates m i memo r memo') : m.evalDepth depth i memo = .ok (r, memo') := by
  induction depth generalizing i memo r memo' with
  | zero => exact absurd hd (Nat.not_lt_zero _)
  | succ depth ih =>
    have hcollect : ∀ {n vs memo'}, m.get? i = some n → Collects (Evaluates m) n.inputs memo vs memo' →
        evalAll (m.evalDepth depth) n.inputs memo = .ok (vs, memo') := fun hn =>
      evalAll_of_collects fun j hj _ _ _ => ih (input_lt hl ho hn hd hj)
    cases h with
    | remembered h => rw [evalDepth, h]
    | absent hnew hn => rw [evalDepth, hnew, hn]
    | literal hnew hn hop =>
      simp only [evalDepth, hnew, hn, hop]
      rfl
    | unevaluated hnew hn hop hno =>
      simp only [evalDepth, hnew, hn]
      rw [if_pos hno]
      rfl
    | stopped hnew hn hop hyes hargs =>
      simp only [evalDepth, hnew, hn]
      rw [if_neg hyes, hcollect hn hargs]
      rfl
    | computed hnew hn hop hyes hargs he =>
      simp only [evalDepth, hnew, hn]
      rw [if_neg hyes, hcollect hn hargs, Except.ok_bind]
      dsimp only
      rw [he]
      rfl

/-- What evaluation with a memo does is the recursion without a bound. -/
theorem evalMemo_eq_ok_iff : m.evalMemo i memo = .ok (r, memo') ↔ Evaluates m i memo r memo' := by
  have hd : m.order.idxOf i < m.instructions.size + 1 := by
    rw [hl.size]
    exact Nat.lt_succ_of_le List.idxOf_le_length
  exact ⟨evaluates_of_evalDepth hl ho hd, evalDepth_of_evaluates hl ho hd⟩

end Ordered

/-- No operator breaks down when it is computed on the values of its inputs. -/
def Unbroken (m : Module) : Prop :=
  ∀ i n args, m.get? i = some n → (∀ v, n.op ≠ .literal v) →
    ¬ (n.inputs.isEmpty || n.shape.isTuple || n.shape.isDynamic) →
    List.Forall₂ (fun j v => m.eval j = .ok (some v)) n.inputs args →
    ∃ r, n.op.evaluate n.shape args = .ok r

section Ordered
variable (hl : Linked m) (ho : Ordered m)
include hl ho

private theorem eval_of_get? (hn : m.get? i = some n) :
    m.eval i = n.valueOn (argumentsFrom m.eval n.inputs) := by
  have h := eval_of_core? hl ho (core?_of_get? hn)
  exact h

private theorem Unbroken.exists_eval (h : m.Unbroken) (i : InstructionId) :
    ∃ r, m.eval i = .ok r := by
  induction hp : m.order.idxOf i using Nat.strong_induction_on generalizing i with
  | _ p ih =>
    cases hn : m.get? i with
    | none => exact ⟨none, eval_of_dead (Option.map_eq_none_iff.2 hn)⟩
    | some n =>
      have hinputs : ∀ j ∈ n.inputs, m.eval j = .ok (m.value? j) := by
        intro j hj
        obtain ⟨r, hr⟩ := ih _ (hp ▸ ho.idxOf_lt hl (inputsOf_of_get? hn ▸ hj)) j rfl
        rw [value?, hr]
        rfl
      have hargs := argumentsFrom_of_ok hinputs
      rw [eval_of_get? hl ho hn]
      by_cases hop : ∃ v, n.op = .literal v
      · obtain ⟨v, hop⟩ := hop
        exact ⟨some v, valueOn_of_literal hop⟩
      have hop' : ∀ v, n.op ≠ .literal v := fun v hv => hop ⟨v, hv⟩
      rw [valueOn_of_ne_literal hop', hargs]
      split
      · exact ⟨none, rfl⟩
      rename_i hyes
      rw [Except.ok_bind]
      cases hvs : n.inputs.mapM m.value? with
      | none => exact ⟨none, rfl⟩
      | some args =>
        rw [hvs] at hargs
        exact h i n args hn hop' hyes (argumentsFrom_eq_some.1 hargs)

private theorem unbroken_of_eval (h : ∀ i, ∃ r, m.eval i = .ok r) : m.Unbroken := by
  intro i n args hn hop hyes hargs
  obtain ⟨r, hr⟩ := h i
  rw [eval_of_get? hl ho hn, valueOn_of_ne_literal hop, if_neg hyes,
    argumentsFrom_eq_some.2 hargs] at hr
  exact ⟨r, hr⟩

end Ordered

/-- Evaluations one after another, with one memo for all of them. -/
def evalEach (m : Module) : List InstructionId → Memo → Except Fault (List (Option Literal) × Memo)
  | [], memo => .ok ([], memo)
  | j :: js, memo => m.evalMemo j memo >>= fun p =>
    m.evalEach js p.2 >>= fun q => .ok (p.1 :: q.1, q.2)

section Ordered
variable (hl : Linked m) (ho : Ordered m) (hb : m.Unbroken)
include hl ho hb

private theorem exists_evalMemo_agrees (j : InstructionId) (hm : m.Agrees memo) :
    ∃ r memo', m.evalMemo j memo = .ok (r, memo') ∧ m.eval j = .ok r ∧ m.Agrees memo' := by
  obtain ⟨r, hr⟩ := hb.exists_eval hl ho j
  obtain ⟨memo', hm', he⟩ := (gives_evalMemo hl ho j hm).ok r hr
  exact ⟨r, memo', he, hr, hm'⟩

private theorem exists_evalEach_agrees (js : List InstructionId) (hm : m.Agrees memo) :
    ∃ rs memo', m.evalEach js memo = .ok (rs, memo') ∧ js.mapM m.eval = .ok rs ∧ m.Agrees memo' := by
  induction js generalizing memo with
  | nil => exact ⟨[], memo, rfl, rfl, hm⟩
  | cons j js ih =>
    obtain ⟨r, memo₁, he, hr, hm₁⟩ := exists_evalMemo_agrees hl ho hb j hm
    obtain ⟨rs, memo₂, hes, hrs, hm₂⟩ := ih hm₁
    refine ⟨r :: rs, memo₂, ?_, ?_, hm₂⟩
    · rw [evalEach, he, Except.ok_bind, hes, Except.ok_bind]
    · rw [List.mapM_cons, hr, Except.ok_bind, hrs]
      rfl

end Ordered

/-- In a module that is in order and whose operators do not break down on the values of their inputs,
evaluation with a memo that holds values of instructions is a recursion that comes to an end. It finds
what evaluation without a memo finds, and leaves a memo that holds values of instructions. So a memo
can be handed from one evaluation to the next, in any order, and all of them find what they would find
on their own. -/
theorem memo_transparent (hl : Linked m) (ho : Ordered m) (hb : m.Unbroken) (hm : m.Agrees memo) :
    (∀ j r memo', m.evalMemo j memo = .ok (r, memo') ↔ Evaluates m j memo r memo') ∧
      (∀ j, ∃ r memo', m.evalMemo j memo = .ok (r, memo') ∧ m.eval j = .ok r ∧ m.Agrees memo') ∧
      ∀ js, ∃ rs memo', m.evalEach js memo = .ok (rs, memo') ∧ js.mapM m.eval = .ok rs ∧
        m.Agrees memo' :=
  ⟨fun _ _ _ => evalMemo_eq_ok_iff hl ho, fun j => exists_evalMemo_agrees hl ho hb j hm,
    fun js => exists_evalEach_agrees hl ho hb js hm⟩

/-- A constant that is used by another one, and by an instruction that also uses a parameter. -/
private def sharedOperand : Module :=
  Mutation.applyAll (Module.empty "main")
    [.addParameter "x" (.packedOf .float [2]), .addLiteral Operator.pairLiteral,
      .add (.unary .neg) [⟨1⟩], .add (.binary .add) [⟨2⟩, ⟨0⟩], .add (.binary .mul) [⟨2⟩, ⟨1⟩]]

theorem memo_transparent_shared :
    let known : Memo := [(⟨3⟩, none), (⟨2⟩, some ⟨.packedOf .float [2], #[-1, -2], by decide⟩)]
    Linked sharedOperand ∧ Ordered sharedOperand ∧ sharedOperand.Unbroken ∧
      sharedOperand.Agrees known ∧
      ∃ memo', sharedOperand.evalEach [⟨4⟩, ⟨3⟩, ⟨9⟩, ⟨4⟩] known =
        .ok ([some ⟨.packedOf .float [2], #[-1, -4], by decide⟩, none, none,
          some ⟨.packedOf .float [2], #[-1, -4], by decide⟩], memo') ∧ sharedOperand.Agrees memo' := by
  intro known
  have hbuilt : Built sharedOperand := (Built.empty "main").applyAll _
  have h := hbuilt.accepted (by decide +kernel : sharedOperand.validate = .ok ())
  have hok : ∀ i ∈ sharedOperand.order, (sharedOperand.eval i).isOk = true := by decide +kernel
  have hb := unbroken_of_eval h.linked h.ordered (exists_eval_of_order h.linked hok)
  have hm : sharedOperand.Agrees known := by
    have hvalues : ∀ p ∈ known, sharedOperand.eval p.1 = .ok p.2 := by decide +kernel
    exact hvalues
  obtain ⟨rs, memo', he, hrs, hm'⟩ :=
    (memo_transparent h.linked h.ordered hb hm).2.2 [⟨4⟩, ⟨3⟩, ⟨9⟩, ⟨4⟩]
  have hvalues : [⟨4⟩, ⟨3⟩, ⟨9⟩, ⟨4⟩].mapM sharedOperand.eval =
      .ok [some ⟨.packedOf .float [2], #[-1, -4], by decide⟩, none, none,
        some ⟨.packedOf .float [2], #[-1, -4], by decide⟩] := by decide +kernel
  cases hvalues.symm.trans hrs
  exact ⟨h.linked, h.ordered, hb, hm, memo', he, hm'⟩

end TensorGraph.Module
