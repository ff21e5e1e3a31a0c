import TensorGraph.Module.Evaluation
import TensorGraph.Proofs.Conversion
import TensorGraph.Proofs.Module.Expansion
import TensorGraph.Proofs.Operator.Evaluation

/-! Evaluation without the memo. The value of an instruction follows from what its inputs evaluate to,
and whatever a memo holds already changes nothing about it. -/
namespace TensorGraph

namespace Instruction
variable {value value' : InstructionId → Option Literal} {n n' : Instruction} {v : Literal}
  {arguments : Except Fault (Option (List Literal))}

/-- The value of an instruction, given what the evaluation of its arguments results in. -/
def valueOn (n : Instruction) (arguments : Except Fault (Option (List Literal))) :
    Except Fault (Option Literal) :=
  match n.op with
  | .literal v => .ok (some v)
  | op =>
    if n.inputs.isEmpty || n.shape.isTuple || n.shape.isDynamic then .ok none
    else arguments >>= fun args => args.elim (.ok none) (op.evaluate n.shape)

theorem valueOn_of_literal (h : n.op = .literal v) : n.valueOn arguments = .ok (some v) := by
  rw [valueOn, h]

theorem valueOn_of_ne_literal (h : ∀ v, n.op ≠ .literal v) :
    n.valueOn arguments =
      if n.inputs.isEmpty || n.shape.isTuple || n.shape.isDynamic then .ok none
      else arguments >>= fun args => args.elim (.ok none) (n.op.evaluate n.shape) := by
  rw [valueOn]
  split
  · exact absurd ‹_› (h _)
  · rfl

private theorem valueOn_eq_some (h : ∀ v, n.op ≠ .literal v) :
    n.valueOn arguments = .ok (some v) ↔
      n.inputs ≠ [] ∧ n.shape.isTuple = false ∧ n.shape.isDynamic = false ∧
        ∃ args, arguments = .ok (some args) ∧ n.op.evaluate n.shape args = .ok (some v) := by
  rw [valueOn_of_ne_literal h]
  by_cases hno : n.inputs.isEmpty || n.shape.isTuple || n.shape.isDynamic
  · rw [if_pos hno]
    simp only [Bool.or_eq_true, List.isEmpty_iff] at hno
    refine ⟨fun he => (nomatch he), fun ⟨hin, ht, hd, _⟩ => ?_⟩
    rcases hno with (hno | hno) | hno
    · exact absurd hno hin
    · cases ht.symm.trans hno
    · cases hd.symm.trans hno
  · rw [if_neg hno]
    simp only [Bool.or_eq_true, List.isEmpty_iff, not_or, Bool.not_eq_true] at hno
    cases arguments with
    | error f => exact ⟨fun he => (nomatch he), fun ⟨_, _, _, _, he, _⟩ => (nomatch he)⟩
    | ok args =>
      rw [Except.ok_bind]
      cases args <;> simp [hno]

/-- What several instructions evaluate to, up to the first that has no value. -/
def argumentsFrom (result : InstructionId → Except Fault (Option Literal)) :
    List InstructionId → Except Fault (Option (List Literal))
  | [] => .ok (some [])
  | i :: rest => result i >>= fun r =>
    r.elim (.ok none) fun v => argumentsFrom result rest >>= fun vs => .ok (vs.map (v :: ·))

theorem argumentsFrom_of_ok {result : InstructionId → Except Fault (Option Literal)}
    {is : List InstructionId} (h : ∀ i ∈ is, result i = .ok (value i)) :
    argumentsFrom result is = .ok (is.mapM value) := by
  induction is with
  | nil => rfl
  | cons i rest ih =>
    obtain ⟨hi, hrest⟩ := List.forall_mem_cons.1 h
    rw [argumentsFrom, hi, ih hrest, List.mapM_cons]
    cases value i with
    | none => rfl
    | some v => cases rest.mapM value <;> rfl

/-- All have values if each of them has one. -/
theorem argumentsFrom_eq_some {result : InstructionId → Except Fault (Option Literal)}
    {is : List InstructionId} {args : List Literal} :
    argumentsFrom result is = .ok (some args) ↔
      List.Forall₂ (fun i v => result i = .ok (some v)) is args := by
  induction is generalizing args with
  | nil => simp [argumentsFrom, eq_comm]
  | cons i rest ih =>
    rw [argumentsFrom, Except.bind_eq_ok, List.forall₂_cons_left_iff]
    constructor
    · rintro ⟨r, hr, h⟩
      cases r with
      | none => cases h
      | some v =>
        obtain ⟨vs, hrest, h⟩ := Except.bind_eq_ok.1 h
        cases vs with
        | none => cases h
        | some vs =>
          cases h
          exact ⟨v, vs, hr, ih.1 hrest, rfl⟩
    · rintro ⟨v, vs, hr, hrest, rfl⟩
      exact ⟨some v, hr, Except.bind_eq_ok.2 ⟨some vs, ih.2 hrest, rfl⟩⟩

/-- The value of an instruction, given those of its inputs. -/
def valueFrom (value : InstructionId → Option Literal) (n : Instruction) :
    Except Fault (Option Literal) :=
  n.valueOn (.ok (n.inputs.mapM value))

private theorem valueFrom_of_literal (h : n.op = .literal v) : n.valueFrom value = .ok (some v) :=
  valueOn_of_literal h

theorem valueFrom_eq_some (h : ∀ v, n.op ≠ .literal v) :
    n.valueFrom value = .ok (some v) ↔
      n.inputs ≠ [] ∧ n.shape.isTuple = false ∧ n.shape.isDynamic = false ∧
        ∃ args, n.inputs.mapM value = some args ∧ n.op.evaluate n.shape args = .ok (some v) := by
  simp only [valueFrom, valueOn_eq_some h, Except.ok.injEq]

theorem mapM_eq_some {is : List InstructionId} {args : List Literal} :
    is.mapM value = some args ↔ is.map value = args.map some := by
  induction is generalizing args with
  | nil => cases args <;> simp
  | cons i rest ih =>
    cases args with
    | nil => simp [Option.bind_eq_some_iff]
    | cons v vs => simp [Option.bind_eq_some_iff, ih]

/-- The value of an instruction depends on its operator, its shape and the values of its inputs. -/
theorem valueFrom_congr (hop : n'.op = n.op) (hs : n'.shape = n.shape)
    (hin : n'.inputs.map value' = n.inputs.map value) : n'.valueFrom value' = n.valueFrom value := by
  have hargs : n'.inputs.mapM value' = n.inputs.mapM value := by
    have hmap : (n'.inputs.map value').mapM id = (n.inputs.map value).mapM id := by rw [hin]
    rwa [List.mapM_map, List.mapM_map] at hmap
  have hempty : n'.inputs.isEmpty = n.inputs.isEmpty := by
    rw [← List.isEmpty_map, hin, List.isEmpty_map]
  rw [valueFrom, valueFrom, valueOn, valueOn, hop, hs, hargs, hempty]

end Instruction

/-- A literal that an instruction of this shape evaluates to. -/
structure Literal.Fills (v : Literal) (s : Shape) : Prop where
  made : v.Made
  shape : v.shape = s.asStandard
  single : s.isTuple = false
  static : s.isDynamic = false

theorem Literal.Fills.filled {v : Literal} {s : Shape} (h : v.Fills s) :
    some <$> Literal.ofComputed s.asStandard v.data = .ok (some v) := by
  rw [← h.shape, h.made.ofComputed_eq]
  rfl

namespace Module
open TensorGraph.Instruction
variable {m : Module} {value : InstructionId → Option Literal} {known known' : InstructionId → Prop}
  {i : InstructionId} {n : Instruction} {memo : Memo}

/-- What a memo holds is what evaluation would find. -/
def Agrees (m : Module) (memo : Memo) : Prop :=
  ∀ p ∈ memo, m.eval p.1 = .ok p.2

theorem agrees_nil (m : Module) : m.Agrees [] := by simp [Agrees]

theorem Agrees.cons {r : Option Literal} (h : m.Agrees memo) (hi : m.eval i = .ok r) :
    m.Agrees ((i, r) :: memo) :=
  List.forall_mem_cons.2 ⟨hi, h⟩

theorem Agrees.lookup {r : Option Literal} (h : m.Agrees memo) (hl : memo.lookup i = some r) :
    m.eval i = .ok r := by
  obtain ⟨front, back, rfl, -⟩ := List.lookup_eq_some_iff.1 hl
  exact h (i, r) (by simp)

/-- An evaluation with a memo ends as given, and keeps the memo in agreement. -/
structure Gives {α : Type} (m : Module) (r : Except Fault α) (x : Except Fault (α × Memo)) : Prop where
  ok : ∀ a, r = .ok a → ∃ memo, m.Agrees memo ∧ x = .ok (a, memo)
  error : ∀ f, r = .error f → x = .error f

private theorem gives_ok {α : Type} (a : α) (h : m.Agrees memo) :
    m.Gives (.ok a) (.ok (a, memo)) where
  ok b hb := ⟨memo, h, by cases hb; rfl⟩
  error f hf := by cases hf

theorem Gives.bind {α β : Type} {r : Except Fault α} {x : Except Fault (α × Memo)}
    {f : α → Except Fault β} {g : α × Memo → Except Fault (β × Memo)} (h : m.Gives r x)
    (hg : ∀ a memo, r = .ok a → m.Agrees memo → m.Gives (f a) (g (a, memo))) :
    m.Gives (r >>= f) (x >>= g) := by
  cases r with
  | error e =>
    rw [h.error e rfl]
    exact ⟨fun a ha => (nomatch ha), fun f hf => by cases hf; rfl⟩
  | ok a =>
    obtain ⟨memo, hm, rfl⟩ := h.ok a rfl
    exact hg a memo rfl hm

/-- Evaluation finds the same with any memo, if it may follow inputs far enough. -/
def Found (m : Module) (i : InstructionId) : Prop :=
  ∀ depth memo, m.order.idxOf i < depth → m.Agrees memo →
    m.Gives (m.eval i) (m.evalDepth depth i memo)

private theorem gives_evalAll {eval : InstructionId → Memo → Except Fault (Option Literal × Memo)}
    {is : List InstructionId}
    (h : ∀ i ∈ is, ∀ memo, m.Agrees memo → m.Gives (m.eval i) (eval i memo))
    (memo : Memo) (hm : m.Agrees memo) :
    m.Gives (argumentsFrom m.eval is) (evalAll eval is memo) := by
  induction is generalizing memo with
  | nil => exact gives_ok _ hm
  | cons i rest ih =>
    rw [argumentsFrom, evalAll]
    refine (h i (by simp) memo hm).bind fun r memo' _ hm' => ?_
    cases r with
    | none => exact gives_ok none hm'
    | some v =>
      refine (ih (fun j hj => h j (by simp [hj])) memo' hm').bind
        (g := fun p => .ok (p.1.map (v :: ·), p.2)) fun vs memo'' _ hm'' => gives_ok _ hm''

/-- What evaluation does when the memo does not have the instruction yet. -/
theorem evalDepth_of_found (hn : m.core? i = some n) {depth : Nat}
    (hinputs : ∀ j ∈ n.inputs, m.Found j ∧ m.order.idxOf j < depth)
    (hm : m.Agrees memo) (hnew : memo.lookup i = none) :
    ∃ x, m.Gives (n.valueOn (argumentsFrom m.eval n.inputs)) x ∧
      m.evalDepth (depth + 1) i memo = x >>= fun p => .ok (p.1, (i, p.1) :: p.2) := by
  obtain ⟨k, hk, rfl⟩ := exists_get?_of_core? hn
  simp only [evalDepth, hnew, hk]
  change ∃ x, m.Gives (k.valueOn (argumentsFrom m.eval k.inputs)) x ∧ _
  split
  · rename_i v hop
    rw [valueOn_of_literal hop]
    exact ⟨_, gives_ok _ hm, rfl⟩
  · rename_i hop
    rw [valueOn_of_ne_literal hop]
    split
    · exact ⟨_, gives_ok _ hm, rfl⟩
    · have hargs : m.Gives (argumentsFrom m.eval k.inputs) (evalAll (m.evalDepth depth) k.inputs memo) :=
        gives_evalAll (fun j hj memo hm => (hinputs j hj).1 depth memo (hinputs j hj).2 hm) memo hm
      refine ⟨_, hargs.bind (g := fun p => p.1.elim (.ok (none, p.2)) fun args =>
        k.op.evaluate k.shape args >>= fun r => .ok (r, p.2)) fun args memo' _ hm' => ?_, ?_⟩
      · cases args with
        | none => exact gives_ok none hm'
        | some args =>
          change m.Gives (k.op.evaluate k.shape args) (k.op.evaluate k.shape args >>= _)
          cases k.op.evaluate k.shape args with
          | error f => exact ⟨fun r hr => (nomatch hr), fun f hf => by cases hf; rfl⟩
          | ok r => exact gives_ok r hm'
      · cases evalAll (m.evalDepth depth) k.inputs memo with
        | error f => rfl
        | ok p =>
          obtain ⟨args, memo'⟩ := p
          cases args with
          | none => rfl
          | some args =>
            change k.op.evaluate k.shape args >>= _ = (k.op.evaluate k.shape args >>= _) >>= _
            cases k.op.evaluate k.shape args <;> rfl

theorem eval_of_dead (hn : m.core? i = none) : m.eval i = .ok none := by
  have hdead : m.get? i = none := Option.map_eq_none_iff.1 hn
  rw [eval, evalMemo, evalDepth, hdead]
  rfl

/-- Evaluation breaks down nowhere if it does so for nothing in the order. -/
theorem exists_eval_of_order (hl : Linked m) (h : ∀ i ∈ m.order, (m.eval i).isOk = true)
    (i : InstructionId) : ∃ r, m.eval i = .ok r := by
  cases hn : m.core? i with
  | none => exact ⟨none, eval_of_dead hn⟩
  | some n =>
    have hok := h i (mem_order_of_core? hl hn)
    cases he : m.eval i with
    | ok r => exact ⟨r, rfl⟩
    | error f =>
      rw [he] at hok
      cases hok

private theorem found_of_dead (hn : m.core? i = none) : m.Found i := by
  intro depth memo hd hm
  obtain ⟨depth, rfl⟩ := Nat.exists_eq_add_one_of_ne_zero (Nat.ne_zero_of_lt hd)
  have hdead : m.get? i = none := Option.map_eq_none_iff.1 hn
  rw [evalDepth]
  split
  · rename_i r hl
    rw [hm.lookup hl]
    exact gives_ok r hm
  · rw [hdead, eval_of_dead hn]
    exact gives_ok none hm

/-- An instruction evaluates to what follows from its inputs, when those are found. -/
theorem eval_eq_valueOn (hl : Linked m) (hn : m.core? i = some n) (hinputs : ∀ j ∈ n.inputs, m.Found j) :
    m.eval i = n.valueOn (argumentsFrom m.eval n.inputs) := by
  have hlt : ∀ j ∈ n.inputs, m.Found j ∧ m.order.idxOf j < m.instructions.size := by
    intro j hj
    have hlive := hl.input_mem_order (inputsOf_of_core? hn ▸ hj)
    rw [hl.size]
    exact ⟨hinputs j hj, List.idxOf_lt_length_iff.2 hlive⟩
  obtain ⟨x, hx, he⟩ := evalDepth_of_found hn hlt (agrees_nil m) rfl
  rw [eval, evalMemo, he]
  cases hr : n.valueOn (argumentsFrom m.eval n.inputs) with
  | error f =>
    rw [hx.error f hr]
    rfl
  | ok r =>
    obtain ⟨memo, -, rfl⟩ := hx.ok r hr
    rfl

private theorem found_of_inputs (hl : Linked m) (hn : m.core? i = some n)
    (hinputs : ∀ j ∈ n.inputs, m.Found j ∧ m.order.idxOf j < m.order.idxOf i) : m.Found i := by
  intro depth memo hd hm
  obtain ⟨depth, rfl⟩ := Nat.exists_eq_add_one_of_ne_zero (Nat.ne_zero_of_lt hd)
  cases hl' : memo.lookup i with
  | some r =>
    rw [evalDepth, hl', hm.lookup hl']
    exact gives_ok r hm
  | none =>
    have hlt : ∀ j ∈ n.inputs, m.Found j ∧ m.order.idxOf j < depth := fun j hj =>
      ⟨(hinputs j hj).1, Nat.lt_of_lt_of_le (hinputs j hj).2 (Nat.le_of_lt_succ hd)⟩
    obtain ⟨x, hx, he⟩ := evalDepth_of_found hn hlt hm hl'
    have heval := eval_eq_valueOn hl hn fun j hj => (hinputs j hj).1
    rw [← heval] at hx
    rw [he]
    refine ⟨fun r hr => ?_, fun f hf => ?_⟩
    · obtain ⟨memo', hm', rfl⟩ := hx.ok r hr
      exact ⟨_, hm'.cons hr, rfl⟩
    · rw [hx.error f hf]
      rfl

section Ordered
variable (hl : Linked m) (ho : Ordered m)
include hl ho

theorem found (i : InstructionId) : m.Found i := by
  induction hp : m.order.idxOf i using Nat.strong_induction_on generalizing i with
  | _ p ih =>
    cases hn : m.core? i with
    | none => exact found_of_dead hn
    | some n =>
      refine found_of_inputs hl hn fun j hj => ?_
      have hlt := ho.idxOf_lt hl (inputsOf_of_core? hn ▸ hj)
      exact ⟨ih _ (hp ▸ hlt) j rfl, hlt⟩

/-- A memo in agreement changes nothing. -/
theorem gives_evalMemo (i : InstructionId) (hm : m.Agrees memo) :
    m.Gives (m.eval i) (m.evalMemo i memo) := by
  refine found hl ho i _ memo ?_ hm
  rw [hl.size]
  exact Nat.lt_succ_of_le List.idxOf_le_length

/-- Evaluation as a recursion over inputs. -/
theorem eval_of_core? (hn : m.core? i = some n) :
    m.eval i = n.valueOn (argumentsFrom m.eval n.inputs) :=
  eval_eq_valueOn hl hn fun j _ => found hl ho j

end Ordered

def valueFrom (m : Module) (value : InstructionId → Option Literal) (i : InstructionId) :
    Except Fault (Option Literal) :=
  (m.core? i).elim (.ok none) (Instruction.valueFrom value)

/-- The known instructions have the values that follow from those of their inputs, which are known as
well. -/
structure Valued (m : Module) (known : InstructionId → Prop) (value : InstructionId → Option Literal) :
    Prop where
  value_eq : ∀ i, known i → m.valueFrom value i = .ok (value i)
  closed : ∀ i, known i → ∀ j ∈ m.inputsOf i, known j

theorem Valued.of_core? (h : m.Valued known value) (hi : known i) (hn : m.core? i = some n) :
    n.valueFrom value = .ok (value i) := by
  have hvalue := h.value_eq i hi
  rwa [valueFrom, hn] at hvalue

theorem Valued.of_dead (h : m.Valued known value) (hi : known i) (hn : m.core? i = none) :
    value i = none := by
  have hvalue := h.value_eq i hi
  rw [valueFrom, hn] at hvalue
  exact (Except.ok.inj hvalue).symm

section Ordered
variable (hl : Linked m) (ho : Ordered m)
include hl ho

/-- Evaluation finds the values that follow from one another. -/
theorem Valued.eval_eq (h : m.Valued known value) (hi : known i) : m.eval i = .ok (value i) := by
  induction hp : m.order.idxOf i using Nat.strong_induction_on generalizing i with
  | _ p ih =>
    cases hn : m.core? i with
    | none => rw [eval_of_dead hn, h.of_dead hi hn]
    | some n =>
      have hinputs : ∀ j ∈ n.inputs, m.eval j = .ok (value j) := by
        intro j hj
        rw [← inputsOf_of_core? hn] at hj
        exact ih _ (hp ▸ ho.idxOf_lt hl hj) (h.closed i hi j hj) rfl
      rw [eval_of_core? hl ho hn, argumentsFrom_of_ok hinputs]
      exact h.of_core? hi hn

/-- What evaluation finds follows from one another. -/
theorem valued_of_eval (hv : ∀ i, known i → m.eval i = .ok (value i))
    (hclosed : ∀ i, known i → ∀ j ∈ m.inputsOf i, known j) : m.Valued known value := by
  refine ⟨fun i hi => ?_, hclosed⟩
  rw [← hv i hi, valueFrom]
  cases hn : m.core? i with
  | none => exact (eval_of_dead hn).symm
  | some n =>
    have hinputs : ∀ j ∈ n.inputs, m.eval j = .ok (value j) := fun j hj =>
      hv j (hclosed i hi j (inputsOf_of_core? hn ▸ hj))
    rw [eval_of_core? hl ho hn, argumentsFrom_of_ok hinputs]
    rfl

end Ordered

/-- Every instruction has the value that follows from those of its inputs. -/
def Valuation (m : Module) (value : InstructionId → Option Literal) : Prop :=
  m.Valued (fun _ => True) value

/-- The value of an instruction, if evaluation finds one. -/
def value? (m : Module) (i : InstructionId) : Option Literal :=
  (m.eval i).toOption.join

theorem value?_eq_some {v : Literal} : m.value? i = some v ↔ m.eval i = .ok (some v) := by
  rw [value?]
  cases m.eval i with
  | error f => simp [Except.toOption]
  | ok r => simp [Except.toOption]

/-- The values that evaluation finds follow from one another, whatever becomes of the rest. -/
theorem Accepted.valued (h : Accepted m) : m.Valued (fun i => (m.value? i).isSome) m.value? := by
  have heval : ∀ i, (m.value? i).isSome → ∃ v, m.eval i = .ok (some v) := by
    intro i hi
    obtain ⟨v, hv⟩ := Option.isSome_iff_exists.1 hi
    exact ⟨v, value?_eq_some.1 hv⟩
  refine valued_of_eval h.linked h.ordered (fun i hi => ?_) fun i hi j hj => ?_
  · obtain ⟨v, hv⟩ := heval i hi
    rw [hv, value?_eq_some.2 hv]
  · obtain ⟨v, hv⟩ := heval i hi
    obtain ⟨n, hn⟩ := exists_core?_of_live (live_of_mem_inputsOf hj)
    rw [inputsOf_of_core? hn] at hj
    rw [eval_of_core? h.linked h.ordered hn] at hv
    have hop : ∀ w, n.op ≠ .literal w := fun w hw => by
      rw [h.inputs_of_literal hn hw] at hj
      cases hj
    obtain ⟨-, -, -, args, hargs, -⟩ := (valueOn_eq_some hop).1 hv
    obtain ⟨w, -, hw⟩ := Except.exists_of_mem_left (argumentsFrom_eq_some.1 hargs) hj
    rw [value?_eq_some.2 hw]
    rfl

/-- A new instruction gets its value, and the others keep theirs. -/
theorem Valued.place (h : m.Valued known value) (hl : Linked m) {p : Nat} {r : Option Literal}
    (hin : ∀ j ∈ n.inputs, (m.get? j).isSome) (hknown : ∀ i ≠ m.nextId, known' i ↔ known i)
    (hr : known' m.nextId → n.valueFrom value = .ok r ∧ ∀ j ∈ n.inputs, known j) :
    (m.place p n).Valued known' (Function.update value m.nextId r) := by
  have hold : ∀ j, (m.get? j).isSome → j ≠ m.nextId := by
    rintro j hj rfl
    simp [get?_nextId] at hj
  have hmap : ∀ is : List InstructionId, (∀ j ∈ is, (m.get? j).isSome) →
      is.map (Function.update value m.nextId r) = is.map value := fun is his =>
    List.map_congr_left fun j hj => Function.update_of_ne (hold j (his j hj)) _ _
  refine ⟨fun i hi => ?_, fun i hi j hj => ?_⟩
  · rw [valueFrom, core?_place]
    split
    · rename_i he
      subst he
      rw [Function.update_self, ← (hr hi).1]
      exact Instruction.valueFrom_congr rfl rfl (hmap _ hin)
    · rename_i hne
      have hi := (hknown i hne).1 hi
      rw [Function.update_of_ne hne]
      cases hn : m.core? i with
      | none => exact congrArg Except.ok (h.of_dead hi hn).symm
      | some k =>
        refine (Instruction.valueFrom_congr rfl rfl (hmap _ fun j hj => ?_)).trans (h.of_core? hi hn)
        exact hl.live_input (inputsOf_of_core? hn ▸ hj)
  · rw [inputsOf_eq_core, core?_place] at hj
    split at hj
    · rename_i he
      subst he
      exact (hknown j (hold j (hin j hj))).2 ((hr hi).2 j hj)
    · rename_i hne
      rw [← inputsOf_eq_core] at hj
      exact (hknown j (hold j (hl.live_input hj))).2 (h.closed i ((hknown i hne).1 hi) j hj)

/-- A value that is computed fills the shape of the instruction. -/
theorem fills_of_valueFrom {v : Literal} (hop : ∀ w, n.op ≠ .literal w)
    (h : n.valueFrom value = .ok (some v)) : v.Fills n.shape := by
  obtain ⟨-, ht, hd, args, -, he⟩ := (Instruction.valueFrom_eq_some hop).1 h
  obtain ⟨hmade, hs⟩ := Operator.filled_evaluate hop v he
  exact ⟨hmade, hs, ht, hd⟩

/-- A known value is a literal of the shape of the instruction. -/
theorem Valued.made (h : m.Valued known value) (ha : Accepted m)
    (hp : Proper m) (hi : known i) {v : Literal} (hv : value i = some v) :
    v.Made ∧ v.shape = (m.shapeOf i).asStandard := by
  cases hn : m.core? i with
  | none => cases hv.symm.trans (h.of_dead hi hn)
  | some n =>
    have hvalue := h.of_core? hi hn
    rw [hv] at hvalue
    rw [shapeOf_of_core? hn]
    by_cases hop : ∃ w, n.op = .literal w
    · obtain ⟨w, hop⟩ := hop
      rw [Instruction.valueFrom_of_literal hop] at hvalue
      cases hvalue
      have hmade := hp.constant i n v hn hop
      rw [(ha.own i n hn).literal v hop]
      exact ⟨hmade, hmade.asStandard.symm⟩
    · have hfills := fills_of_valueFrom (fun w hw => hop ⟨w, hw⟩) hvalue
      exact ⟨hfills.made, hfills.shape⟩

/-- Copying a literal gives the literal. -/
theorem valueFrom_copy {v : Literal} {j : InstructionId} (hop : n.op = .identity ∨ n.op = .contiguous)
    (hin : n.inputs = [j]) (hfills : v.Fills n.shape) (hj : value j = some v) :
    n.valueFrom value = .ok (some v) := by
  have hne : ∀ w, n.op ≠ .literal w := by rcases hop with hop | hop <;> simp [hop]
  refine (Instruction.valueFrom_eq_some hne).2
    ⟨by simp [hin], hfills.single, hfills.static, [v], by simp [hin, hj], ?_⟩
  rcases hop with hop | hop <;> rw [hop] <;> exact hfills.filled

/-- Values stay when an instruction is forwarded to one with the same value. -/
theorem Valued.forward {m' : Module} {old new : InstructionId} (h : m.Valued known value)
    (ha : Accepted m) (hf : Forwarded m old new m') (hlt : m.order.idxOf new < m.order.idxOf old)
    (hs : m.shapeOf old = m.shapeOf new)
    (hold : known old → known new ∧ ∃ v, value old = some v ∧ value new = some v ∧
      v.Fills (m.shapeOf old)) : m'.Valued known value := by
  have hne : old ≠ new := fun he => Nat.lt_irrefl _ (he ▸ hlt)
  have hst := hf.standing ha hlt hs
  refine ⟨fun i hi => ?_, fun i hi j hj => ?_⟩
  · rw [valueFrom]
    rcases hst.core?_cases ha.linked i with ⟨hn, hn'⟩ | ⟨n, n', hn, hn'⟩
    · rw [hn']
      exact congrArg Except.ok (h.of_dead hi hn).symm
    rw [hn']
    have hkept := hst.shape i n n' hn hn'
    change n'.valueFrom value = _
    rcases hf.core?_cases hne ha.linked hn' with
      he | ⟨k, hk, he, hmem, -⟩ | ⟨rfl, -, before, after, hr, rfl⟩
    · exact h.of_core? hi he
    · cases hn.symm.trans hk
      obtain ⟨-, v, hvold, hvnew, -⟩ := hold (h.closed i hi old (inputsOf_of_core? hn ▸ hmem))
      have hop : n'.op = n.op := by rw [he]
      have hin : n'.inputs.map value = n.inputs.map value := by
        rw [he]
        exact map_forward (hvold.trans hvnew.symm) _
      exact (Instruction.valueFrom_congr hop hkept hin).trans (h.of_core? hi hn)
    · obtain ⟨-, v, hvold, hvnew, hfills⟩ := hold hi
      rw [hvold]
      refine valueFrom_copy (.inl hr.op_eq) hr.inputs_eq ?_ hvnew
      rw [hkept, ← shapeOf_of_core? hn]
      exact hfills
  · obtain ⟨n', hn'⟩ := exists_core?_of_live (live_of_mem_inputsOf hj)
    rw [inputsOf_of_core? hn'] at hj
    rcases hf.core?_cases hne ha.linked hn' with
      he | ⟨k, hk, he, hmem, -⟩ | ⟨rfl, -, before, after, hr, rfl⟩
    · exact h.closed i hi j (inputsOf_of_core? he ▸ hj)
    · have hinputs := h.closed i hi
      rw [inputsOf_of_core? hk] at hinputs
      rw [he] at hj
      obtain ⟨a, hain, rfl⟩ := List.mem_map.1 hj
      split
      · exact (hold (hinputs old hmem)).1
      · exact hinputs a hain
    · replace hj : j ∈ after.inputs := hj
      rw [hr.inputs_eq, List.mem_singleton] at hj
      exact hj ▸ (hold hi).1

end Module
end TensorGraph
