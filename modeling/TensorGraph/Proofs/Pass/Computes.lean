import TensorGraph.Pass.CommonSubexpression
import TensorGraph.Pass.Identity
import TensorGraph.Proofs.Module.Consistency
import TensorGraph.Proofs.Module.Forward
import TensorGraph.Proofs.Pass.DeadCode
import TensorGraph.Proofs.Semantics

/-! Forwarding identities, merging common subexpressions and removing dead code do not change what a
module computes. -/
namespace TensorGraph.Module
variable {V : Type} {I : Interpretation V} {params : String → V}
variable {m m' : Module} {v : InstructionId → V} {vs : List V} {old new : InstructionId}

theorem valueOf_congr {n n' : Instruction} (hop : n'.op = n.op) (hsubs : n'.moduleArgs = n.moduleArgs)
    (vs : List V) : valueOf I params n' vs = valueOf I params n vs := by
  simp only [valueOf, Instruction.parameterName?, Instruction.parameter?, hop, hsubs]

private theorem valueOf_identity {n : Instruction} (h : n.op = .identity) (x : V) :
    valueOf I params n [x] = x := by
  simp only [valueOf, Instruction.parameterName?, Instruction.parameter?, h]
  exact I.apply_identity _ x

private theorem Forwarded.isValuation (h : Forwarded m old new m') (hne : old ≠ new) (hl : Linked m)
    (hv : IsValuation I params m v) (he : v old = v new) : IsValuation I params m' v := by
  intro j n' hj
  rcases h.core?_cases hne hl hj with hn | ⟨n, hn, hn', -⟩ | ⟨rfl, -, before, after, hr, rfl⟩
  · exact hv j n' hn
  · have hop : n'.op = n.op := by rw [hn']
    have hsubs : n'.moduleArgs = n.moduleArgs := by rw [hn']
    rw [valueOf_congr hop hsubs, hn', map_forward he]
    exact hv j n hn
  · have hop : after.core.op = .identity := hr.op_eq
    have hin : after.core.inputs = [new] := hr.inputs_eq
    rw [hin, List.map_singleton, valueOf_identity hop, he]

private theorem Forwarded.isOutput_eq (h : Forwarded m old new m') (hne : old ≠ new) (hl : Linked m)
    {j : InstructionId} {n n' : Instruction} (hn : m.core? j = some n) (hj : m'.core? j = some n') :
    n'.op.isOutput = n.op.isOutput := by
  rcases h.core?_cases hne hl hj with hk | ⟨k, hk, hn', -⟩ | ⟨rfl, -, before, after, hr, rfl⟩
  · rw [Option.some.inj (hn.symm.trans hk)]
  · rw [hn', Option.some.inj (hn.symm.trans hk)]
  · rw [core?_of_get? hr.get] at hn
    cases hn
    change after.op.isOutput = before.op.isOutput
    rw [hr.op_eq, hr.output]

private theorem Forwarded.outputs_map (h : Forwarded m old new m') (hne : old ≠ new) (hl : Linked m)
    (ho : Ordered m) (hlt : m.order.idxOf new < m.order.idxOf old) (he : v old = v new) :
    m'.outputs.map v = m.outputs.map v := by
  have hlast : m'.last? = m.last? := congrArg List.getLast? (h.order_eq hl ho hlt)
  cases hi : m.last? with
  | none => simp [outputs, output?, hlast, hi]
  | some i =>
    have hl' := (h.change hne).linked hl
    have hm := List.mem_of_getLast? hi
    obtain ⟨n, hn⟩ := Option.isSome_iff_exists.1 ((hl.mem_order i).1 hm)
    have hm' : i ∈ m'.order := List.mem_of_getLast? (hlast.trans hi)
    obtain ⟨n', hn'⟩ := Option.isSome_iff_exists.1 ((hl'.mem_order i).1 hm')
    rw [outputs_of_last hi (core?_of_get? hn), outputs_of_last (hlast.trans hi) (core?_of_get? hn'),
      h.isOutput_eq hne hl (core?_of_get? hn) (core?_of_get? hn')]
    split
    · rename_i hout
      rcases h.core?_cases hne hl (core?_of_get? hn') with hk | ⟨k, hk, hk', -⟩ | ⟨-, -, _, after, hr, hk⟩
      · rw [Option.some.inj ((core?_of_get? hn).symm.trans hk)]
      · rw [hk', Option.some.inj ((core?_of_get? hn).symm.trans hk), map_forward he]
      · have hno := h.isOutput_eq hne hl (core?_of_get? hn) (core?_of_get? hn')
        rw [hk, hout] at hno
        change after.op.isOutput = true at hno
        rw [hr.op_eq] at hno
        cases hno
    · rfl

/-- A module in order whose outputs have the given values. -/
structure Computes (I : Interpretation V) (params : String → V) (m : Module)
    (v : InstructionId → V) (vs : List V) : Prop where
  linked : Linked m
  ordered : Ordered m
  valuation : IsValuation I params m v
  outputs : m.outputs.map v = vs

theorem Computes.outputValues (h : Computes I params m v vs) :
    m.outputValues I params = some vs := by
  rw [outputValues_eq h.valuation h.linked h.ordered, h.outputs]

theorem Computes.forward (h : Computes I params m v vs)
    (hlt : m.order.idxOf new < m.order.idxOf old) (he : v old = v new) :
    (replaceWith old new).Leaves m
      (fun _ m' => Computes I params m' v vs ∧ m'.order = m.order) fun _ _ => True := by
  refine (replaceWith_leaves old new m).mono ?_ fun _ _ _ => trivial
  rintro _ m' (⟨-, rfl⟩ | ⟨hne, hf⟩)
  · exact ⟨h, rfl⟩
  · exact ⟨⟨(hf.change hne).linked h.linked, (hf.change hne).ordered h.linked h.ordered,
      hf.isValuation hne h.linked h.valuation he,
      (hf.outputs_map hne h.linked h.ordered hlt he).trans h.outputs⟩,
      hf.order_eq h.linked h.ordered hlt⟩

end TensorGraph.Module

namespace TensorGraph.Pass
open TensorGraph.Action TensorGraph.Module
variable {V : Type} {I : Interpretation V} {params : String → V}
variable {m m' : Module} {v : InstructionId → V} {vs : List V}

private theorem forward_computes (last : Option InstructionId) (i : InstructionId)
    (h : Computes I params m v vs) :
    (Identity.forward last i).Leaves m (fun _ m' => Computes I params m' v vs) fun _ _ => True := by
  simp only [Identity.forward, leaves_bind, leaves_get, leaves_liftFault, get_eq_ok_iff]
  refine ⟨fun n hn => ?_, fun _ _ => trivial⟩
  split
  · rename_i input hop hin
    split
    · exact h
    have hi : input ∈ m.inputsOf i := by simp [inputsOf_of_get? hn, hin]
    have hv : v i = v input := by
      have hv := h.valuation i _ (core?_of_get? hn)
      have hop' : n.core.op = .identity := hop
      have hin' : n.core.inputs = [input] := hin
      rwa [hin', List.map_singleton, valueOf_identity hop'] at hv
    rw [leaves_bind]
    exact (h.forward (h.ordered.idxOf_lt h.linked hi) hv).imp fun _ _ h' => h'.1
  · exact h

theorem identity_computes (h : Computes I params m v vs) :
    identity.run.Leaves m (fun _ m' => Computes I params m' v vs) fun _ _ => True := by
  simp only [identity, leaves_bind, leaves_get]
  exact leaves_anyOf _ (fun i _ _ h' => forward_computes _ i h') m h

private theorem parameter_of_beq {name : String} {shape : Shape} {op : Operator}
    (h : (Operator.parameter name shape == op) = true) : ∃ t, op = .parameter name t := by
  cases op with
  | parameter name' t =>
    have hb : (name == name' && shape == t) = true := h
    rw [Bool.and_eq_true, beq_iff_eq] at hb
    exact ⟨t, by rw [hb.1]⟩
  | _ => cases h

private theorem parameter_of_beq_right {name : String} {shape : Shape} {op : Operator}
    (h : (op == Operator.parameter name shape) = true) : ∃ t, op = .parameter name t := by
  cases op with
  | parameter name' t =>
    have hb : (name' == name && t == shape) = true := h
    rw [Bool.and_eq_true, beq_iff_eq] at hb
    exact ⟨t, by rw [hb.1]⟩
  | _ => cases h

private theorem parameterName?_eq_of_beq {a b : Instruction} (h : (a.op == b.op) = true) :
    a.parameterName? = b.parameterName? := by
  cases ha : a.parameterName? with
  | some name =>
    obtain ⟨shape, hop⟩ := parameterName?_eq_some ha
    obtain ⟨t, ht⟩ := parameter_of_beq (hop ▸ h)
    simp [Instruction.parameterName?, Instruction.parameter?, ht]
  | none =>
    cases hb : b.parameterName? with
    | none => rfl
    | some name =>
      obtain ⟨shape, hop⟩ := parameterName?_eq_some hb
      obtain ⟨t, ht⟩ := parameter_of_beq_right (hop ▸ h)
      simp [Instruction.parameterName?, Instruction.parameter?, ht] at ha

/-- Equivalent instructions have the same value. -/
theorem value_eq_of_equivalent (hv : IsValuation I params m v) {i j : InstructionId}
    {a b : Instruction} (ha : m.get? j = some a) (hb : m.get? i = some b)
    (h : CommonSubexpression.equivalent a b) : v i = v j := by
  simp only [CommonSubexpression.equivalent, Bool.and_eq_true, beq_iff_eq] at h
  obtain ⟨⟨hop, hin⟩, hsubs⟩ := h
  have hva : v j = valueOf I params a (a.inputs.map v) := hv j a.core (core?_of_get? ha)
  have hvb : v i = valueOf I params b (b.inputs.map v) := hv i b.core (core?_of_get? hb)
  rw [hva, hvb, valueOf, valueOf, parameterName?_eq_of_beq hop, hin, hsubs,
    I.apply_congr a.op b.op _ _ hop]

/-- Instructions listed as they stand in an order. -/
def InOrder (order is : List InstructionId) : Prop :=
  is.Pairwise fun i j => order.idxOf i ≤ order.idxOf j

theorem inOrder_usersOf (hl : Linked m) (j : InstructionId) :
    InOrder m.order (CommonSubexpression.inOrder m (m.usersOf j)) := by
  have hp : (CommonSubexpression.inOrder m (m.usersOf j)).Pairwise
      fun a b => (!m.standsAfter a b) = true := by
    refine List.pairwise_mergeSort (fun a b c => ?_) (fun a b => ?_) _
    · simp only [standsAfter]
      cases m.position? a <;> cases m.position? b <;> cases m.position? c <;> simp
      omega
    · simp only [standsAfter]
      cases m.position? a <;> cases m.position? b <;> simp
      omega
  have hmem : ∀ u ∈ CommonSubexpression.inOrder m (m.usersOf j), u ∈ m.order := fun u hu =>
    hl.user_mem_order ((hl.mem_users j u).1 (List.mem_mergeSort.1 hu))
  refine hp.imp_of_mem fun {a b} ha hb h => ?_
  rw [Bool.not_eq_true', ← Bool.not_eq_true, standsAfter_iff (hmem a ha) (hmem b hb)] at h
  exact Nat.le_of_not_lt h

/-- What an instruction is merged into was met under the same fingerprint, and is still
equivalent. -/
theorem earlier?_spec {seen : CommonSubexpression.Seen} {n : Instruction} {j : InstructionId}
    (h : CommonSubexpression.earlier? m seen n = some j) :
    (CommonSubexpression.fingerprint n, j) ∈ seen ∧
      ∃ a, m.get? j = some a ∧ CommonSubexpression.equivalent a n := by
  rw [CommonSubexpression.earlier?, Option.map_eq_some_iff] at h
  obtain ⟨⟨k, j'⟩, hf, rfl⟩ := h
  have hp := List.find?_some hf
  simp only [Bool.and_eq_true, beq_iff_eq, Option.any_eq_true_iff_get] at hp
  obtain ⟨rfl, hs, he⟩ := hp
  exact ⟨List.mem_of_find?_eq_some hf, _, (Option.some_get hs).symm, he⟩

/-- Merging within instructions in order keeps the values of the outputs and the order. Each one is
merged into one that stands before it. -/
private theorem mergeAll_computes {again : List InstructionId → Module.Edit Bool}
    {order : List InstructionId}
    (hagain : ∀ is m, InOrder order is → Computes I params m v vs → m.order = order →
      (again is).Leaves m (fun _ m' => Computes I params m' v vs ∧ m'.order = order)
        fun _ _ => True)
    (is : List InstructionId) (seen : CommonSubexpression.Seen) (m : Module)
    (hs : InOrder order is) (hseen : ∀ k j, (k, j) ∈ seen → ∀ i ∈ is, order.idxOf j ≤ order.idxOf i)
    (h : Computes I params m v vs) (ho : m.order = order) :
    (CommonSubexpression.mergeAll again seen is).Leaves m
      (fun _ m' => Computes I params m' v vs ∧ m'.order = order) fun _ _ => True := by
  induction is generalizing seen m with
  | nil => exact ⟨h, ho⟩
  | cons i rest ih =>
    obtain ⟨hi, hrest⟩ := List.pairwise_cons.1 hs
    have hskip : ∀ k j, (k, j) ∈ seen → ∀ x ∈ rest, order.idxOf j ≤ order.idxOf x :=
      fun k j hk x hx => hseen k j hk x (List.mem_cons_of_mem _ hx)
    simp only [CommonSubexpression.mergeAll, leaves_bind, leaves_get]
    split
    · exact ih seen m hrest hskip h ho
    rename_i n hn
    split
    · exact ih seen m hrest hskip h ho
    split
    · refine ih _ m hrest (fun k j hk x hx => ?_) h ho
      rcases List.mem_append.1 hk with hk | hk
      · exact hskip k j hk x hx
      · cases List.mem_singleton.1 hk
        exact hi x hx
    rename_i j hj
    obtain ⟨hk, a, ha, he⟩ := earlier?_spec hj
    simp only [leaves_bind, leaves_get, leaves_pure]
    have hle := hseen _ j hk i (List.mem_cons_self ..)
    have hforward : (replaceWith i j).Leaves m
        (fun _ m' => Computes I params m' v vs ∧ m'.order = order) fun _ _ => True := by
      by_cases hij : i = j
      · refine (replaceWith_leaves i j m).mono ?_ fun _ _ _ => trivial
        rintro _ m' (⟨-, rfl⟩ | ⟨hne, -⟩)
        · exact ⟨h, ho⟩
        · exact absurd hij hne
      · have hlt : m.order.idxOf j < m.order.idxOf i := by
          rw [← ho] at hle
          refine Nat.lt_of_le_of_ne hle fun heq => hij ?_
          have hji : j ∈ m.order := (h.linked.mem_order j).2 (by simp [ha])
          exact ((List.idxOf_inj hji).1 heq).symm
        exact ho ▸ h.forward hlt (value_eq_of_equivalent h.valuation ha hn he)
    refine hforward.imp fun _ m₁ h₁ => ?_
    have hs₁ := h₁.2 ▸ inOrder_usersOf h₁.1.linked j
    exact (hagain _ m₁ hs₁ h₁.1 h₁.2).imp fun _ m₂ h₂ => ih seen m₂ hrest hskip h₂.1 h₂.2

private theorem mergeDepth_computes {order : List InstructionId} (depth : Nat) :
    ∀ is m, InOrder order is → Computes I params m v vs → m.order = order →
      (CommonSubexpression.mergeDepth depth is).Leaves m
        (fun _ m' => Computes I params m' v vs ∧ m'.order = order) fun _ _ => True := by
  induction depth with
  | zero => exact fun _ _ _ h ho => ⟨h, ho⟩
  | succ depth ih => exact fun is m hs h ho => mergeAll_computes ih is [] m hs (by simp) h ho

theorem commonSubexpression_computes (h : Computes I params m v vs) :
    commonSubexpression.run.Leaves m (fun _ m' => Computes I params m' v vs) fun _ _ => True := by
  simp only [commonSubexpression, leaves_bind, leaves_get]
  have hs : InOrder m.order m.order :=
    (pairwise_idxOf_lt h.linked.nodup).imp fun hlt => Nat.le_of_lt hlt
  exact (mergeDepth_computes _ m.order m hs h rfl).imp fun _ _ h' => h'.1

theorem deadCode_computes (h : Computes I params m v vs) :
    deadCode.run.Leaves m (fun _ m' => Computes I params m' v vs) fun _ _ => True := by
  refine (DeadCode.runWith_leaves _ h.linked).mono ?_ fun _ _ _ => trivial
  rintro _ m' ⟨alive, hs⟩
  have hcore : ∀ i n, m'.core? i = some n → m.core? i = some n := fun i n hi => by
    rw [hs.core i] at hi
    split at hi
    · exact hi
    · cases hi
  refine ⟨hs.linked, hs.ordered h.ordered, fun i n hi => h.valuation i n (hcore i n hi), ?_⟩
  rw [outputs_congr hs.last?_eq fun i hi => by rw [hs.core i, if_pos (hs.last i hi)]]
  exact h.outputs

end TensorGraph.Pass
