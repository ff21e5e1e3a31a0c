import Mathlib.Data.List.Induction
import TensorGraph.Proofs.Module.Order

/-! What a module computes under an interpretation of its operators. Sub-modules are part of what an
operator is interpreted by, so nothing is said about how control flow runs them. -/
namespace TensorGraph

/-- A function of the input values for each operator and list of sub-modules. Operators that are
equal get the same function, and copies are the identity. -/
structure Interpretation (V : Type) where
  apply : Operator → List ModuleId → List V → V
  apply_congr : ∀ a b subs vs, (a == b) = true → apply a subs vs = apply b subs vs
  apply_identity : ∀ subs v, apply .identity subs [v] = v
  apply_contiguous : ∀ subs v, apply .contiguous subs [v] = v

namespace Module
variable {V : Type} (I : Interpretation V) (params : String → V)

/-- The value of an instruction; that of a parameter is given by its name. -/
def valueOf (n : Instruction) (vs : List V) : V :=
  match n.parameterName? with
  | some name => params name
  | none => I.apply n.op n.moduleArgs vs

/-- The values of instructions in turn, with those of the instructions before them. -/
def valuesFrom (m : Module) (env : List (InstructionId × V)) :
    List InstructionId → Option (List (InstructionId × V))
  | [] => some env
  | i :: rest => do
    let n ← m.get? i
    let vs ← n.inputs.mapM fun j => env.lookup j
    m.valuesFrom ((i, valueOf I params n vs) :: env) rest

/-- The instructions whose values are the outputs. -/
def outputs (m : Module) : List InstructionId :=
  match m.output? with
  | some i => m.inputsOf i
  | none => m.last?.toList

/-- The values of the outputs, if every instruction finds the values of its inputs. -/
def outputValues (m : Module) : Option (List V) := do
  let env ← m.valuesFrom I params [] m.order
  m.outputs.mapM fun j => env.lookup j

/-- A value for each instruction that agrees with those of its inputs. -/
def IsValuation (m : Module) (v : InstructionId → V) : Prop :=
  ∀ i n, m.core? i = some n → v i = valueOf I params n (n.inputs.map v)

variable {I params} {m m' : Module} {v : InstructionId → V}

private theorem lookup_map_pair {is : List InstructionId} {i : InstructionId} (h : i ∈ is) :
    (is.map fun j => (j, v j)).lookup i = some (v i) := by
  induction is with
  | nil => cases h
  | cons j is ih =>
    rw [List.map_cons, List.lookup_cons]
    by_cases hij : i = j
    · simp [hij]
    · rw [beq_eq_false_iff_ne.2 hij]
      exact ih ((List.mem_cons.1 h).resolve_left hij)

private theorem mapM_lookup {is seen : List InstructionId} (h : ∀ i ∈ is, i ∈ seen) :
    is.mapM (fun j => (seen.map fun j => (j, v j)).lookup j) = some (is.map v) := by
  induction is with
  | nil => rfl
  | cons i is ih =>
    rw [List.mapM_cons, lookup_map_pair (h i (by simp)), ih fun j hj => h j (by simp [hj])]
    rfl

private theorem valuesFrom_eq (hv : IsValuation I params m v) (hl : Linked m) (ho : Ordered m)
    (seen rest : List InstructionId) (hs : m.order = seen.reverse ++ rest) :
    m.valuesFrom I params (seen.map fun j => (j, v j)) rest =
      some (m.order.reverse.map fun j => (j, v j)) := by
  induction rest generalizing seen with
  | nil => simp [valuesFrom, hs]
  | cons i rest ih =>
    obtain ⟨n, hn⟩ := Option.isSome_iff_exists.1 ((hl.mem_order i).1 (by simp [hs]))
    have hin : ∀ j ∈ n.inputs, j ∈ seen := fun j hj => by
      have hlt := ho.idxOf_lt hl (inputsOf_of_get? hn ▸ hj : j ∈ m.inputsOf i)
      simpa using (idxOf_lt_of_split hs hl.nodup).1 hlt
    have hvi : v i = valueOf I params n (n.inputs.map v) := hv i n.core (core?_of_get? hn)
    simp only [valuesFrom, hn, mapM_lookup hin, Option.bind_eq_bind, Option.bind_some, ← hvi]
    rw [← List.map_cons (f := fun j => (j, v j))]
    exact ih _ (by simp [hs])

theorem Linked.outputs_subset (hl : Linked m) {i : InstructionId} (h : i ∈ m.outputs) :
    i ∈ m.order := by
  rw [outputs] at h
  split at h
  · exact hl.input_mem_order h
  · exact List.mem_of_getLast? (Option.mem_toList.1 h)

/-- The shapes of the outputs are those of the instructions that give them. -/
theorem outputShapes_eq (hl : Linked m) : m.outputShapes = m.outputs.map m.shapeOf := by
  have hshape : ∀ i ∈ m.order, (m.get? i).map Instruction.shape = some (m.shapeOf i) := fun i hi => by
    obtain ⟨n, hn⟩ := Option.isSome_iff_exists.1 ((hl.mem_order i).1 hi)
    rw [shapeOf_of_get? hn, hn]
    rfl
  cases ho : m.output? with
  | some i =>
    simp only [outputShapes, outputs, ho]
    rw [List.filterMap_congr fun j hj => hshape j (hl.input_mem_order hj)]
    exact congrFun List.filterMap_eq_map (m.inputsOf i)
  | none =>
    simp only [outputShapes, outputs, ho]
    cases hi : m.last? with
    | none => rfl
    | some i =>
      rw [Option.bind_some, hshape i (List.mem_of_getLast? hi)]
      rfl

theorem outputs_of_last {i : InstructionId} {n : Instruction} (h : m.last? = some i)
    (hn : m.core? i = some n) : m.outputs = if n.op.isOutput then n.inputs else [i] := by
  have hin : m.inputsOf i = n.inputs := by simp [inputsOf_eq_core, hn]
  have hop : (m.get? i).any (fun n => n.op.isOutput) = n.op.isOutput := by
    rw [core?, Option.map_eq_some_iff] at hn
    obtain ⟨k, hk, rfl⟩ := hn
    simp [hk, Instruction.core]
  have ho : m.output? = if n.op.isOutput then some i else none := by
    rw [output?, h, Option.filter_some, hop]
  cases hb : n.op.isOutput <;> simp [outputs, ho, hb, hin, h]

theorem outputs_congr (hlast : m'.last? = m.last?)
    (h : ∀ i, m.last? = some i → m'.core? i = m.core? i) : m'.outputs = m.outputs := by
  cases hi : m.last? with
  | none => simp [outputs, output?, hlast, hi]
  | some i =>
    cases hn : m.core? i with
    | some n => rw [outputs_of_last hi hn, outputs_of_last (hlast.trans hi) ((h i hi).trans hn)]
    | none =>
      have hg : m.get? i = none := by simpa [core?] using hn
      have hg' : m'.get? i = none := by simpa [core?] using (h i hi).trans hn
      simp [outputs, output?, hlast, hi, Option.filter_some, hg, hg']

/-- The outputs of a module in order have the values of any valuation. -/
theorem outputValues_eq (hv : IsValuation I params m v) (hl : Linked m) (ho : Ordered m) :
    m.outputValues I params = some (m.outputs.map v) := by
  have he := valuesFrom_eq hv hl ho [] m.order rfl
  rw [List.map_nil] at he
  rw [outputValues, he]
  exact mapM_lookup fun i hi => List.mem_reverse.2 (hl.outputs_subset hi)

private theorem exists_valuation_prefix (I : Interpretation V) (params : String → V) (hl : Linked m)
    (ho : Ordered m) (a : List InstructionId) : ∀ b, m.order = a ++ b →
    ∃ v, ∀ i ∈ a, ∀ n, m.core? i = some n → v i = valueOf I params n (n.inputs.map v) := by
  induction a using List.reverseRecOn with
  | nil => exact fun _ _ => ⟨fun _ => params "", by simp⟩
  | append_singleton a i ih =>
    intro b hs
    obtain ⟨v, hv⟩ := ih (i :: b) (by simpa using hs)
    have hs : m.order = a ++ i :: b := by simpa using hs
    cases hn : m.core? i with
    | none =>
      refine ⟨v, fun j hj n hj' => ?_⟩
      rcases List.mem_append.1 hj with hj | hj
      · exact hv j hj n hj'
      · rw [List.mem_singleton.1 hj, hn] at hj'
        cases hj'
    | some n =>
      -- no instruction up to `i` uses `i`, so giving it a value disturbs none of them
      have hin : ∀ j ∈ a ++ [i], i ∉ m.inputsOf j := by
        intro j hj hij
        have hlt := ho.idxOf_lt hl hij
        rcases List.mem_append.1 hj with hj | hj
        · exact Nat.lt_asymm hlt ((idxOf_lt_of_split hs hl.nodup).2 hj)
        · exact Nat.lt_irrefl _ (List.mem_singleton.1 hj ▸ hlt)
      refine ⟨Function.update v i (valueOf I params n (n.inputs.map v)), fun j hj k hk => ?_⟩
      have hmap : k.inputs.map (Function.update v i (valueOf I params n (n.inputs.map v))) =
          k.inputs.map v := by
        refine List.map_congr_left fun x hx => Function.update_of_ne ?_ _ _
        rintro rfl
        exact hin j hj (by rwa [inputsOf_eq_core, hk])
      rw [hmap]
      by_cases hji : j = i
      · subst hji
        rw [Function.update_self, Option.some.inj (hn.symm.trans hk)]
      · rw [Function.update_of_ne hji]
        refine hv j ?_ k hk
        rcases List.mem_append.1 hj with hj | hj
        · exact hj
        · exact absurd (List.mem_singleton.1 hj) hji

/-- Every module in order has a valuation. -/
theorem exists_valuation (I : Interpretation V) (params : String → V) (hl : Linked m)
    (ho : Ordered m) : ∃ v, IsValuation I params m v := by
  obtain ⟨v, hv⟩ := exists_valuation_prefix I params hl ho m.order [] (by simp)
  refine ⟨v, fun i n hn => hv i ?_ n hn⟩
  rw [hl.mem_order, ← isSome_core?, hn]
  rfl

end Module
end TensorGraph
