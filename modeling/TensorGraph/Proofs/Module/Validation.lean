import TensorGraph.Module.Validation
import TensorGraph.Proofs.Module.Order

/-! What the check of a module establishes, when users mirror inputs: the order is topological,
outputs are listed last, and every shape is the one that its operator gives. -/
namespace TensorGraph.Module
variable {m : Module} {i : InstructionId} {n : Instruction}

/-- Only the last instruction lists outputs. -/
def OutputLast (m : Module) : Prop :=
  ∀ i n, m.get? i = some n → n.op.isOutput → m.last? = some i

/-- The shape of an instruction is the one inferred from its inputs. -/
def ShapeFits (m : Module) (n : Instruction) : Prop :=
  n.op.inferShape (n.inputs.map m.shapeOf) n.moduleOutputs = .ok n.shape

/-- The last part of the check, which compares the shape with the inferred one. -/
private theorem checkShape_eq_ok (hlive : ∀ j ∈ n.inputs, (m.get? j).isSome) :
    (do
      match n.op.inferShape (← m.shapesOf n.inputs) n.moduleOutputs with
      | .error (.refused (.shape op cause)) => refuse (.invalid m.name (.inference i op cause))
      | .error e => .error e
      | .ok shape =>
        if shape = n.shape then return ()
        else refuse (.invalid m.name (.cachedShape i n.shape n.op.name shape))
      : Except Failure Unit) = .ok () ↔ m.ShapeFits n := by
  have hs : m.shapesOf n.inputs = .ok (n.inputs.map m.shapeOf) :=
    shapesOf_eq_ok_iff.2 ⟨hlive, rfl⟩
  rw [hs, ShapeFits]
  change (match n.op.inferShape (n.inputs.map m.shapeOf) n.moduleOutputs with
      | .error (.refused (.shape op cause)) => refuse (.invalid m.name (.inference i op cause))
      | .error e => .error e
      | .ok shape =>
        if shape = n.shape then return ()
        else refuse (.invalid m.name (.cachedShape i n.shape n.op.name shape))) = .ok () ↔ _
  split
  · simp [*, refuse]
  · simp [*]
  · simp only [*, Except.ok.injEq]
    split <;> simp_all [refuse]

/-- In a linked module the check of an instruction looks at the place of its inputs and its
shape. -/
theorem checkInstruction_eq_ok (hl : Linked m) (hi : m.get? i = some n)
    {seen : List InstructionId} {isLast : Bool} :
    m.checkInstruction seen isLast i = .ok () ↔
      (∀ j ∈ n.inputs, j ∈ seen) ∧ (n.op.isOutput → isLast) ∧
        (n.inputs = [] ∧ n.op.isBuiltin ∨ m.ShapeFits n) := by
  have hlive : ∀ j ∈ n.inputs, (m.get? j).isSome := fun j hj =>
    hl.live_input (inputsOf_of_get? hi ▸ hj)
  have hinput : ∀ j ∈ n.inputs, (do
      if j ∉ seen then refuse (.invalid m.name (.useBeforeDef i j))
      else if i ∉ (← m.get j).users then refuse (.invalid m.name (.missingUser j i))
      else return () : Except Failure Unit) = .ok () ↔ j ∈ seen := by
    intro j hj
    obtain ⟨k, hk⟩ := Option.isSome_iff_exists.1 (hlive j hj)
    have huser : i ∈ k.users := by
      rw [← usersOf_of_get? hk, hl.mem_users, inputsOf_of_get? hi]
      exact hj
    by_cases hs : j ∈ seen
    · simp only [hs, not_true_eq_false, if_false, Except.bind_eq_ok, Except.lift_eq_ok,
        get_eq_ok_iff, hk, iff_true]
      exact ⟨k, rfl, by simp [huser]⟩
    · simp [hs, refuse]
  have huser : ∀ j ∈ n.users, (m.get? j).any fun u => i ∈ u.inputs := by
    intro j hj
    have hin : i ∈ m.inputsOf j := (hl.mem_users i j).1 (usersOf_of_get? hi ▸ hj)
    obtain ⟨k, hk⟩ := Option.isSome_iff_exists.1 (live_of_mem_inputsOf hin)
    simpa [hk, inputsOf_of_get? hk] using hin
  rw [checkInstruction, hi]
  dsimp only
  rw [Except.seq_eq_ok, Except.seq_eq_ok, Except.forM_eq_ok, Except.forM_eq_ok]
  refine and_congr (forall₂_congr hinput) ((and_iff_right fun j hj => ?_).trans ?_)
  · rw [if_pos (huser j hj)]
    rfl
  by_cases ho : n.op.isOutput → isLast
  · have hno : ¬ (n.op.isOutput && !isLast) = true := by simpa using ho
    rw [if_neg hno, and_iff_right ho]
    by_cases hb : n.inputs = [] ∧ n.op.isBuiltin
    · simp [hb]
    · have hno : ¬ (n.inputs.isEmpty && n.op.isBuiltin) = true := by simpa using hb
      rw [if_neg hno, or_iff_right hb]
      exact checkShape_eq_ok hlive
  · have hyes : (n.op.isOutput && !isLast) = true := by simpa using ho
    simp [hyes, ho, refuse]

private theorem checkFrom_eq_ok {seen l : List InstructionId} :
    m.checkFrom seen l = .ok () ↔
      ∀ a i b, l = a ++ i :: b → m.checkInstruction (a.reverse ++ seen) b.isEmpty i = .ok () := by
  induction l generalizing seen with
  | nil => simp [checkFrom]
  | cons j rest ih =>
    rw [checkFrom, Except.seq_eq_ok, ih]
    constructor
    · rintro ⟨hj, hrest⟩ a i b hs
      cases a with
      | nil =>
        obtain ⟨rfl, rfl⟩ := List.cons.inj hs
        exact hj
      | cons k a =>
        obtain ⟨rfl, rfl⟩ := List.cons.inj hs
        simpa using hrest a i b rfl
    · intro h
      exact ⟨h [] j rest rfl, fun a i b hs => by simpa using h (j :: a) i b (by simp [hs])⟩

/-- A linked module is valid when its order is topological, only the last instruction lists
outputs, and shapes are as inferred, operand-free builtins aside. -/
theorem validate_eq_ok (hl : Linked m) :
    m.validate = .ok () ↔ Ordered m ∧ OutputLast m ∧
      ∀ i n, m.get? i = some n → n.inputs = [] ∧ n.op.isBuiltin ∨ m.ShapeFits n := by
  have hget : ∀ i ∈ m.order, ∃ n, m.get? i = some n := fun i hi =>
    Option.isSome_iff_exists.1 ((hl.mem_order i).1 hi)
  rw [validate, if_neg (by simp [hl.size]), checkFrom_eq_ok]
  constructor
  · intro h
    have hat : ∀ i n, m.get? i = some n → ∃ a b, m.order = a ++ i :: b ∧
        (∀ j ∈ n.inputs, j ∈ a) ∧ (n.op.isOutput → b = []) ∧
          (n.inputs = [] ∧ n.op.isBuiltin ∨ m.ShapeFits n) := by
      intro i n hn
      obtain ⟨a, b, hs⟩ := List.append_of_mem ((hl.mem_order i).2 (by simp [hn]))
      have hc := (checkInstruction_eq_ok hl hn).1 (h a i b hs)
      exact ⟨a, b, hs, by simpa using hc.1, by simpa using hc.2.1, hc.2.2⟩
    refine ⟨.of_idxOf_lt hl fun i j hij => ?_, fun i n hn ho => ?_, fun i n hn => ?_⟩
    · obtain ⟨n, hn⟩ := Option.isSome_iff_exists.1 (live_of_mem_inputsOf hij)
      obtain ⟨a, b, hs, hin, -⟩ := hat j n hn
      exact (idxOf_lt_of_split hs hl.nodup).2 (hin i (inputsOf_of_get? hn ▸ hij))
    · obtain ⟨a, b, hs, -, hb, -⟩ := hat i n hn
      simp [last?, hs, hb ho]
    · obtain ⟨a, b, -, -, -, hf⟩ := hat i n hn
      exact hf
  · rintro ⟨ho, hout, hf⟩ a i b hs
    obtain ⟨n, hn⟩ := hget i (by simp [hs])
    refine (checkInstruction_eq_ok hl hn).2 ⟨fun j hj => ?_, fun hop => ?_, hf i n hn⟩
    · have hlt := ho.idxOf_lt hl (inputsOf_of_get? hn ▸ hj : j ∈ m.inputsOf i)
      simpa using (idxOf_lt_of_split hs hl.nodup).1 hlt
    · exact List.isEmpty_iff.2 ((last?_eq_some_iff_of_split hl.nodup hs).1 (hout i n hn hop))

end TensorGraph.Module
