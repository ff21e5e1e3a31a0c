import TensorGraph.Proofs.Module.Forward
import TensorGraph.Proofs.Module.Outputs
import TensorGraph.Proofs.Operator.Inference

/-! Modules in which every shape is the one inferred, and what they show of themselves. -/
namespace TensorGraph.Module
variable {m m' m'' : Module} {i : InstructionId} {n : Instruction}

/-- A module in order, with distinct parameter names and outputs listed last, in which all shapes
are as inferred. -/
structure Valid (m : Module) : Prop where
  linked : Linked m
  ordered : Ordered m
  output_last : OutputLast m
  names : DistinctNames m
  fits : ∀ i n, m.core? i = some n → m.ShapeFits n

/-- A valid module whose shapes and constants are as they can be made. -/
structure Typed (m : Module) : Prop extends Valid m where
  shapes : ∀ i n, m.core? i = some n → n.shape.Made
  literals : ∀ i n v, m.core? i = some n → n.op = .literal v → v.Made

theorem Valid.fits_of_get? (h : Valid m) (hn : m.get? i = some n) : m.ShapeFits n :=
  h.fits i n.core (core?_of_get? hn)

theorem Typed.made_of_get? (h : Typed m) (hn : m.get? i = some n) : n.shape.Made :=
  h.shapes i n.core (core?_of_get? hn)

theorem Valid.validate (h : Valid m) : m.validate = .ok () :=
  (validate_eq_ok h.linked).2 ⟨h.ordered, h.output_last, fun _ _ hn => .inr (h.fits_of_get? hn)⟩

theorem Valid.addressable (h : Valid m) (hn : m.get? i = some n) : n.shape.addressable = true :=
  (Operator.inferShape_eq_ok.1 (h.fits_of_get? hn)).2

theorem core?_empty (name : String) (i : InstructionId) : (Module.empty name).core? i = none := by
  rw [core?, get?]
  exact congrArg _ (Arena.get?_empty i.index)

theorem valid_empty (name : String) : Valid (Module.empty name) := by
  refine ⟨linked_empty name, ordered_empty name, fun i n hn => ?_, distinctNames_empty name,
    fun i n hn => ?_⟩
  · cases (core?_empty name i).symm.trans (core?_of_get? hn)
  · cases (core?_empty name i).symm.trans hn

theorem exists_get?_of_core? (h : m.core? i = some n) : ∃ k, m.get? i = some k ∧ n = k.core := by
  obtain ⟨k, hk, he⟩ := Option.map_eq_some_iff.1 h
  exact ⟨k, hk, he.symm⟩

theorem shapeOf_of_core? (h : m.core? i = some n) : m.shapeOf i = n.shape := by
  rw [shapeOf, h]
  rfl

theorem live_of_core? (h : m.core? i = some n) : (m.get? i).isSome := by
  rw [← isSome_core?, h]
  rfl

theorem exists_core?_of_live (h : (m.get? i).isSome) : ∃ n, m.core? i = some n :=
  Option.isSome_iff_exists.1 (by rwa [isSome_core?])

theorem mem_order_of_core? (hl : Linked m) (h : m.core? i = some n) : i ∈ m.order :=
  (hl.mem_order i).2 (live_of_core? h)

theorem exists_core?_of_mem_order (hl : Linked m) (h : i ∈ m.order) : ∃ n, m.core? i = some n :=
  exists_core?_of_live ((hl.mem_order i).1 h)

theorem inputsOf_of_core? (h : m.core? i = some n) : m.inputsOf i = n.inputs := by
  rw [inputsOf_eq_core, h]
  rfl

/-- The name and shape of a parameter. -/
def parameterOf? (m : Module) (i : InstructionId) : Option (String × Shape) :=
  (m.core? i).bind Instruction.parameter?

theorem parameterShapes_eq (m : Module) : m.parameterShapes = m.order.filterMap m.parameterOf? := by
  refine congrArg (List.filterMap · m.order) (funext fun i => ?_)
  rw [parameterOf?, core?]
  cases m.get? i <;> rfl

/-- The shapes of the outputs, when the last instruction is known. -/
theorem outputShapes_of_last (hl : Linked m) (hlast : m.last? = some i) (hi : m.core? i = some n) :
    m.outputShapes = if n.op.isOutput then n.inputs.map m.shapeOf else [n.shape] := by
  obtain ⟨k, hk, rfl⟩ := exists_get?_of_core? hi
  rw [outputShapes, output?, hlast]
  cases ho : k.op.isOutput with
  | true =>
    have hfilter : (some i).filter (fun i => (m.get? i).any fun n => n.op.isOutput) = some i := by
      simp [hk, ho]
    rw [hfilter]
    change (m.inputsOf i).filterMap _ = if k.op.isOutput then k.inputs.map m.shapeOf else _
    rw [ho, if_pos rfl, inputsOf_of_get? hk]
    have hshape : ∀ j ∈ k.inputs, (m.get? j).map Instruction.shape = some (m.shapeOf j) := by
      intro j hj
      obtain ⟨a, ha⟩ := Option.isSome_iff_exists.1 (hl.live_input (inputsOf_of_get? hk ▸ hj))
      rw [ha, shapeOf_of_get? ha]
      rfl
    rw [List.filterMap_congr hshape]
    exact List.filterMap_eq_map' ▸ rfl
  | false =>
    have hfilter : (some i).filter (fun i => (m.get? i).any fun n => n.op.isOutput) = none := by
      simp [hk, ho]
    rw [hfilter]
    change ((some i).bind fun i => (m.get? i).map Instruction.shape).toList =
      if k.op.isOutput then _ else [k.shape]
    simp [hk, ho]

theorem outputShapes_of_empty (h : m.last? = none) : m.outputShapes = [] := by
  simp [outputShapes, output?, h]

/-- Every output shape is the shape of an instruction. -/
theorem exists_core?_of_mem_outputShapes (hl : Linked m) {s : Shape} (h : s ∈ m.outputShapes) :
    ∃ i n, m.core? i = some n ∧ n.shape = s := by
  cases hlast : m.last? with
  | none =>
    rw [outputShapes_of_empty hlast] at h
    cases h
  | some i =>
    obtain ⟨n, hn⟩ := exists_core?_of_mem_order hl (List.mem_of_getLast? hlast)
    rw [outputShapes_of_last hl hlast hn] at h
    split at h
    · obtain ⟨j, hj, rfl⟩ := List.mem_map.1 h
      obtain ⟨k, hk⟩ := exists_core?_of_live (hl.live_input (inputsOf_of_core? hn ▸ hj))
      exact ⟨j, k, hk, (shapeOf_of_core? hk).symm⟩
    · exact ⟨i, n, hn, (List.mem_singleton.1 h).symm⟩

/-- The sub-modules of an instruction, with the output shapes it has taken over from them. -/
def modulesOf (n : Instruction) : List ModuleId × List (List Shape) :=
  (n.moduleArgs, n.moduleOutputs)

/-- No reference to sub-modules is new. -/
def NoNewModules (m m' : Module) : Prop :=
  ∀ i n', m'.core? i = some n' →
    modulesOf n' = ([], []) ∨ ∃ j n, m.core? j = some n ∧ modulesOf n' = modulesOf n

theorem NoNewModules.refl (m : Module) : NoNewModules m m := fun i n hn => .inr ⟨i, n, hn, rfl⟩

theorem NoNewModules.trans (h : NoNewModules m m') (h' : NoNewModules m' m'') :
    NoNewModules m m'' := by
  intro i n'' hn''
  rcases h' i n'' hn'' with hnone | ⟨j, n', hn', he⟩
  · exact .inl hnone
  · rw [he]
    exact h j n' hn'

/-- What a module shows of itself is kept, and no reference to sub-modules is new. -/
structure Keeps (m m' : Module) : Prop where
  name : m'.name = m.name
  outputs : m'.outputShapes = m.outputShapes
  parameters : m'.parameterShapes = m.parameterShapes
  modules : NoNewModules m m'

theorem Keeps.refl (m : Module) : Keeps m m := ⟨rfl, rfl, rfl, .refl m⟩

theorem Keeps.trans (h : Keeps m m') (h' : Keeps m' m'') : Keeps m m'' :=
  ⟨h'.name.trans h.name, h'.outputs.trans h.outputs, h'.parameters.trans h.parameters,
    h.modules.trans h'.modules⟩

theorem core?_place_of_live (hi : (m.get? i).isSome) (p : Nat) (n : Instruction) :
    (m.place p n).core? i = m.core? i := by
  have hne : i ≠ m.nextId := fun he => by
    rw [he, get?_nextId] at hi
    cases hi
  rw [core?_place, if_neg hne]

theorem map_shapeOf_place {is : List InstructionId} (h : ∀ i ∈ is, (m.get? i).isSome) (p : Nat)
    (n : Instruction) : is.map (m.place p n).shapeOf = is.map m.shapeOf :=
  List.map_congr_left fun i hi => by rw [shapeOf, core?_place_of_live (h i hi), shapeOf]

theorem Placeable.live {p : Nat} (h : Placeable m p n) (hl : Linked m) :
    ∀ i ∈ n.inputs, (m.get? i).isSome := fun i hi => by
  obtain ⟨q, -, hq⟩ := h.before i hi
  exact (hl.mem_order i).1 (mem_order_of_position? hq)

/-- A new instruction whose shape is the one inferred leaves the module valid. -/
theorem Valid.place (h : Valid m) {p : Nat} (hp : Placeable m p n) (hfits : m.ShapeFits n) :
    Valid (m.place p n) := by
  have hc : Change m (m.place p n) := .place hp
  refine ⟨hc.linked h.linked, hc.ordered h.linked h.ordered, h.output_last.place hp,
    hc.distinctNames h.linked h.names, fun i k hk => ?_⟩
  rw [core?_place] at hk
  split at hk
  · cases hk
    change n.op.inferShape (n.inputs.map _) n.moduleOutputs = .ok n.shape
    rw [map_shapeOf_place (hp.live h.linked)]
    exact hfits
  · rw [ShapeFits, map_shapeOf_place fun j hj => h.linked.live_input (inputsOf_of_core? hk ▸ hj)]
    exact h.fits i k hk

end TensorGraph.Module
