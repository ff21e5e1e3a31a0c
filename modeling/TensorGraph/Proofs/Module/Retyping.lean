import TensorGraph.Proofs.Module.Accepted

/-! The shapes of users that are made to use another instruction. Each is inferred from the shapes
that the inputs had before, so it is out of date where an input is such a user itself and gets
another shape. -/
namespace TensorGraph.Module
variable {m m' : Module} {i old new u : InstructionId} {n : Instruction} {rs : List Redirected}

section Redirection
variable (hr : Redirection m old new rs) (hl : Linked m) (hne : old ≠ new)
  (hn : (m.get? new).isSome)
include hr hl hne hn

/-- Only users of the old instruction get another shape. -/
theorem Redirection.shapeOf_eq (hi : i ∈ m.usersOf old → i = new) :
    (m.redirect old new rs).shapeOf i = m.shapeOf i := by
  have hno : i ∉ rs.map Redirected.user := fun h =>
    (hr.mem_users.1 h).2 (hi (hr.mem_users.1 h).1)
  rw [shapeOf, core?_redirect hl hne hn hr, core?_redirectEdges_of_notMem hno, shapeOf]

/-- Where the new instruction has the shape of the old one, nothing gets another shape. -/
theorem Redirection.shapeOf_eq_of_accepted (h : Accepted m) (hs : m.shapeOf old = m.shapeOf new)
    (i : InstructionId) : (m.redirect old new rs).shapeOf i = m.shapeOf i := by
  by_cases hi : i ∈ m.usersOf old → i = new
  · exact hr.shapeOf_eq hl hne hn hi
  simp only [Classical.not_imp] at hi
  obtain ⟨k, k', hk, hk', he, hshape⟩ := hr.core?_user hl hne hn hi.1 hi.2
  have hold : old ∈ k.inputs := by
    rw [← inputsOf_of_core? hk]
    exact (hl.mem_users old i).1 hi.1
  have hfits : k.op.inferShape (k.inputs.map m.shapeOf) k.moduleOutputs = .ok k.shape :=
    h.fits_of_mem hk hold
  rw [he, map_forward hs, hfits] at hshape
  rw [shapeOf_of_core? hk, shapeOf_of_core? hk', Except.ok.inj hshape]

end Redirection

/-- What making the users of `old` use `new` leaves of a user: its operator, with `new` for `old`
among the inputs, and the shape inferred from the shapes that these had before. That shape fits the
module exactly if the shapes that they have now give the same. -/
structure Retyped (m : Module) (old new u : InstructionId) (m' : Module) (n' : Instruction) :
    Prop where
  get : m'.get? u = some n'
  kept : ∃ n, m.get? u = some n ∧ n'.op = n.op ∧ n'.moduleOutputs = n.moduleOutputs ∧
    n'.inputs = n.inputs.map fun i => if i = old then new else i
  shape : n'.op.inferShape (n'.inputs.map m.shapeOf) n'.moduleOutputs = .ok n'.shape
  fits_iff : m'.ShapeFits n' ↔
    n'.op.inferShape (n'.inputs.map m'.shapeOf) n'.moduleOutputs =
      n'.op.inferShape (n'.inputs.map m.shapeOf) n'.moduleOutputs
  fits : (∀ i ∈ n'.inputs, i ∈ m.usersOf old → i ≠ new → m'.shapeOf i = m.shapeOf i) →
    m'.ShapeFits n'
  fits_of_same_shape : m.shapeOf old = m.shapeOf new → m'.ShapeFits n'

/-- A shape that is inferred from the shapes before fits after an edit that gives other shapes to
users only. -/
theorem exists_retyped {n' : Instruction} (hn : m.core? u = some n) (hn' : m'.core? u = some n')
    (he : n' = { n with
      inputs := n.inputs.map fun i => if i = old then new else i
      shape := n'.shape })
    (hshape : n.op.inferShape (n'.inputs.map m.shapeOf) n.moduleOutputs = .ok n'.shape)
    (hothers : ∀ i, (i ∈ m.usersOf old → i = new) → m'.shapeOf i = m.shapeOf i)
    (hsame : m.shapeOf old = m.shapeOf new → ∀ i, m'.shapeOf i = m.shapeOf i) :
    ∃ n', Retyped m old new u m' n' := by
  obtain ⟨k, hk, rfl⟩ := exists_get?_of_core? hn
  obtain ⟨k', hk', rfl⟩ := exists_get?_of_core? hn'
  have hop : k'.op = k.op := (by rw [he] : k'.core.op = k.core.op)
  have houts : k'.moduleOutputs = k.moduleOutputs :=
    (by rw [he] : k'.core.moduleOutputs = k.core.moduleOutputs)
  have hin : k'.inputs = k.inputs.map fun i => if i = old then new else i :=
    congrArg Instruction.inputs he
  have hshape : k'.op.inferShape (k'.inputs.map m.shapeOf) k'.moduleOutputs = .ok k'.shape := by
    rw [hop, houts]
    exact hshape
  have hfits : (∀ i ∈ k'.inputs, m'.shapeOf i = m.shapeOf i) → m'.ShapeFits k' := fun h => by
    rw [ShapeFits, List.map_congr_left h, hshape]
  refine ⟨k', hk', ⟨k, hk, hop, houts, hin⟩, hshape, ?_, fun h => hfits fun i hi => ?_, fun h => ?_⟩
  · rw [ShapeFits, hshape]
  · by_cases hu : i ∈ m.usersOf old → i = new
    · exact hothers i hu
    · simp only [Classical.not_imp] at hu
      exact h i hi hu.1 hu.2
  · exact hfits fun i _ => hsame h i

/-- Where users are made to use another instruction, each gets the shape that is inferred from the
shapes of its inputs before the edit. It fits the module unless an input is another of these users
and gets a shape from which something else is inferred; and it fits where the new instruction has
the shape of the old one. -/
theorem replaceWith_retypes (hb : Built m) (hv : m.validate = .ok ()) {r : InstructionId}
    (h : (replaceWith old new m).result = .ok r) (hu : u ∈ m.usersOf old) (hne : u ≠ new) :
    ∃ n', Retyped m old new u (replaceWith old new m).state n' := by
  have ha := hb.accepted hv
  have hin : old ∈ m.inputsOf u := (ha.linked.mem_users old u).1 hu
  rcases (replaceWith_leaves old new m).ok h with ⟨rfl, hm⟩ | ⟨hon, hf⟩
  · obtain ⟨n, hn⟩ := exists_core?_of_live (live_of_mem_inputsOf hin)
    rw [hm]
    have hsame : (n.inputs.map fun i => if i = old then old else i) = n.inputs :=
      List.map_id'' (fun i => by split <;> simp [*]) _
    refine exists_retyped hn hn ?_ ?_ (fun _ _ => rfl) fun _ _ => rfl
    · rw [hsame]
    · exact ha.fits_of_mem hn (inputsOf_of_core? hn ▸ hin)
  generalize (replaceWith old new m).state = m' at hf
  cases hf with
  | replaced hlast => exact absurd hin (ha.ordered.last_notMem_inputsOf ha.linked hlast)
  | redirected hn _ _ _ hr =>
    obtain ⟨k, k', hk, hk', he, hshape⟩ := hr.core?_user ha.linked hon hn hu hne
    exact exists_retyped hk hk' he hshape (fun _ => hr.shapeOf_eq ha.linked hon hn)
      (hr.shapeOf_eq_of_accepted ha.linked hon hn ha)

/-- Parameters of two layouts, and users of the first. -/
private def twoLayouts (op : Operator) (inputs : List InstructionId) : Module :=
  Mutation.applyAll (Module.empty "main")
    [.addParameter "a" (.packedOf .float [2, 3]),
      .addParameter "b" ⟨.float, [2, 3], [1, 2], [], []⟩, .add (.unary .relu) [⟨0⟩], .add op inputs]

theorem replaceWith_retypes_apart :
    let m := twoLayouts (.unary .neg) [⟨0⟩]
    Built m ∧ m.validate = .ok () ∧ (replaceWith ⟨0⟩ ⟨1⟩ m).result = .ok ⟨1⟩ ∧
      ∃ n', Retyped m ⟨0⟩ ⟨1⟩ ⟨3⟩ (replaceWith ⟨0⟩ ⟨1⟩ m).state n' ∧
        (replaceWith ⟨0⟩ ⟨1⟩ m).state.ShapeFits n' ∧ n'.shape ≠ m.shapeOf ⟨3⟩ := by
  intro m
  have hb : Built m := (Built.empty "main").applyAll _
  have hv : m.validate = .ok () := by decide +kernel
  have hok : (replaceWith ⟨0⟩ ⟨1⟩ m).result = .ok ⟨1⟩ := by
    unfold replaceWith replace checkReplace checkRedirect
    simp only [dependsOn_eq_getD 16]
    decide +kernel
  have hshape : (replaceWith ⟨0⟩ ⟨1⟩ m).state.shapeOf ⟨3⟩ ≠ m.shapeOf ⟨3⟩ := by
    unfold replaceWith replace checkReplace checkRedirect
    simp only [dependsOn_eq_getD 16]
    decide +kernel
  obtain ⟨n', hn'⟩ := replaceWith_retypes hb hv hok (u := ⟨3⟩) (by decide +kernel) (by decide)
  refine ⟨hb, hv, hok, n', hn', hn'.fits ?_, ?_⟩
  · obtain ⟨n, hn, -, -, hin⟩ := hn'.kept
    have hinputs : m.inputsOf ⟨3⟩ = [⟨0⟩] := by decide +kernel
    rw [inputsOf_of_get? hn] at hinputs
    simp [hin, hinputs]
  · rw [← shapeOf_of_get? hn'.get]
    exact hshape

/-- A user of both the parameter and another of its users keeps the layout of the parameter, though
all that it uses has the other one now. -/
theorem replaceWith_outdates_shape :
    let m := twoLayouts (.binary .add) [⟨0⟩, ⟨2⟩]
    Built m ∧ m.validate = .ok () ∧ (replaceWith ⟨0⟩ ⟨1⟩ m).result = .ok ⟨1⟩ ∧
      ⟨3⟩ ∈ m.usersOf ⟨0⟩ ∧
      ∃ n', (replaceWith ⟨0⟩ ⟨1⟩ m).state.get? ⟨3⟩ = some n' ∧
        ¬ (replaceWith ⟨0⟩ ⟨1⟩ m).state.ShapeFits n' := by
  intro m
  have hb : Built m := (Built.empty "main").applyAll _
  refine ⟨hb, by decide +kernel, ?_, by decide +kernel, ?_⟩
  · unfold replaceWith replace checkReplace checkRedirect
    simp only [dependsOn_eq_getD 16]
    decide +kernel
  · change ∃ n' ∈ (replaceWith ⟨0⟩ ⟨1⟩ m).state.get? ⟨3⟩,
      ¬ (replaceWith ⟨0⟩ ⟨1⟩ m).state.ShapeFits n'
    unfold ShapeFits replaceWith replace checkReplace checkRedirect
    simp only [dependsOn_eq_getD 16]
    decide +kernel

end TensorGraph.Module
