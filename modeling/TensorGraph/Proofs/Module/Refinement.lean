import TensorGraph.Proofs.Module.Accepted

/-! Changes that keep a module typed: what takes the place of an instruction has its shape and stands
no later. -/
namespace TensorGraph.Module
variable {m m' m'' : Module} {i j old new : InstructionId} {n n' : Instruction} {op : Operator}

/-- A typed module that keeps what `m` shows, and the instructions of `m` with their shapes. -/
structure Refines (m m' : Module) : Prop where
  typed : Typed m'
  keeps : Keeps m m'
  kept : ∀ i n, m.get? i = some n → ∃ n', m'.get? i = some n' ∧ n'.shape = n.shape ∧
    n'.op.isOutput = n.op.isOutput ∧ n'.parameter? = n.parameter?

theorem Typed.refines (h : Typed m) : Refines m m :=
  ⟨h, .refl m, fun _ n hn => ⟨n, hn, rfl, rfl, rfl⟩⟩

theorem Refines.trans (h : Refines m m') (h' : Refines m' m'') : Refines m m'' := by
  refine ⟨h'.typed, h.keeps.trans h'.keeps, fun i n hn => ?_⟩
  obtain ⟨n', hn', hs, ho, hp⟩ := h.kept i n hn
  obtain ⟨n'', hn'', hs', ho', hp'⟩ := h'.kept i n' hn'
  exact ⟨n'', hn'', hs'.trans hs, ho'.trans ho, hp'.trans hp⟩

/-- `n'` can take the place of `n`: its shape is inferred from its inputs in `m`, and is that of
`n`. -/
structure Recomputed (m : Module) (n n' : Instruction) : Prop where
  fits : m.ShapeFits n'
  shape : n'.shape = n.shape
  parameter : n'.parameter? = n.parameter?
  output : n'.op.isOutput = n.op.isOutput
  outputs : n.op.isOutput → n'.inputs.map m.shapeOf = n.inputs.map m.shapeOf
  modules : modulesOf n' = ([], []) ∨ modulesOf n' = modulesOf n
  literal : ∀ v, n'.op = .literal v → n.op = .literal v

theorem Recomputed.refl (h : m.ShapeFits n) : Recomputed m n n :=
  ⟨h, rfl, rfl, rfl, fun _ => rfl, .inr rfl, fun _ hv => hv⟩

/-- Instructions stand where they stood and are computed otherwise. -/
structure Reworked (m m' : Module) : Prop where
  linked : Linked m'
  ordered : Ordered m'
  name : m'.name = m.name
  order : m'.order = m.order
  core : ∀ i n n', m.core? i = some n → m'.core? i = some n' → Recomputed m n n'

theorem Reworked.standing (hr : Reworked m m') : Standing m m' :=
  ⟨hr.linked, hr.order, fun i n n' hn hn' => (hr.core i n n' hn hn').shape⟩

theorem Reworked.last?_eq (hr : Reworked m m') : m'.last? = m.last? :=
  hr.standing.last?_eq

section Reworked
variable (h : Typed m) (hr : Reworked m m')
include h hr

theorem Reworked.core?_cases (i : InstructionId) :
    (m.core? i = none ∧ m'.core? i = none) ∨
      ∃ n n', m.core? i = some n ∧ m'.core? i = some n' ∧ Recomputed m n n' := by
  refine (hr.standing.core?_cases h.linked i).imp_right ?_
  rintro ⟨n, n', hn, hn'⟩
  exact ⟨n, n', hn, hn', hr.core i n n' hn hn'⟩

theorem Reworked.exists_core? (hn' : m'.core? i = some n') :
    ∃ n, m.core? i = some n ∧ Recomputed m n n' := by
  rcases hr.core?_cases h i with ⟨-, hno⟩ | ⟨n, k, hn, hk, hc⟩
  · cases hn'.symm.trans hno
  · cases hn'.symm.trans hk
    exact ⟨n, hn, hc⟩

theorem Reworked.shapeOf_eq : m'.shapeOf = m.shapeOf :=
  hr.standing.shapeOf_eq h.linked

theorem Reworked.typed : Typed m' where
  linked := hr.linked
  ordered := hr.ordered
  output_last i n' hn' ho := by
    obtain ⟨n, hn, hc⟩ := hr.exists_core? h (core?_of_get? hn')
    obtain ⟨k, hk, rfl⟩ := exists_get?_of_core? hn
    rw [hr.last?_eq]
    exact h.output_last i k hk (hc.output.symm.trans ho)
  names := by
    refine h.names.of_kept fun i name hi => ?_
    rcases hr.core?_cases h i with ⟨hn, hn'⟩ | ⟨n, n', hn, hn', hc⟩
    · rw [nameOf?, hn'] at hi
      cases hi
    · rw [nameOf?, hn'] at hi
      rw [nameOf?, hn, ← hi]
      exact congrArg (Option.map Prod.fst) hc.parameter.symm
  fits i n' hn' := by
    obtain ⟨n, hn, hc⟩ := hr.exists_core? h hn'
    rw [ShapeFits, hr.shapeOf_eq h]
    exact hc.fits
  shapes i n' hn' := by
    obtain ⟨n, hn, hc⟩ := hr.exists_core? h hn'
    rw [hc.shape]
    exact h.shapes i n hn
  literals i n' v hn' hop := by
    obtain ⟨n, hn, hc⟩ := hr.exists_core? h hn'
    exact h.literals i n v hn (hc.literal v hop)

theorem Reworked.keeps : Keeps m m' where
  name := hr.name
  outputs := by
    cases hlast : m.last? with
    | none => rw [outputShapes_of_empty hlast, outputShapes_of_empty (hr.last?_eq.trans hlast)]
    | some i =>
      obtain ⟨n, hn⟩ := exists_core?_of_mem_order h.linked (List.mem_of_getLast? hlast)
      rcases hr.core?_cases h i with ⟨hno, -⟩ | ⟨_, n', hn₁, hn', hc⟩
      · exact (nomatch hn.symm.trans hno)
      cases hn.symm.trans hn₁
      rw [outputShapes_of_last h.linked hlast hn,
        outputShapes_of_last hr.linked (hr.last?_eq.trans hlast) hn', hr.shapeOf_eq h, hc.output,
        hc.shape]
      split
      · rename_i ho
        exact hc.outputs ho
      · rfl
  parameters := by
    rw [parameterShapes_eq, parameterShapes_eq, hr.order]
    refine congrArg (List.filterMap · m.order) (funext fun i => ?_)
    rcases hr.core?_cases h i with ⟨hn, hn'⟩ | ⟨n, n', hn, hn', hc⟩
    · rw [parameterOf?, parameterOf?, hn, hn']
    · rw [parameterOf?, parameterOf?, hn, hn']
      exact hc.parameter
  modules i n' hn' := by
    obtain ⟨n, hn, hc⟩ := hr.exists_core? h hn'
    exact hc.modules.imp id fun he => ⟨i, n, hn, he⟩

theorem Reworked.refines : Refines m m' := by
  refine ⟨hr.typed h, hr.keeps h, fun i n hn => ?_⟩
  rcases hr.core?_cases h i with ⟨hno, -⟩ | ⟨_, n', hn₁, hn', hc⟩
  · exact (nomatch (core?_of_get? hn).symm.trans hno)
  · cases (core?_of_get? hn).symm.trans hn₁
    obtain ⟨k, hk, rfl⟩ := exists_get?_of_core? hn'
    exact ⟨k, hk, hc.shape, hc.output, hc.parameter⟩

end Reworked

theorem Forwarded.name_eq (h : Forwarded m old new m') (hne : old ≠ new) (hl : Linked m) :
    m'.name = m.name := by
  cases h with
  | replaced _ hr => exact hr.name_rewire hl
  | redirected hn _ _ _ hr => exact name_redirect hl hne hn hr

/-- Users that are made to use an earlier instruction of the same shape have the shapes they had. -/
theorem Forwarded.reworked (hf : Forwarded m old new m') (h : Typed m) (hne : old ≠ new)
    (hold : m.core? old = some n) (hp : n.parameter? = none)
    (hlt : m.order.idxOf new < m.order.idxOf old) (hs : m.shapeOf old = m.shapeOf new) :
    Reworked m m' := by
  refine ⟨(hf.change hne).linked h.linked, (hf.change hne).ordered h.linked h.ordered,
    hf.name_eq hne h.linked, hf.order_eq h.linked h.ordered hlt, fun i k k' hk hk' => ?_⟩
  rcases hf.core?_cases hne h.linked hk' with he | ⟨a, ha, he, -, hfit⟩ | ⟨rfl, -, before, after, hr, rfl⟩
  · cases hk.symm.trans he
    exact .refl (h.fits i k hk)
  · cases hk.symm.trans ha
    have hin : k'.inputs.map m.shapeOf = k.inputs.map m.shapeOf := by
      rw [he]
      exact map_forward hs _
    rw [hin] at hfit
    have hshape : k'.shape = k.shape := Except.ok.inj (hfit.symm.trans (h.fits i k hk))
    refine ⟨?_, hshape, by rw [he]; rfl, by rw [he], fun _ => hin, .inr (by rw [he]; rfl),
      fun v hv => by rwa [he] at hv⟩
    rw [ShapeFits, hin, hshape, he]
    exact h.fits i k hk
  · cases hk.symm.trans hold
    obtain ⟨hraw, -⟩ := Operator.inferShape_eq_ok.1 hr.shape
    have hin : m.shapeOf new = after.shape := by
      simpa using Operator.rawShape_identity.1 hraw
    have hout : n.op.isOutput = false := by
      cases (core?_of_get? hr.get).symm.trans hk
      exact hr.output.symm
    refine ⟨?_, ?_, ?_, ?_, ?_, ?_, fun v hv => ?_⟩
    · change after.op.inferShape (after.inputs.map m.shapeOf) after.moduleOutputs = .ok after.shape
      rw [hr.op_eq, hr.inputs_eq]
      exact hr.shape
    · change after.shape = n.shape
      rw [← hin, ← hs, shapeOf_of_core? hk]
    · rw [hp]
      change after.parameter? = none
      rw [Instruction.parameter?, hr.op_eq]
    · change after.op.isOutput = n.op.isOutput
      rw [hr.op_eq, hout]
      rfl
    · simp [hout]
    · refine .inl ?_
      change (after.moduleArgs, after.moduleOutputs) = ([], [])
      rw [hr.eq]
      rfl
    · cases hr.op_eq.symm.trans hv

/-- Making the users of an instruction use an earlier one of the same shape succeeds. -/
theorem Typed.replaceWith_leaves (h : Typed m) {k : Instruction} (hold : m.get? old = some n)
    (hp : n.parameter? = none) (ho : n.op.isOutput = false) (hnew : m.get? new = some k)
    (hs : k.shape = n.shape) (hlt : m.order.idxOf new < m.order.idxOf old) :
    (replaceWith old new).Leaves m (fun _ => Refines m) fun _ _ => False := by
  have hne : old ≠ new := fun he => Nat.lt_irrefl _ (he ▸ hlt)
  have hshape : m.shapeOf old = m.shapeOf new := by
    rw [shapeOf_of_get? hold, shapeOf_of_get? hnew, hs]
  refine (h.accepted.replaceWith_forwards hold ho hnew hs hlt fun _ => h.addressable hnew).imp ?_
  exact fun _ m' hf => (hf.reworked h hne (core?_of_get? hold) hp hlt hshape).refines h

theorem Typed.input_lt (h : Typed m) (hn : m.get? i = some n) (hj : j ∈ n.inputs) :
    ∃ k, m.get? j = some k ∧ m.order.idxOf j < m.order.idxOf i :=
  h.accepted.input_lt hn hj

/-- Replacing an instruction by one of the same shape with earlier inputs succeeds. -/
theorem Typed.replace_leaves (h : Typed m) (hold : m.get? old = some n) (hp : n.parameter? = none)
    (ho : n.op.isOutput = false) (hop : Plain op) (hlit : ∀ v, op ≠ .literal v)
    {inputs : List InstructionId}
    (hin : ∀ i ∈ inputs, (m.get? i).isSome ∧ m.order.idxOf i < m.order.idxOf old)
    (hs : op.inferShape (inputs.map m.shapeOf) [] = .ok n.shape) :
    (replace old op inputs).Leaves m (fun _ => Refines m) fun _ _ => False := by
  refine (h.accepted.replace_leaves hold ho hop hin hs).imp ?_
  rintro _ m' ⟨hl, hordered, hname, horder, hcore⟩
  refine Reworked.refines h ⟨hl, hordered, hname, horder, fun i a a' ha ha' => ?_⟩
  rw [hcore] at ha'
  split at ha'
  · rename_i hi
    subst hi
    cases (core?_of_get? hold).symm.trans ha
    cases ha'
    refine ⟨hs, rfl, ?_, hop.output.trans ho.symm, fun hout => (nomatch ho.symm.trans hout), .inl rfl,
      fun v hv => absurd hv (hlit v)⟩
    exact (Plain.parameter?_eq_none (n := recomputed n.core op inputs) hop).trans hp.symm
  · cases ha.symm.trans ha'
    exact .refl (h.fits i a ha)

/-- A new instruction that is not the last one leaves the others as they are. -/
theorem Typed.place (h : Typed m) {p : Nat} (hlt : p < m.order.length) (hp : Placeable m p n)
    (hfits : m.ShapeFits n) (hmade : n.shape.Made) (hlit : ∀ v, n.op = .literal v → v.Made)
    (hpar : n.parameter? = none) (hmods : modulesOf n = ([], [])) : Refines m (m.place p n) := by
  have hv := h.toValid.place hp hfits
  have hcore : ∀ i k, m.core? i = some k → (m.place p n).core? i = some k := fun i k hk => by
    rw [core?_place_of_live (live_of_core? hk), hk]
  have hcases : ∀ i k, (m.place p n).core? i = some k → k = n.core ∨ m.core? i = some k :=
    fun i k hk => by
      rw [core?_place] at hk
      split at hk
      · exact .inl (Option.some.inj hk).symm
      · exact .inr hk
  have hlast := last?_place hlt n
  refine ⟨⟨hv, fun i k hk => ?_, fun i k v hk hop => ?_⟩,
    ⟨name_place m p n, ?_, ?_, fun i k hk => ?_⟩, fun i k hk => ?_⟩
  · rcases hcases i k hk with rfl | hk'
    · exact hmade
    · exact h.shapes i k hk'
  · rcases hcases i k hk with rfl | hk'
    · exact hlit v hop
    · exact h.literals i k v hk' hop
  · cases hl : m.last? with
    | none => rw [outputShapes_of_empty hl, outputShapes_of_empty (hlast.trans hl)]
    | some i =>
      obtain ⟨k, hk⟩ := exists_core?_of_mem_order h.linked (List.mem_of_getLast? hl)
      rw [outputShapes_of_last h.linked hl hk,
        outputShapes_of_last hv.linked (hlast.trans hl) (hcore i k hk),
        map_shapeOf_place fun j hj => h.linked.live_input (inputsOf_of_core? hk ▸ hj)]
  · have hold : ∀ is ⊆ m.order, is.filterMap (m.place p n).parameterOf? =
        is.filterMap m.parameterOf? := fun is his => List.filterMap_congr fun i hi => by
      rw [parameterOf?, core?_place_of_live ((h.linked.mem_order i).1 (his hi)), parameterOf?]
    have hnew : (m.place p n).parameterOf? m.nextId = none := by
      rw [parameterOf?, core?_place, if_pos rfl]
      exact hpar
    rw [parameterShapes_eq, parameterShapes_eq, order_place_eq hp.le, List.filterMap_append,
      List.filterMap_cons_none hnew, hold _ (List.take_subset _ _), hold _ (List.drop_subset _ _),
      ← List.filterMap_append, List.take_append_drop]
  · rcases hcases i k hk with rfl | hk'
    · exact .inl hmods
    · exact .inr ⟨i, k, hk', rfl⟩
  · obtain ⟨k', hk', he⟩ := exists_get?_of_core? (hcore i k.core (core?_of_get? hk))
    have hs := congrArg Instruction.shape he
    exact ⟨k', hk', hs.symm, by rw [Instruction.op_eq_of_core he],
      (Instruction.parameter?_eq_of_core he).symm⟩

/-- A plain instruction can be placed just before another one. -/
theorem Typed.insert_leaves (h : Typed m) (hold : m.get? old = some n) (hop : Plain op)
    (hlit : ∀ v, op ≠ .literal v) {inputs : List InstructionId} {shape : Shape}
    (hin : ∀ i ∈ inputs, (m.get? i).isSome ∧ m.order.idxOf i < m.order.idxOf old)
    (hs : op.inferShape (inputs.map m.shapeOf) [] = .ok shape) (hmade : shape.Made) :
    (insert old op inputs).Leaves m
      (fun new m' => Refines m m' ∧ m'.order.idxOf new < m'.order.idxOf old ∧
        ∃ k, m'.get? new = some k ∧ k.shape = shape)
      fun _ _ => False := by
  have hmem : old ∈ m.order := (h.linked.mem_order old).2 (by simp [hold])
  have hlt : m.order.idxOf old < m.order.length := List.idxOf_lt_length_iff.2 hmem
  obtain ⟨hplace, hinsert⟩ := h.accepted.insert_places (by simp [hold]) hop hin hs
  refine hinsert.imp ?_
  rintro _ _ ⟨rfl, rfl⟩
  refine ⟨h.place hlt hplace hs hmade (fun v hv => absurd hv (hlit v)) (Plain.parameter?_eq_none hop)
    rfl, ?_, get?_nextId_place m _ _⟩
  rw [idxOf_nextId_place h.linked (Nat.le_of_lt hlt)]
  exact lt_idxOf_place h.linked hmem (Nat.le_refl _) _

/-- A constant can be placed at the front of a module that is not empty. -/
theorem Typed.addLiteral_leaves (h : Typed m) (hold : m.get? old = some n) {value : Literal}
    (hvalue : value.Made) (hs : value.shape = n.shape) :
    (addLiteral value).Leaves m
      (fun new m' => Refines m m' ∧ m'.order.idxOf new < m'.order.idxOf old ∧
        ∃ k, m'.get? new = some k ∧ k.shape = n.shape)
      fun _ _ => False := by
  have hmem : old ∈ m.order := (h.linked.mem_order old).2 (by simp [hold])
  have hpos : 0 < m.order.length := List.length_pos_of_mem hmem
  simp only [addLiteral, Action.leaves_bind, Action.leaves_get, Action.leaves_set, Action.leaves_pure]
  have hmade : value.shape.Made := hs ▸ h.made_of_get? hold
  have hfits : m.ShapeFits { op := .literal value, inputs := [], shape := value.shape } :=
    Operator.inferShape_eq_ok.2 ⟨rfl, (congrArg Shape.addressable hs).trans (h.addressable hold)⟩
  refine ⟨h.place hpos (placeable_literal value m) hfits hmade ?_ rfl rfl, ?_,
    hs ▸ get?_nextId_place m _ _⟩
  · intro v hv
    cases hv
    exact hvalue
  rw [idxOf_nextId_place h.linked (Nat.zero_le _)]
  exact lt_idxOf_place h.linked hmem (Nat.zero_le _) _

end TensorGraph.Module
