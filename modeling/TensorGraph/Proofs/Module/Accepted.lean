import TensorGraph.Proofs.Module.Built
import TensorGraph.Proofs.Module.Typed

/-! Modules that pass their check, and edits that keep them so: what takes the place of an
instruction has its shape and stands no later. The check asks nothing of constants, parameters and
outputs without operands; the first two have the shapes they were given with. -/
namespace TensorGraph.Module
open TensorGraph.Action
variable {m m' m'' : Module} {i j old new : InstructionId} {n n' : Instruction} {op : Operator}

/-- A constant or a parameter has the shape that it was given with. -/
structure OwnShape (n : Instruction) : Prop where
  literal : ∀ value, n.op = .literal value → n.shape = value.shape
  parameter : ∀ name shape, n.op = .parameter name shape → n.shape = shape

theorem ownShape_of_inferShape {ins : List Shape} {outs : List (List Shape)}
    (h : n.op.inferShape ins outs = .ok n.shape) : OwnShape n := by
  obtain ⟨hraw, -⟩ := Operator.inferShape_eq_ok.1 h
  refine ⟨fun value hop => ?_, fun name shape hop => ?_⟩ <;> rw [hop] at hraw
  · exact (Except.ok.inj (Except.seq_eq_ok.1 hraw).2).symm
  · exact (Except.ok.inj (Except.seq_eq_ok.1 hraw).2).symm

/-- What the check asks of the shape of an instruction. -/
def Passes (m : Module) (n : Instruction) : Prop :=
  n.inputs = [] ∧ n.op.isBuiltin ∨ m.ShapeFits n

/-- A module that passes its check, in which constants and parameters have their own shapes. -/
structure Accepted (m : Module) : Prop where
  linked : Linked m
  ordered : Ordered m
  output_last : OutputLast m
  passes : ∀ i n, m.core? i = some n → m.Passes n
  own : ∀ i n, m.core? i = some n → OwnShape n

theorem Accepted.validate (h : Accepted m) : m.validate = .ok () :=
  (validate_eq_ok h.linked).2 ⟨h.ordered, h.output_last, fun i n hn =>
    h.passes i n.core (core?_of_get? hn)⟩

/-- Modules that edits build are accepted when they pass their check. -/
theorem Built.accepted (h : Built m) (hv : m.validate = .ok ()) : Accepted m := by
  obtain ⟨ho, hlast, hfits⟩ := (validate_eq_ok h.linked).1 hv
  refine ⟨h.linked, ho, hlast, fun i n hn => ?_, ?_⟩
  · obtain ⟨k, hk, rfl⟩ := exists_get?_of_core? hn
    exact hfits i k hk
  · refine h.each (fun _ _ hs => ownShape_of_inferShape hs) (fun value => ?_) (fun n inputs hn => ?_)
      fun n old new shape hop hn => ?_
    · exact ⟨fun _ hop => by cases hop; rfl, fun _ _ hop => by cases hop⟩
    · exact ⟨hn.literal, hn.parameter⟩
    · refine ⟨fun _ hlit => (nomatch hlit), fun _ _ hnew => ?_⟩
      cases hnew
      exact hn.parameter _ _ hop

theorem Valid.accepted (h : Valid m) : Accepted m :=
  ⟨h.linked, h.ordered, h.output_last, fun i n hn => .inr (h.fits i n hn),
    fun i n hn => ownShape_of_inferShape (h.fits i n hn)⟩

section Accepted
variable (h : Accepted m)
include h

/-- The shape of an instruction with operands is the one inferred. -/
theorem Accepted.fits_of_mem (hn : m.core? i = some n) (hj : j ∈ n.inputs) : m.ShapeFits n := by
  rcases h.passes i n hn with ⟨hin, -⟩ | hfits
  · rw [hin] at hj
    cases hj
  · exact hfits

theorem Accepted.fits_of_not_builtin (hn : m.core? i = some n) (hop : n.op.isBuiltin = false) :
    m.ShapeFits n := by
  rcases h.passes i n hn with ⟨-, hb⟩ | hfits
  · exact (nomatch hop.symm.trans hb)
  · exact hfits

/-- A constant has no operands. -/
theorem Accepted.inputs_of_literal (hn : m.core? i = some n) {value : Literal}
    (hop : n.op = .literal value) : n.inputs = [] := by
  rcases h.passes i n hn with ⟨hin, -⟩ | hfits
  · exact hin
  · rw [ShapeFits, hop] at hfits
    obtain ⟨hraw, -⟩ := Operator.inferShape_eq_ok.1 hfits
    have hcount := Operator.Inference.has_eq_ok.1 (Except.seq_eq_ok.1 hraw).1
    simpa using hcount

theorem Accepted.input_lt (hn : m.get? i = some n) (hj : j ∈ n.inputs) :
    ∃ k, m.get? j = some k ∧ m.order.idxOf j < m.order.idxOf i := by
  rw [← inputsOf_of_get? hn] at hj
  obtain ⟨k, hk⟩ := Option.isSome_iff_exists.1 (h.linked.live_input hj)
  exact ⟨k, hk, h.ordered.idxOf_lt h.linked hj⟩

theorem Accepted.inputs_lt (hn : m.get? i = some n) :
    ∀ j ∈ n.inputs, (m.get? j).isSome ∧ m.order.idxOf j < m.order.idxOf i := by
  intro j hj
  obtain ⟨k, hk, hlt⟩ := h.input_lt hn hj
  exact ⟨by simp [hk], hlt⟩

/-- What has users is not the last instruction. -/
theorem Accepted.last?_ne_of_user (hu : j ∈ m.usersOf i) : m.last? ≠ some i := fun hlast =>
  h.ordered.last_notMem_inputsOf h.linked hlast ((h.linked.mem_users i j).1 hu)

/-- What has users lists no outputs. -/
theorem Accepted.not_output_of_user (hn : m.get? i = some n) (hu : j ∈ m.usersOf i) :
    n.op.isOutput = false := by
  cases ho : n.op.isOutput with
  | false => rfl
  | true => exact absurd (h.output_last i n hn ho) (h.last?_ne_of_user hu)

private theorem Accepted.not_depends_of_idxOf_lt (hlt : m.order.idxOf i < m.order.idxOf j) :
    ¬ m.Depends i j := fun hd =>
  Nat.lt_irrefl _ (Nat.lt_of_lt_of_le hlt (h.ordered.idxOf_le_of_depends h.linked hd))

end Accepted

/-- The same instructions stand in the same places, and have the same shapes. -/
structure Standing (m m' : Module) : Prop where
  linked : Linked m'
  order : m'.order = m.order
  shape : ∀ i n n', m.core? i = some n → m'.core? i = some n' → n'.shape = n.shape

theorem Linked.standing (h : Linked m) : Standing m m :=
  ⟨h, rfl, fun _ _ _ hn hn' => congrArg Instruction.shape (Option.some.inj (hn'.symm.trans hn))⟩

theorem Standing.last?_eq (ha : Standing m m') : m'.last? = m.last? :=
  congrArg List.getLast? ha.order

section Standing
variable (hl : Linked m) (ha : Standing m m')
include hl ha

theorem Standing.live_iff : (m'.get? i).isSome ↔ (m.get? i).isSome := by
  rw [← ha.linked.mem_order, ha.order, hl.mem_order]

theorem Standing.core?_cases (i : InstructionId) :
    (m.core? i = none ∧ m'.core? i = none) ∨
      ∃ n n', m.core? i = some n ∧ m'.core? i = some n' := by
  have hlive := ha.live_iff hl (i := i)
  rw [← isSome_core?, ← isSome_core?] at hlive
  cases hn : m.core? i <;> cases hn' : m'.core? i <;> simp_all

theorem Standing.shapeOf_eq : m'.shapeOf = m.shapeOf := by
  funext i
  rcases ha.core?_cases hl i with ⟨hn, hn'⟩ | ⟨n, n', hn, hn'⟩
  · rw [shapeOf, shapeOf, hn, hn']
  · rw [shapeOf_of_core? hn, shapeOf_of_core? hn', ha.shape i n n' hn hn']

end Standing

/-- A module that passes its check and has the instructions of `m` with the shapes they had. -/
structure Upholds (m m' : Module) : Prop where
  accepted : Accepted m'
  kept : ∀ i n, m.get? i = some n → ∃ n', m'.get? i = some n' ∧ n'.shape = n.shape

theorem Accepted.upholds (h : Accepted m) : Upholds m m :=
  ⟨h, fun _ n hn => ⟨n, hn, rfl⟩⟩

theorem Upholds.core?_kept (h : Upholds m m') (hn : m.core? i = some n) :
    ∃ n', m'.core? i = some n' ∧ n'.shape = n.shape := by
  obtain ⟨k, hk, rfl⟩ := exists_get?_of_core? hn
  obtain ⟨k', hk', hs⟩ := h.kept i k hk
  exact ⟨k'.core, core?_of_get? hk', hs⟩

theorem Upholds.trans (h : Upholds m m') (h' : Upholds m' m'') : Upholds m m'' := by
  refine ⟨h'.accepted, fun i n hn => ?_⟩
  obtain ⟨n', hn', hs⟩ := h.kept i n hn
  obtain ⟨n'', hn'', hs'⟩ := h'.kept i n' hn'
  exact ⟨n'', hn'', hs'.trans hs⟩

/-- Instructions may be computed otherwise where they stand. -/
theorem Accepted.rework (h : Accepted m) (ha : Standing m m') (ho : Ordered m')
    (hcore : ∀ i n n', m.core? i = some n → m'.core? i = some n' →
      n'.op.isOutput = n.op.isOutput ∧ m.Passes n' ∧ OwnShape n') : Upholds m m' := by
  have hcore' : ∀ i n', m'.core? i = some n' → ∃ n, m.core? i = some n ∧
      n'.op.isOutput = n.op.isOutput ∧ m.Passes n' ∧ OwnShape n' := by
    intro i n' hn'
    rcases ha.core?_cases h.linked i with ⟨-, hno⟩ | ⟨n, k, hn, hk⟩
    · cases hn'.symm.trans hno
    · cases hn'.symm.trans hk
      exact ⟨n, hn, hcore i n n' hn hn'⟩
  refine ⟨⟨ha.linked, ho, fun i n' hn' hout => ?_, fun i n' hn' => ?_, fun i n' hn' => ?_⟩,
    fun i n hn => ?_⟩
  · obtain ⟨n, hn, hop, -⟩ := hcore' i n'.core (core?_of_get? hn')
    obtain ⟨k, hk, rfl⟩ := exists_get?_of_core? hn
    rw [ha.last?_eq]
    exact h.output_last i k hk (hop.symm.trans hout)
  · obtain ⟨n, -, -, hp, -⟩ := hcore' i n' hn'
    rw [Passes, ShapeFits, ha.shapeOf_eq h.linked]
    exact hp
  · obtain ⟨n, -, -, -, hown⟩ := hcore' i n' hn'
    exact hown
  · rcases ha.core?_cases h.linked i with ⟨hno, -⟩ | ⟨_, n', hk, hn'⟩
    · cases (core?_of_get? hn).symm.trans hno
    · cases (core?_of_get? hn).symm.trans hk
      have hs := ha.shape i _ n' hk hn'
      obtain ⟨k', hk', rfl⟩ := exists_get?_of_core? hn'
      exact ⟨k', hk', hs⟩

theorem not_parameter_of_not_builtin (h : n.op.isBuiltin = false) :
    n.parameter? = none ∧ n.op.isOutput = false := by
  obtain ⟨op, _, _, _, _, _⟩ := n
  cases op <;> first | exact ⟨rfl, rfl⟩ | cases h

/-- The users of an instruction can be made to use an earlier one of the same shape. -/
theorem Accepted.exists_checkRedirect (h : Accepted m) (hnew : (m.get? new).isSome)
    (hlt : m.order.idxOf new < m.order.idxOf old) (hs : m.shapeOf old = m.shapeOf new) :
    ∃ rs, m.checkRedirect old new = .ok rs := by
  refine Except.exists_mapM_eq_ok fun user hu => ?_
  have hin : old ∈ m.inputsOf user := (h.linked.mem_users old user).1 (List.mem_filter.1 hu).1
  obtain ⟨k, hk⟩ := Option.isSome_iff_exists.1 (live_of_mem_inputsOf hin)
  have hd : ¬ m.dependsOn new user := fun hd =>
    h.not_depends_of_idxOf_lt (Nat.lt_trans hlt (h.ordered.idxOf_lt h.linked hin))
      (dependsOn_iff.1 hd)
  have hlive : ∀ i ∈ k.inputs.map fun i => if i = old then new else i, (m.get? i).isSome := by
    intro i hi
    obtain ⟨a, ha, rfl⟩ := List.mem_map.1 hi
    split
    · exact hnew
    · exact h.linked.live_input (inputsOf_of_get? hk ▸ ha)
  have hfits : k.op.inferShape (k.inputs.map m.shapeOf) k.moduleOutputs = .ok k.shape :=
    h.fits_of_mem (n := k.core) (core?_of_get? hk) (inputsOf_of_get? hk ▸ hin)
  rw [if_neg hd, get_eq_ok_iff.2 hk]
  change ∃ b, (liftM (m.shapesOf _) >>= _ : Except Failure Redirected) = .ok b
  rw [shapesOf_eq_ok_iff.2 ⟨hlive, rfl⟩]
  change ∃ b, (k.op.inferShape _ _ >>= _ : Except Failure Redirected) = .ok b
  rw [map_forward hs, hfits]
  exact ⟨_, rfl⟩

/-- An instruction can be replaced by an operator that accepts earlier inputs. -/
theorem Accepted.replacement (h : Accepted m) (hold : m.get? old = some n)
    (ho : op.isOutput = n.op.isOutput) (hp : m.requireFreeName (some old) op = .ok ())
    (hu : op.usesModules = false) {inputs : List InstructionId} {shape : Shape}
    (hin : ∀ i ∈ inputs, (m.get? i).isSome ∧ m.order.idxOf i < m.order.idxOf old)
    (hs : op.inferShape (inputs.map m.shapeOf) [] = .ok shape) :
    Replacement m old op inputs n { n with op, inputs, shape, moduleArgs := [], moduleOutputs := [] } where
  get := hold
  live i hi := (hin i hi).1
  acyclic i hi := h.not_depends_of_idxOf_lt (hin i hi).2
  output := ho
  free := hp
  eq := by simp [hu]
  shape := hs

/-- Making the users of an instruction use an earlier one of the same shape succeeds. The last
instruction becomes the identity instead, for which the shape has to be addressable. -/
theorem Accepted.replaceWith_forwards (h : Accepted m) {k : Instruction}
    (hold : m.get? old = some n) (ho : n.op.isOutput = false) (hnew : m.get? new = some k)
    (hs : k.shape = n.shape) (hlt : m.order.idxOf new < m.order.idxOf old)
    (haddr : m.last? = some old → k.shape.addressable = true) :
    (replaceWith old new).Leaves m (fun _ m' => Forwarded m old new m') fun _ _ => False := by
  have hne : old ≠ new := fun he => Nat.lt_irrefl _ (he ▸ hlt)
  have hshape : m.shapeOf old = m.shapeOf new := by
    rw [shapeOf_of_get? hold, shapeOf_of_get? hnew, hs]
  refine (Module.replaceWith_leaves old new m).mono ?_ ?_
  · rintro _ m' (⟨he, -⟩ | ⟨-, hf⟩)
    · exact absurd he hne
    · exact hf
  · rintro e _ ⟨-, hno⟩
    cases hno with
    | unknown hno =>
      rcases hno with hno | hno
      · exact (nomatch hold.symm.trans hno)
      · exact (nomatch hnew.symm.trans hno)
    | output hb hout =>
      cases hold.symm.trans hb
      exact (nomatch ho.symm.trans hout)
    | replace _ hlast herror =>
      have hid : Operator.identity.inferShape ([new].map m.shapeOf) [] = .ok k.shape := by
        rw [Operator.inferShape_eq_ok, Operator.rawShape_identity, List.map_singleton,
          shapeOf_of_get? hnew]
        exact ⟨rfl, haddr hlast⟩
      have hlive : ∀ i ∈ [new], (m.get? i).isSome ∧ m.order.idxOf i < m.order.idxOf old := by
        simpa [hnew] using hlt
      have hout : Operator.identity.isOutput = n.op.isOutput := ho.symm
      have hr := h.replacement hold hout rfl rfl hlive hid
      rw [checkReplace_eq_ok.2 ⟨_, hr⟩] at herror
      cases herror
    | redirect herror =>
      obtain ⟨rs, hrs⟩ := h.exists_checkRedirect (by simp [hnew]) hlt hshape
      rw [hrs] at herror
      cases herror

section Forwarded
variable (hf : Forwarded m old new m') (h : Accepted m)
  (hlt : m.order.idxOf new < m.order.idxOf old) (hs : m.shapeOf old = m.shapeOf new)
include hf h hlt hs

private theorem Forwarded.substitutes {k k' : Instruction} (hk : m.core? i = some k)
    (hk' : m'.core? i = some k') :
    k'.shape = k.shape ∧ k'.op.isOutput = k.op.isOutput ∧ m.Passes k' ∧ OwnShape k' := by
  have hne : old ≠ new := fun he => Nat.lt_irrefl _ (he ▸ hlt)
  rcases hf.core?_cases hne h.linked hk' with he | ⟨a, ha, he, hold, hfit⟩ | ⟨rfl, -, before, after, hr, rfl⟩
  · cases hk.symm.trans he
    exact ⟨rfl, rfl, h.passes i k hk, h.own i k hk⟩
  · cases hk.symm.trans ha
    have hin : k'.inputs.map m.shapeOf = k.inputs.map m.shapeOf := by
      rw [he]
      exact map_forward hs _
    have hfit' : m.ShapeFits k' := by
      rw [ShapeFits, he]
      rwa [he] at hfit
    refine ⟨?_, by rw [he], .inr hfit', ownShape_of_inferShape hfit'⟩
    rw [hin] at hfit
    exact Except.ok.inj (hfit.symm.trans (h.fits_of_mem hk hold))
  · obtain ⟨hraw, -⟩ := Operator.inferShape_eq_ok.1 hr.shape
    have hin : m.shapeOf new = after.shape := by
      simpa using Operator.rawShape_identity.1 hraw
    have hfit : m.ShapeFits after.core := by
      change after.op.inferShape (after.inputs.map m.shapeOf) after.moduleOutputs = .ok after.shape
      rw [hr.op_eq, hr.inputs_eq]
      exact hr.shape
    refine ⟨?_, ?_, .inr hfit, ownShape_of_inferShape hfit⟩
    · change after.shape = k.shape
      rw [← hin, ← hs, shapeOf_of_core? hk]
    · cases (core?_of_get? hr.get).symm.trans hk
      change after.op.isOutput = before.op.isOutput
      rw [hr.op_eq, hr.output]

theorem Forwarded.standing : Standing m m' := by
  have hne : old ≠ new := fun he => Nat.lt_irrefl _ (he ▸ hlt)
  exact ⟨(hf.change hne).linked h.linked, hf.order_eq h.linked h.ordered hlt,
    fun i k k' hk hk' => (hf.substitutes h hlt hs hk hk').1⟩

theorem Forwarded.upholds : Upholds m m' := by
  have hne : old ≠ new := fun he => Nat.lt_irrefl _ (he ▸ hlt)
  exact h.rework (hf.standing h hlt hs) ((hf.change hne).ordered h.linked h.ordered)
    fun i k k' hk hk' => (hf.substitutes h hlt hs hk hk').2

end Forwarded

/-- An operator that computes a value of its inputs alone. -/
structure Plain (op : Operator) : Prop where
  output : op.isOutput = false
  parameter : ∀ name shape, op ≠ .parameter name shape
  modules : op.usesModules = false

theorem Plain.parameter?_eq_none (h : Plain n.op) : n.parameter? = none := by
  rw [Instruction.parameter?]
  split
  · exact absurd ‹_› (h.parameter _ _)
  · rfl

theorem Plain.free (h : Plain op) (m : Module) (except : Option InstructionId) :
    m.requireFreeName except op = .ok () := by
  unfold requireFreeName
  split
  · exact absurd rfl (h.parameter _ _)
  · rfl

/-- An instruction computed by another operator from other inputs, without sub-modules. -/
def recomputed (n : Instruction) (op : Operator) (inputs : List InstructionId) : Instruction :=
  { n with op, inputs, moduleArgs := [], moduleOutputs := [] }

/-- Replacing an instruction by an operator that accepts earlier inputs succeeds, and leaves the
others as they are. -/
theorem Accepted.replace_rewires (h : Accepted m) (hold : m.get? old = some n)
    (ho : op.isOutput = n.op.isOutput) (hp : m.requireFreeName (some old) op = .ok ())
    (hu : op.usesModules = false) {inputs : List InstructionId} {shape : Shape}
    (hin : ∀ i ∈ inputs, (m.get? i).isSome ∧ m.order.idxOf i < m.order.idxOf old)
    (hs : op.inferShape (inputs.map m.shapeOf) [] = .ok shape) :
    (replace old op inputs).Leaves m
      (fun _ m' => Linked m' ∧ Ordered m' ∧ m'.name = m.name ∧ m'.order = m.order ∧
        ∀ i, m'.core? i = if i = old then some { recomputed n.core op inputs with shape := shape }
          else m.core? i)
      fun _ _ => False := by
  refine (Module.replace_leaves old op inputs m).mono ?_ ?_
  · rintro _ _ ⟨-, before, after, hr, rfl⟩
    cases hold.symm.trans hr.get
    have hlive : ∀ i ∈ after.inputs, (m.get? i).isSome := hr.inputs_eq ▸ hr.live
    have hlt : ∀ i ∈ after.inputs, m.order.idxOf i < m.order.idxOf old := fun i hi =>
      (hin i (hr.inputs_eq ▸ hi)).2
    have hc : Change m (m.rewire old after) := .rewire hr
    have hafter := hr.eq
    simp only [hu, Bool.false_eq_true, if_false] at hafter
    have houts : after.moduleOutputs = [] := by rw [hafter]
    have hshape : after.shape = shape := Except.ok.inj ((houts ▸ hr.shape).symm.trans hs)
    rw [rewire_of_earlier h.linked hr.old_live hlive hlt] at hc ⊢
    refine ⟨hc.linked h.linked, hc.ordered h.linked h.ordered, (sameFrame_relink _ _ _).name,
      (sameFrame_relink _ _ _).order, fun i => ?_⟩
    rw [core?_relink]
    split
    · rename_i hi
      rw [hi, core?_of_get? hold, hafter, hshape]
      rfl
    · rfl
  · rintro e _ ⟨herror, -⟩
    have hr := h.replacement hold ho hp hu hin hs
    rw [checkReplace_eq_ok.2 ⟨_, hr⟩] at herror
    cases herror

/-- Replacing an instruction by one of the same shape with earlier inputs succeeds, and leaves the
others as they are. -/
theorem Accepted.replace_leaves (h : Accepted m) (hold : m.get? old = some n)
    (ho : n.op.isOutput = false) (hop : Plain op) {inputs : List InstructionId}
    (hin : ∀ i ∈ inputs, (m.get? i).isSome ∧ m.order.idxOf i < m.order.idxOf old)
    (hs : op.inferShape (inputs.map m.shapeOf) [] = .ok n.shape) :
    (replace old op inputs).Leaves m
      (fun _ m' => Linked m' ∧ Ordered m' ∧ m'.name = m.name ∧ m'.order = m.order ∧
        ∀ i, m'.core? i = if i = old then some (recomputed n.core op inputs) else m.core? i)
      fun _ _ => False :=
  h.replace_rewires hold (hop.output.trans ho.symm) (hop.free m _) hop.modules hin hs

theorem Standing.recompute (ha : Standing m m') (hold : m'.core? old = some n) (hl : Linked m'')
    (horder : m''.order = m'.order) {inputs : List InstructionId}
    (hcore : ∀ i, m''.core? i = if i = old then some (recomputed n op inputs) else m'.core? i) :
    Standing m m'' := by
  refine ⟨hl, horder.trans ha.order, fun i k k'' hk hk'' => ?_⟩
  rw [hcore] at hk''
  split at hk''
  · rename_i hi
    subst hi
    cases hk''
    exact ha.shape i k n hk hold
  · exact ha.shape i k k'' hk hk''

/-- What computes the same shape in place keeps the module accepted. -/
theorem Accepted.recompute (h : Accepted m) (hold : m.core? old = some n) (ho : n.op.isOutput = false)
    (hop : op.isOutput = false) {inputs : List InstructionId}
    (hs : op.inferShape (inputs.map m.shapeOf) [] = .ok n.shape) (hl : Linked m') (ho' : Ordered m')
    (horder : m'.order = m.order)
    (hcore : ∀ i, m'.core? i = if i = old then some (recomputed n op inputs) else m.core? i) :
    Upholds m m' := by
  refine h.rework (h.linked.standing.recompute hold hl horder hcore) ho' fun i k k' hk hk' => ?_
  rw [hcore] at hk'
  split at hk'
  · rename_i hi
    subst hi
    cases hk.symm.trans hold
    cases hk'
    exact ⟨hop.trans ho.symm, .inr hs, ownShape_of_inferShape (n := recomputed n op inputs) hs⟩
  · cases hk'.symm.trans hk
    exact ⟨rfl, h.passes i k hk, h.own i k hk⟩

theorem idxOf_nextId_place (hl : Linked m) {p : Nat} (hp : p ≤ m.order.length) (n : Instruction) :
    (m.place p n).order.idxOf m.nextId = p := by
  have hno : m.nextId ∉ m.order.take p := fun h => nextId_notMem_order hl (List.mem_of_mem_take h)
  rw [order_place_eq hp, List.idxOf_append_of_notMem hno, List.idxOf_cons_self, List.length_take,
    Nat.min_eq_left hp]
  rfl

/-- What stands at the place of a new instruction or after it moves back by one. -/
theorem idxOf_place (hl : Linked m) {p : Nat} (hp : p ≤ m.order.length) (hi : i ∈ m.order)
    (n : Instruction) : (m.place p n).order.idxOf i =
      if p ≤ m.order.idxOf i then m.order.idxOf i + 1 else m.order.idxOf i := by
  have hne : m.nextId ≠ i := fun he => nextId_notMem_order hl (he ▸ hi)
  have hsplit : m.order.idxOf i = (m.order.take p ++ m.order.drop p).idxOf i := by
    rw [List.take_append_drop]
  have hlen : (m.order.take p).length = p := by rw [List.length_take, Nat.min_eq_left hp]
  rw [order_place_eq hp]
  by_cases hmem : i ∈ m.order.take p
  · have hlt : m.order.idxOf i < p := by
      rw [hsplit, List.idxOf_append_of_mem hmem]
      exact Nat.lt_of_lt_of_eq (List.idxOf_lt_length_iff.2 hmem) hlen
    rw [if_neg (Nat.not_le.2 hlt), List.idxOf_append_of_mem hmem, hsplit,
      List.idxOf_append_of_mem hmem]
  · rw [hsplit, List.idxOf_append_of_notMem hmem, List.idxOf_append_of_notMem hmem, hlen,
      List.idxOf_cons_ne _ hne, if_pos (Nat.le_add_right _ _)]
    omega

theorem lt_idxOf_place (hl : Linked m) {p : Nat} (hi : i ∈ m.order) (hp : p ≤ m.order.idxOf i)
    (n : Instruction) : p < (m.place p n).order.idxOf i := by
  have hlen : p ≤ m.order.length :=
    Nat.le_trans hp (Nat.le_of_lt (List.idxOf_lt_length_iff.2 hi))
  rw [idxOf_place hl hlen hi, if_pos hp]
  omega

theorem get?_nextId_place (m : Module) (p : Nat) (n : Instruction) :
    ∃ k, (m.place p n).get? m.nextId = some k ∧ k.shape = n.shape := by
  obtain ⟨k, hk, he⟩ := exists_get?_of_core? ((core?_place m p n m.nextId).trans (if_pos rfl))
  have hs := congrArg Instruction.shape he
  exact ⟨k, hk, hs.symm⟩

/-- A new instruction that passes the check leaves the others as they are. -/
theorem Accepted.place (h : Accepted m) {p : Nat} (hp : Placeable m p n) (hpass : m.Passes n)
    (hown : OwnShape n) : Upholds m (m.place p n) := by
  have hc : Change m (m.place p n) := .place hp
  refine ⟨⟨hc.linked h.linked, hc.ordered h.linked h.ordered, h.output_last.place hp,
    fun i k hk => ?_, fun i k hk => ?_⟩, fun i k hk => ?_⟩
  · rw [core?_place] at hk
    split at hk
    · cases hk
      refine hpass.imp id fun hfits => ?_
      change n.op.inferShape (n.inputs.map _) n.moduleOutputs = .ok n.shape
      rw [map_shapeOf_place (hp.live h.linked)]
      exact hfits
    · refine (h.passes i k hk).imp id fun hfits => ?_
      rw [ShapeFits, map_shapeOf_place fun j hj => h.linked.live_input (inputsOf_of_core? hk ▸ hj)]
      exact hfits
  · rw [core?_place] at hk
    split at hk
    · cases hk
      exact ⟨hown.literal, hown.parameter⟩
    · exact h.own i k hk
  · have hcore := (core?_place_of_live (by simp [hk]) p n).trans (core?_of_get? hk)
    obtain ⟨k', hk', he⟩ := exists_get?_of_core? hcore
    have hs := congrArg Instruction.shape he
    exact ⟨k', hk', hs.symm⟩

/-- An operator that accepts earlier inputs can be placed behind them, if no list of outputs comes
before it. -/
theorem Accepted.insertAt_places (h : Accepted m) (hop : Plain op) {inputs : List InstructionId}
    {shape : Shape} {p : Nat} (hp : p ≤ m.order.length)
    (hend : p = m.order.length → m.output? = none)
    (hin : ∀ i ∈ inputs, (m.get? i).isSome ∧ m.order.idxOf i < p)
    (hs : op.inferShape (inputs.map m.shapeOf) [] = .ok shape) :
    Placeable m p { op, inputs, shape } ∧
      (insertAt p op inputs [] []).Leaves m
        (fun new m' => new = m.nextId ∧ m' = m.place p { op, inputs, shape }) fun _ _ => False := by
  have hcheck : m.checkInsert p op inputs [] = .ok shape := by
    refine checkInsert_eq_ok.2 ⟨requirePlace_eq_ok.2 ⟨?_, hend, hop.free m none⟩, fun i hi => ?_,
      fun i hi => (hin i hi).1, hs⟩
    · simp [hop.output]
    · exact ⟨_, (hin i hi).2, position?_of_mem ((h.linked.mem_order i).2 (hin i hi).1)⟩
  refine ⟨placeable_of_checkInsert hp hcheck, (insertAt_leaves _ op inputs [] [] m).mono ?_ ?_⟩
  · rintro _ _ ⟨rfl, shape', hshape', rfl⟩
    cases hcheck.symm.trans hshape'
    exact ⟨rfl, rfl⟩
  · rintro e _ ⟨herror, -⟩
    rw [hcheck] at herror
    cases herror

/-- An operator that accepts earlier inputs can be placed just before an instruction. -/
theorem Accepted.insert_places (h : Accepted m) (hold : (m.get? old).isSome) (hop : Plain op)
    {inputs : List InstructionId} {shape : Shape}
    (hin : ∀ i ∈ inputs, (m.get? i).isSome ∧ m.order.idxOf i < m.order.idxOf old)
    (hs : op.inferShape (inputs.map m.shapeOf) [] = .ok shape) :
    Placeable m (m.order.idxOf old) { op, inputs, shape } ∧
      (insert old op inputs).Leaves m
        (fun new m' => new = m.nextId ∧ m' = m.place (m.order.idxOf old) { op, inputs, shape })
        fun _ _ => False := by
  have hmem : old ∈ m.order := (h.linked.mem_order old).2 hold
  have hpos := position?_of_mem hmem
  have hlt : m.order.idxOf old < m.order.length := List.idxOf_lt_length_iff.2 hmem
  obtain ⟨hp, hplaced⟩ := h.insertAt_places hop (Nat.le_of_lt hlt)
    (fun he => absurd he (Nat.ne_of_lt hlt)) hin hs
  refine ⟨hp, ?_⟩
  simp only [insert, insertWithModules, leaves_bind, leaves_get, leaves_lift, requirePosition_eq_ok,
    hpos]
  refine ⟨fun p hp => ?_, fun e he => ?_⟩
  · cases hp
    exact hplaced
  · rw [requirePosition, hpos] at he
    cases he

/-- The users of an instruction can be made to use a new one that is placed before it and has its
shape. -/
theorem Accepted.insert_forwards (h : Accepted m) (hold : m.get? old = some n)
    (ho : n.op.isOutput = false) (hop : Plain op) {inputs : List InstructionId}
    (hin : ∀ i ∈ inputs, (m.get? i).isSome ∧ m.order.idxOf i < m.order.idxOf old)
    (hs : op.inferShape (inputs.map m.shapeOf) [] = .ok n.shape) {placed : Module}
    (hplaced : placed = m.place (m.order.idxOf old) { op, inputs, shape := n.shape }) :
    Upholds m placed ∧ placed.order.idxOf m.nextId < placed.order.idxOf old ∧
      placed.shapeOf old = placed.shapeOf m.nextId ∧
      (insert old op inputs >>= fun new => replaceWith old new).Leaves m
        (fun _ m' => Forwarded placed old m.nextId m') fun _ _ => False := by
  subst hplaced
  have hlive : (m.get? old).isSome := by simp [hold]
  have hmem := (h.linked.mem_order old).2 hlive
  obtain ⟨hplaceable, hinsert⟩ := h.insert_places hlive hop hin hs
  have hu := h.place hplaceable (.inr hs) (ownShape_of_inferShape hs)
  have hlt : (m.place (m.order.idxOf old) { op, inputs, shape := n.shape }).order.idxOf m.nextId <
      (m.place (m.order.idxOf old) { op, inputs, shape := n.shape }).order.idxOf old := by
    rw [idxOf_nextId_place h.linked (Nat.le_of_lt (List.idxOf_lt_length_iff.2 hmem))]
    exact lt_idxOf_place h.linked hmem (Nat.le_refl _) _
  obtain ⟨n₁, hn₁, hcore⟩ := exists_get?_of_core?
    ((core?_place_of_live hlive (m.order.idxOf old) _).trans (core?_of_get? hold))
  obtain ⟨k, hk, hks⟩ := get?_nextId_place m (m.order.idxOf old) { op, inputs, shape := n.shape }
  have hshape : k.shape = n₁.shape := by
    have hkept : n.core.shape = n₁.core.shape := congrArg Instruction.shape hcore
    exact hks.trans hkept
  refine ⟨hu, hlt, ?_, ?_⟩
  · rw [shapeOf_of_get? hn₁, shapeOf_of_get? hk, hshape]
  · refine hinsert.bind ?_
    rintro _ _ ⟨rfl, rfl⟩
    refine hu.accepted.replaceWith_forwards hn₁ (Instruction.op_eq_of_core hcore ▸ ho) hk hshape hlt ?_
    intro _
    rw [hks]
    exact (Operator.inferShape_eq_ok.1 hs).2

end TensorGraph.Module
