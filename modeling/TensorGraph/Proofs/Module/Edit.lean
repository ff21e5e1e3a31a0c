import TensorGraph.Proofs.Action
import TensorGraph.Proofs.Module.Preservation

/-! What an edit can do to a module: it makes one of a few changes after its checks passed, or it
fails and leaves the module as it was. -/
namespace TensorGraph.Module
variable {m m' : Module} {i j old new : InstructionId} {n : Instruction} {op : Operator}

theorem require_eq_ok : m.require i = .ok () ↔ (m.get? i).isSome := by
  rw [require, contains_eq_isSome]
  split <;> simp_all [refuse]

theorem requirePosition_eq_ok {p : Nat} : m.requirePosition i = .ok p ↔ m.position? i = some p := by
  rw [requirePosition]
  split <;> simp_all [refuse]

/-- The name of a parameter. -/
def nameOf? (m : Module) (i : InstructionId) : Option String :=
  (m.core? i).bind Instruction.parameterName?

theorem nameOf?_eq (m : Module) (i : InstructionId) :
    m.nameOf? i = (m.get? i).bind Instruction.parameterName? := by
  rw [nameOf?, core?]
  cases m.get? i <;> rfl

theorem parameter?_eq_none {name : String} (h : m.parameter? name = none) (hi : i ∈ m.order) :
    m.nameOf? i ≠ some name := by
  rw [nameOf?_eq]
  simpa using List.find?_eq_none.1 h i hi

theorem parameter?_eq_some {name : String} (h : m.parameter? name = some i) :
    i ∈ m.order ∧ m.nameOf? i = some name := by
  rw [nameOf?_eq]
  exact ⟨List.mem_of_find?_eq_some h, by simpa using List.find?_some h⟩

/-- A name is free when no instruction but the excepted one carries it. -/
theorem requireFreeName_eq_ok {except : Option InstructionId}
    (h : m.requireFreeName except op = .ok ()) {name : String} {shape : Shape}
    (ho : op = .parameter name shape) (hp : m.parameter? name = some i) : some i = except := by
  subst ho
  simp only [requireFreeName, hp] at h
  split at h
  · assumption
  · cases h

/-- Where an instruction may stand: outputs only at the end, and nothing after them. -/
theorem requirePlace_eq_ok {p : Nat} :
    m.requirePlace p op = .ok () ↔
      (op.isOutput → p = m.order.length) ∧ (p = m.order.length → m.output? = none) ∧
        m.requireFreeName none op = .ok () := by
  have hopen : (if (m.output?.isSome && p == m.order.length) = true then
        refuse (.misplacedReturn m.name) else pure () : Except Failure Unit) = .ok () ↔
      (p = m.order.length → m.output? = none) := by
    cases m.output? <;> by_cases hp : p = m.order.length <;> simp [hp, refuse]
  cases op with
  | output =>
    simp only [requirePlace, Operator.isOutput, requireFreeName]
    cases m.output? <;> by_cases hp : p = m.order.length <;> simp [hp, refuse]
  | parameter name shape =>
    simp only [requirePlace, Operator.isOutput, Except.bind_eq_ok, hopen]
    exact ⟨fun ⟨_, hf, ho⟩ => ⟨nofun, ho, hf⟩, fun ⟨_, ho, hf⟩ => ⟨(), hf, ho⟩⟩
  | _ =>
    simp only [requirePlace, Operator.isOutput, requireFreeName, hopen]
    simp

theorem checkInsert_eq_ok {p : Nat} {inputs : List InstructionId} {outs : List (List Shape)}
    {shape : Shape} :
    m.checkInsert p op inputs outs = .ok shape ↔
      m.requirePlace p op = .ok () ∧ (∀ i ∈ inputs, ∃ q < p, m.position? i = some q) ∧
        (∀ i ∈ inputs, (m.get? i).isSome) ∧ op.inferShape (inputs.map m.shapeOf) outs = .ok shape := by
  have hbefore : ∀ i, (do
      if p ≤ (← m.requirePosition i) then refuse (.useBeforeDef m.nextId i) else return ()
      : Except Failure Unit) = .ok () ↔ ∃ q < p, m.position? i = some q := by
    intro i
    simp only [Except.bind_eq_ok, requirePosition_eq_ok]
    refine exists_congr fun q => ?_
    split
    · rename_i hle
      exact ⟨fun h => (nomatch h.2), fun h => absurd h.1 (Nat.not_lt.2 hle)⟩
    · rename_i hlt
      exact ⟨fun h => ⟨Nat.lt_of_not_le hlt, h.1⟩, fun h => ⟨h.2, rfl⟩⟩
  rw [checkInsert, Except.seq_eq_ok, Except.seq_eq_ok, Except.forM_eq_ok]
  simp only [hbefore, Except.bind_eq_ok, Except.lift_eq_ok, shapesOf_eq_ok_iff]
  constructor
  · rintro ⟨hp, hb, _, ⟨hl, rfl⟩, hs⟩
    exact ⟨hp, hb, hl, hs⟩
  · rintro ⟨hp, hb, hl, hs⟩
    exact ⟨hp, hb, _, ⟨hl, rfl⟩, hs⟩

/-- What replaces an instruction in place, when that is allowed. -/
structure Replacement (m : Module) (old : InstructionId) (op : Operator)
    (inputs : List InstructionId) (before after : Instruction) : Prop where
  get : m.get? old = some before
  live : ∀ i ∈ inputs, (m.get? i).isSome
  acyclic : ∀ i ∈ inputs, ¬ m.Depends i old
  output : op.isOutput = before.op.isOutput
  free : m.requireFreeName (some old) op = .ok ()
  eq : after = { before with
    op := op
    inputs := inputs
    shape := after.shape
    moduleArgs := if op.usesModules then before.moduleArgs else []
    moduleOutputs := if op.usesModules then before.moduleOutputs else [] }
  shape : op.inferShape (inputs.map m.shapeOf) after.moduleOutputs = .ok after.shape

theorem Replacement.inputs_eq {old : InstructionId} {op : Operator} {inputs : List InstructionId}
    {before after : Instruction} (h : Replacement m old op inputs before after) :
    after.inputs = inputs := by
  rw [h.eq]

theorem Replacement.op_eq {old : InstructionId} {op : Operator} {inputs : List InstructionId}
    {before after : Instruction} (h : Replacement m old op inputs before after) : after.op = op := by
  rw [h.eq]

theorem Replacement.old_live {old : InstructionId} {op : Operator} {inputs : List InstructionId}
    {before after : Instruction} (h : Replacement m old op inputs before after) :
    (m.get? old).isSome := by
  simp [h.get]

/-- What replacing in place leaves of each instruction. -/
theorem Replacement.core?_rewire {inputs : List InstructionId} {before after : Instruction}
    (h : Replacement m old op inputs before after) (hl : Linked m) (j : InstructionId) :
    (m.rewire old after).core? j = if j = old then some after.core else m.core? j := by
  obtain ⟨l, -, he⟩ := rewire_reorder hl h.old_live (h.inputs_eq ▸ h.live)
  rw [he]
  change (m.relink old after).core? j = _
  rw [core?_relink]
  split
  · rename_i hj
    rw [hj, core?_of_get? h.get]
    rfl
  · rfl

theorem Replacement.name_rewire {inputs : List InstructionId} {before after : Instruction}
    (h : Replacement m old op inputs before after) (hl : Linked m) :
    (m.rewire old after).name = m.name := by
  obtain ⟨l, -, he⟩ := rewire_reorder hl h.old_live (h.inputs_eq ▸ h.live)
  rw [he]
  exact (sameFrame_relink m old after).name

theorem checkInput_eq_ok :
    (do
      m.require i
      if m.dependsOn i old then refuse (.cycle old) else return () : Except Failure Unit) = .ok () ↔
      (m.get? i).isSome ∧ ¬ m.Depends i old := by
  rw [Except.seq_eq_ok, require_eq_ok, ← dependsOn_iff]
  split <;> simp_all [refuse]

theorem checkReplace_eq_ok {inputs : List InstructionId} {after : Instruction} :
    m.checkReplace old op inputs = .ok after ↔ ∃ before, Replacement m old op inputs before after := by
  rw [checkReplace, Except.seq_eq_ok, Except.seq_eq_ok, Except.forM_eq_ok, require_eq_ok]
  simp only [checkInput_eq_ok]
  simp only [Except.bind_eq_ok, Except.lift_eq_ok, get_eq_ok_iff]
  constructor
  · rintro ⟨-, hi, before, hg, h⟩
    split at h
    · cases h
    · rename_i ho
      rw [Except.seq_eq_ok] at h
      simp only [Except.bind_eq_ok, Except.lift_eq_ok, shapesOf_eq_ok_iff, Except.pure_eq_ok] at h
      obtain ⟨hf, _, ⟨-, rfl⟩, shape, hs, rfl⟩ := h
      refine ⟨before, hg, fun i h => (hi i h).1, fun i h => (hi i h).2, by simpa using ho, hf, ?_, hs⟩
      split <;> rfl
  · rintro ⟨before, hr⟩
    refine ⟨by simp [hr.get], fun i h => ⟨hr.live i h, hr.acyclic i h⟩, before, hr.get, ?_⟩
    rw [if_neg (by simp [hr.output]), Except.seq_eq_ok]
    refine ⟨hr.free, ?_⟩
    have ho := congrArg Instruction.moduleOutputs hr.eq
    have hs := hr.shape
    have he := hr.eq
    by_cases hu : op.usesModules <;> simp only [hu, if_true, Bool.false_eq_true, if_false] at ho he ⊢ <;>
      simp only [Except.bind_eq_ok, Except.lift_eq_ok, shapesOf_eq_ok_iff, Except.pure_eq_ok] <;>
      exact ⟨_, ⟨hr.live, rfl⟩, after.shape, ho ▸ hs, he.symm⟩

/-- An instruction that may be placed at a position. The shape is inferred from the inputs, and a
constant has its own. -/
structure Placeable (m : Module) (p : Nat) (n : Instruction) : Prop where
  le : p ≤ m.order.length
  users : n.users = []
  output_last : n.op.isOutput → p = m.order.length
  open_end : p = m.order.length → m.output? = none
  free : m.requireFreeName none n.op = .ok ()
  before : ∀ i ∈ n.inputs, ∃ q < p, m.position? i = some q
  shape : n.op.inferShape (n.inputs.map m.shapeOf) n.moduleOutputs = .ok n.shape ∨
    ∃ value, n = { op := .literal value, inputs := [], shape := value.shape }

/-- Gives a parameter another name. -/
def rename (m : Module) (i : InstructionId) (name : String) : Module :=
  m.update i fun n =>
    match n.op with
    | .parameter _ shape => { n with op := .parameter name shape }
    | _ => n

theorem get?_rename (m : Module) (i : InstructionId) (name : String) (j : InstructionId) :
    (m.rename i name).get? j = if j = i then (m.get? j).map fun n => { n with
      op := match n.op with
        | .parameter _ shape => .parameter name shape
        | op => op } else m.get? j := by
  rw [rename, get?_update]
  split
  · congr 1
    funext n
    obtain ⟨op, _, _, _, _, _⟩ := n
    cases op <;> rfl
  · rfl

/-- The changes that edits make, with what their checks have established. -/
inductive Change (m : Module) : Module → Prop
  | place {p : Nat} {n : Instruction} (h : Placeable m p n) : Change m (m.place p n)
  | rewire {old : InstructionId} {op : Operator} {inputs : List InstructionId}
      {before after : Instruction} (h : Replacement m old op inputs before after) :
      Change m (m.rewire old after)
  | redirect {old new : InstructionId} {rs : List Redirected} {n : Instruction}
      (hne : old ≠ new) (hn : (m.get? new).isSome) (ho : m.get? old = some n)
      (hop : n.op.isOutput = false) (hlast : m.last? ≠ some old)
      (h : Redirection m old new rs) : Change m (m.redirect old new rs)
  | rename {i : InstructionId} {name : String} (hi : (m.nameOf? i).isSome)
      (h : ∀ j ∈ m.order, m.nameOf? j = some name → m.nameOf? i = some name) :
      Change m (m.rename i name)
  | detach {i : InstructionId} (hi : (m.get? i).isSome) : Change m (m.detach i)
  | remove {i : InstructionId} (hi : (m.get? i).isSome) (hu : m.usersOf i = []) :
      Change m ((m.detach i).erase i)
  | truncate {i : InstructionId} {p : Nat} (h : m.position? i = some p) :
      Change m (m.truncate (p + 1))
  | toEnd {i : InstructionId} (hi : (m.get? i).isSome) (hu : m.usersOf i = []) :
      Change m (m.toEnd i)

open TensorGraph.Action

theorem insertAt_leaves (p : Nat) (op : Operator) (inputs : List InstructionId)
    (args : List ModuleId) (outs : List (List Shape)) (m : Module) :
    (insertAt p op inputs args outs).Leaves m
      (fun i m' => i = m.nextId ∧ ∃ shape, m.checkInsert p op inputs outs = .ok shape ∧
        m' = m.place p { op, inputs, shape, moduleArgs := args, moduleOutputs := outs })
      (fun e m' => m.checkInsert p op inputs outs = .error e ∧ m' = m) := by
  simp only [insertAt, leaves_bind, leaves_get, leaves_lift, leaves_set, leaves_report, leaves_pure]
  exact ⟨fun shape h => ⟨trivial, shape, h, rfl⟩, fun e h => ⟨h, trivial⟩⟩

theorem placeable_of_checkInsert {p : Nat} {inputs : List InstructionId} {args : List ModuleId}
    {outs : List (List Shape)} {shape : Shape} (hp : p ≤ m.order.length)
    (h : m.checkInsert p op inputs outs = .ok shape) :
    Placeable m p { op, inputs, shape, moduleArgs := args, moduleOutputs := outs } := by
  obtain ⟨hplace, hb, -, hs⟩ := checkInsert_eq_ok.1 h
  obtain ⟨ho, he, hf⟩ := requirePlace_eq_ok.1 hplace
  exact ⟨hp, rfl, ho, he, hf, hb, .inl hs⟩

/-- A new instruction with the given sub-modules has been placed where it may stand. -/
def Placed (m : Module) (args : List ModuleId) (outs : List (List Shape)) (m' : Module) : Prop :=
  ∃ p n, Placeable m p n ∧ n.moduleArgs = args ∧ n.moduleOutputs = outs ∧ m' = m.place p n

theorem Placed.change {args : List ModuleId} {outs : List (List Shape)} (h : Placed m args outs m') :
    Change m m' := by
  obtain ⟨p, n, hp, -, -, rfl⟩ := h
  exact .place hp

/-- An insertion at a position in range places an instruction or leaves the module as it was. -/
theorem insertAt_placed {p : Nat} (hp : p ≤ m.order.length) (op : Operator)
    (inputs : List InstructionId) (args : List ModuleId) (outs : List (List Shape)) :
    (insertAt p op inputs args outs).Leaves m (fun _ => Placed m args outs)
      (fun _ m' => m' = m) := by
  refine (insertAt_leaves p op inputs args outs m).mono ?_ fun _ _ h => h.2
  rintro _ _ ⟨-, shape, hs, rfl⟩
  exact ⟨p, _, placeable_of_checkInsert hp hs, rfl, rfl, rfl⟩

theorem insertWithModules_placed (before : Option InstructionId) (op : Operator)
    (inputs : List InstructionId) (args : List ModuleId) (outs : List (List Shape)) (m : Module) :
    (insertWithModules before op inputs args outs).Leaves m (fun _ => Placed m args outs)
      (fun _ m' => m' = m) := by
  cases before with
  | none =>
    simp only [insertWithModules, leaves_bind, leaves_get, leaves_pure]
    exact insertAt_placed (Nat.le_refl _) op inputs args outs
  | some i =>
    simp only [insertWithModules, leaves_bind, leaves_get, leaves_lift]
    refine ⟨fun p hp => insertAt_placed ?_ op inputs args outs, fun _ _ => trivial⟩
    exact Nat.le_of_lt (position?_lt (requirePosition_eq_ok.1 hp))

theorem add_placed (op : Operator) (inputs : List InstructionId) (m : Module) :
    (add op inputs).Leaves m (fun _ => Placed m [] []) (fun _ m' => m' = m) := by
  simp only [add, leaves_bind, leaves_get]
  exact insertAt_placed (Nat.le_refl _) op inputs [] []

theorem addParameter_placed (name : String) (shape : Shape) (m : Module) :
    (addParameter name shape).Leaves m (fun _ => Placed m [] []) (fun _ m' => m' = m) := by
  simp only [addParameter, leaves_bind, leaves_get]
  exact insertAt_placed (Nat.sub_le _ _) _ _ _ _

/-- A constant can always be placed at the front. -/
theorem placeable_literal (value : Literal) (m : Module) :
    Placeable m 0 { op := .literal value, inputs := [], shape := value.shape } := by
  refine ⟨Nat.zero_le _, rfl, ?_, fun h => ?_, rfl, ?_, .inr ⟨value, rfl⟩⟩
  · simp [Operator.isOutput]
  · simp [output?, last?, List.length_eq_zero_iff.1 h.symm]
  · simp

theorem addLiteral_placed (value : Literal) (m : Module) :
    (addLiteral value).Leaves m (fun _ => Placed m [] []) (fun _ m' => m' = m) := by
  simp only [addLiteral, leaves_bind, leaves_get, leaves_set, leaves_pure]
  exact ⟨0, _, placeable_literal value m, rfl, rfl, rfl⟩

theorem replace_leaves (old : InstructionId) (op : Operator) (inputs : List InstructionId)
    (m : Module) :
    (replace old op inputs).Leaves m
      (fun i m' => i = old ∧ ∃ before after, Replacement m old op inputs before after ∧
        m' = m.rewire old after)
      (fun e m' => m.checkReplace old op inputs = .error e ∧ m' = m) := by
  simp only [replace, leaves_bind, leaves_get, leaves_lift, leaves_set, leaves_pure]
  refine ⟨fun after h => ⟨trivial, ?_⟩, fun e h => ⟨h, trivial⟩⟩
  obtain ⟨before, hr⟩ := checkReplace_eq_ok.1 h
  exact ⟨before, after, hr, rfl⟩

theorem replace_change (old : InstructionId) (op : Operator) (inputs : List InstructionId)
    (m : Module) : (replace old op inputs).Leaves m (fun _ => Change m) (fun _ m' => m' = m) := by
  refine (replace_leaves old op inputs m).mono ?_ fun _ _ h => h.2
  rintro _ _ ⟨-, before, after, hr, rfl⟩
  exact .rewire hr

theorem replaceOutput_change (outputs : List InstructionId) (m : Module) :
    (replaceOutput outputs).Leaves m (fun _ => Change m) (fun _ m' => m' = m) := by
  simp only [replaceOutput, leaves_bind, leaves_get]
  split
  · exact replace_change _ _ _ m
  · exact (add_placed _ _ m).imp fun _ _ h => h.change

/-- What makes the users of `old` use `new`: the last instruction is replaced by the identity, and
of any other the users are redirected. -/
inductive Forwarded (m : Module) (old new : InstructionId) : Module → Prop
  | replaced {before after : Instruction} (hl : m.last? = some old)
      (h : Replacement m old .identity [new] before after) :
      Forwarded m old new (m.rewire old after)
  | redirected {rs : List Redirected} {n : Instruction} (hn : (m.get? new).isSome)
      (ho : m.get? old = some n) (hop : n.op.isOutput = false) (hl : m.last? ≠ some old)
      (h : Redirection m old new rs) : Forwarded m old new (m.redirect old new rs)

/-- Why users cannot be made to use another instruction. -/
inductive NotForwarded (m : Module) (old new : InstructionId) (e : Failure) : Prop
  | unknown (h : m.get? old = none ∨ m.get? new = none)
  | output {n : Instruction} (h : m.get? old = some n) (ho : n.op.isOutput)
      (he : e = .refused (.misplacedReturn m.name))
  | replace (hne : old ≠ new) (hl : m.last? = some old) 
      (h : m.checkReplace old .identity [new] = .error e)
  | redirect (h : m.checkRedirect old new = .error e)

private theorem require_eq_error {e : Failure} (h : m.require i = .error e) : m.get? i = none := by
  cases hg : m.get? i with
  | none => rfl
  | some n =>
    have hok : m.require i = .ok () := require_eq_ok.2 (by simp [hg])
    rw [hok] at h
    cases h

theorem get_eq_error {f : Fault} (h : m.get i = .error f) : m.get? i = none := by
  cases hg : m.get? i with
  | none => rfl
  | some n =>
    rw [get_eq_ok_iff.2 hg] at h
    cases h

theorem replaceWith_leaves (old new : InstructionId) (m : Module) :
    (replaceWith old new).Leaves m
      (fun _ m' => old = new ∧ m' = m ∨ old ≠ new ∧ Forwarded m old new m')
      (fun e m' => m' = m ∧ NotForwarded m old new e) := by
  simp only [replaceWith, leaves_bind, leaves_get, leaves_lift]
  refine ⟨fun _ _ => ⟨fun _ hn => ?_, fun e he => ⟨trivial, .unknown (.inr (require_eq_error he))⟩⟩,
    fun e he => ⟨trivial, .unknown (.inl (require_eq_error he))⟩⟩
  rw [require_eq_ok] at hn
  split
  · exact .inl ⟨‹_›, rfl⟩
  rename_i hne
  simp only [leaves_bind, leaves_liftFault, get_eq_ok_iff]
  refine ⟨fun n ho => ?_, fun f hf => ⟨trivial, .unknown (.inl (get_eq_error hf))⟩⟩
  split
  · exact ⟨rfl, .output ho ‹_› rfl⟩
  rename_i hop
  split
  · rename_i hlast
    refine (replace_leaves old .identity [new] m).mono ?_ fun e _ h => ⟨h.2, .replace hne hlast h.1⟩
    rintro _ _ ⟨-, before, after, hr, rfl⟩
    exact .inr ⟨hne, .replaced hlast hr⟩
  rename_i hlast
  simp only [leaves_bind, leaves_lift, leaves_set, leaves_pure]
  refine ⟨fun rs h => .inr ⟨hne, ?_⟩, fun e he => ⟨trivial, .redirect he⟩⟩
  exact .redirected hn ho (by simpa using hop) hlast (redirection_of_checkRedirect h)

theorem Forwarded.change (hne : old ≠ new) (h : Forwarded m old new m') : Change m m' := by
  cases h with
  | replaced _ hr => exact .rewire hr
  | redirected hn ho hop hl hr => exact .redirect hne hn ho hop hl hr

theorem replaceWith_change (old new : InstructionId) (m : Module) :
    (replaceWith old new).Leaves m (fun _ m' => m' = m ∨ Change m m') (fun _ m' => m' = m) := by
  refine (replaceWith_leaves old new m).mono ?_ fun _ _ h => h.1
  rintro _ _ (⟨-, rfl⟩ | ⟨hne, hf⟩)
  · exact .inl rfl
  · exact .inr (hf.change hne)

theorem renameParameter_change (old new : String) (m : Module) :
    (renameParameter old new).Leaves m (fun _ => Change m) (fun _ m' => m' = m) := by
  simp only [renameParameter, leaves_bind, leaves_get]
  split
  · simp
  rename_i i hi
  split
  · simp
  rename_i hfree
  obtain ⟨-, hname⟩ := parameter?_eq_some hi
  refine .rename (by simp [hname]) fun j hj hjn => ?_
  have hs : (m.parameter? new).isSome := by
    cases hp : m.parameter? new with
    | none => exact absurd hjn (parameter?_eq_none hp hj)
    | some k => rfl
  have he : old = new := by
    by_contra hne
    exact hfree ⟨hne, hs⟩
  exact he ▸ hname

theorem clearInputs_change (i : InstructionId) (m : Module) :
    (clearInputs i).Leaves m (fun _ => Change m) (fun _ m' => m' = m) := by
  simp only [clearInputs, leaves_bind, leaves_get, leaves_lift, leaves_set]
  exact ⟨fun _ hi => .detach (require_eq_ok.1 hi), fun _ _ => trivial⟩

theorem remove_change (i : InstructionId) (m : Module) :
    (remove i).Leaves m (fun _ => Change m) (fun _ m' => m' = m) := by
  simp only [remove, leaves_bind, leaves_get, leaves_lift]
  refine ⟨fun _ hi => ?_, fun _ _ => trivial⟩
  split
  · rename_i hu
    exact .remove (require_eq_ok.1 hi) (List.length_eq_zero_iff.1 hu)
  · simp

private theorem clearAll_leaves {is : List InstructionId} (h : ∀ i ∈ is, (m.get? i).isSome) :
    (is.forM clearInputs).Leaves m (fun _ m' => m' = is.foldl detach m) fun _ _ => False := by
  induction is generalizing m with
  | nil => rfl
  | cons i is ih =>
    have hi : m.require i = .ok () := require_eq_ok.2 (h i (by simp))
    simp only [List.forM, leaves_bind, clearInputs, leaves_get, leaves_lift, leaves_set]
    refine ⟨fun _ _ => ih fun j hj => ?_, fun e he => absurd (hi.symm.trans he) (by simp)⟩
    rw [← isSome_core?, core?_detach]
    split
    · rw [Option.isSome_map, isSome_core?]
      exact h j (by simp [hj])
    · rw [isSome_core?]
      exact h j (by simp [hj])

/-- What stands behind an instruction is there, so removing it never stops halfway. -/
theorem removeAfter_leaves (hl : Linked m) (i : InstructionId) :
    (removeAfter i).Leaves m
      (fun removed m' => ∃ p, m.position? i = some p ∧ m' = m.truncate (p + 1) ∧
        removed = (m.order.drop (p + 1)).length)
      (fun e m' => m.requirePosition i = .error e ∧ m' = m) := by
  simp only [removeAfter, leaves_bind, leaves_get, leaves_lift, leaves_set]
  refine ⟨fun p hp => ?_, fun e he => ⟨he, trivial⟩⟩
  have hlive : ∀ j ∈ m.order.drop (p + 1), (m.get? j).isSome := fun j hj =>
    (hl.mem_order j).1 (List.mem_of_mem_drop hj)
  refine (clearAll_leaves (m := { m with order := m.order.take (p + 1) }) hlive).mono ?_ fun _ _ hf => hf.elim
  intro _ m' hm'
  rw [leaves_modify, leaves_pure]
  exact ⟨p, requirePosition_eq_ok.1 hp, by rw [hm']; rfl, rfl⟩

theorem removeAfter_change (hl : Linked m) (i : InstructionId) :
    (removeAfter i).Leaves m (fun _ => Change m) (fun _ m' => m' = m) := by
  refine (removeAfter_leaves hl i).mono ?_ fun _ _ h => h.2
  intro _ m' h
  obtain ⟨p, hp, rfl, -⟩ := h
  exact .truncate hp

theorem moveToEnd_leaves (i : InstructionId) (m : Module) :
    (moveToEnd i).Leaves m (fun _ m' => (m.get? i).isSome ∧ m' = m.toEnd i)
      (fun _ m' => m.get? i = none ∧ m' = m) := by
  simp only [moveToEnd, leaves_bind, leaves_get, leaves_lift, leaves_set]
  exact ⟨fun _ hi => ⟨require_eq_ok.1 hi, trivial⟩, fun _ he => ⟨require_eq_error he, trivial⟩⟩

theorem moveToEnd_change (hu : m.usersOf i = []) :
    (moveToEnd i).Leaves m (fun _ => Change m) (fun _ m' => m' = m) := by
  refine (moveToEnd_leaves i m).mono ?_ fun _ _ h => h.2
  intro _ m' h
  obtain ⟨hi, rfl⟩ := h
  exact .toEnd hi hu

/-- Moving an instruction reorders the module, or fails for an instruction that is not there. An
instruction that is there has a place, also when another one has been taken out of the order. -/
theorem moveBefore_leaves (hl : Linked m) (i before : InstructionId) :
    (moveBefore i before).Leaves m (fun _ m' => ∃ l, l.Perm m.order ∧ m' = { m with order := l })
      (fun _ m' => (m.get? i = none ∨ m.get? before = none) ∧ m' = m) := by
  simp only [moveBefore, leaves_bind, leaves_get, leaves_lift]
  refine ⟨fun _ hi => ⟨fun _ hb => ?_, fun _ he => ⟨.inr (require_eq_error he), trivial⟩⟩,
    fun _ he => ⟨.inl (require_eq_error he), trivial⟩⟩
  split
  · exact ⟨m.order, .refl _, rfl⟩
  rename_i hne
  simp only [leaves_bind, leaves_lift, leaves_set]
  have hmem : before ∈ m.order.filter (· ≠ i) := by
    refine List.mem_filter.2 ⟨(hl.mem_order before).2 (require_eq_ok.1 hb), ?_⟩
    simpa using Ne.symm hne
  refine ⟨fun p hp => ?_, fun e he => ?_⟩
  · refine ⟨_, ?_, rfl⟩
    have hle := Nat.le_of_lt (position?_lt (requirePosition_eq_ok.1 hp))
    refine (List.perm_insertIdx _ _ hle).trans ?_
    rw [filter_ne_eq_erase hl]
    exact (List.perm_cons_erase ((hl.mem_order i).2 (require_eq_ok.1 hi))).symm
  · have hok := requirePosition_eq_ok.2
      (position?_of_mem (m := { m with order := m.order.filter (· ≠ i) }) hmem)
    cases hok.symm.trans he

end TensorGraph.Module
