import TensorGraph.Proofs.Program.Loading

/-! A program whose modules are valid, and whose instructions hold the output shapes that their
sub-modules have now, can be recorded, and building it again from the record succeeds. -/
namespace TensorGraph.Module

section Related
variable {α β : Type} {R : α → β → Prop} {l : List α} {l' : List β}

private theorem getElem?_of_forall₂ (h : List.Forall₂ R l l') {x : Nat} {a : α}
    (ha : l[x]? = some a) : ∃ b, l'[x]? = some b ∧ R a b := by
  obtain ⟨hx, rfl⟩ := List.getElem?_eq_some_iff.1 ha
  have hx' : x < l'.length := h.length_eq ▸ hx
  exact ⟨l'[x], List.getElem?_eq_getElem hx', h.get hx hx'⟩

private theorem exists_forall₂ (h : ∀ a ∈ l, ∃ b, R a b) : ∃ l', List.Forall₂ R l l' := by
  induction l with
  | nil => exact ⟨[], .nil⟩
  | cons a l ih =>
    obtain ⟨b, hb⟩ := h a (by simp)
    obtain ⟨l', hl'⟩ := ih fun c hc => h c (by simp [hc])
    exact ⟨b :: l', .cons hb hl'⟩

private theorem forall₂_concat_left {a : α} (h : List.Forall₂ R (l ++ [a]) l') :
    ∃ front b, l' = front ++ [b] ∧ List.Forall₂ R l front ∧ R a b := by
  induction l generalizing l' with
  | nil =>
    obtain ⟨b, _, hr, ⟨⟩, rfl⟩ := List.forall₂_cons_left_iff.1 h
    exact ⟨[], b, rfl, .nil, hr⟩
  | cons c l ih =>
    obtain ⟨b, rest, hr, hrest, rfl⟩ := List.forall₂_cons_left_iff.1 h
    obtain ⟨front, d, rfl, hfront, hd⟩ := ih hrest
    exact ⟨b :: front, d, rfl, .cons hr hfront, hd⟩

theorem map_eq_of_forall₂ {γ : Type} {f : α → γ} {g : β → γ} (h : List.Forall₂ R l l')
    (hr : ∀ a b, R a b → g b = f a) : l'.map g = l.map f := by
  induction h with
  | nil => rfl
  | cons hab _ ih => rw [List.map_cons, List.map_cons, hr _ _ hab, ih]

private theorem getLast?_of_forall₂ (h : List.Forall₂ R l l') :
    (l.getLast? = none ∧ l'.getLast? = none) ∨
      ∃ a b, l.getLast? = some a ∧ l'.getLast? = some b ∧ R a b := by
  cases ha : l.getLast? with
  | none =>
    rw [List.getLast?_eq_none_iff] at ha
    subst ha
    cases h
    exact .inl ⟨rfl, rfl⟩
  | some a =>
    rw [List.getLast?_eq_getElem?] at ha
    obtain ⟨b, hb, hr⟩ := getElem?_of_forall₂ h ha
    exact .inr ⟨a, b, rfl, by rwa [List.getLast?_eq_getElem?, ← h.length_eq], hr⟩

end Related

variable {m c : Module} {i j : InstructionId} {n k : Instruction} {front rest : List InstructionId}

/-- What the record of an instruction says. -/
def Recorded (m : Module) (name : ModuleId → String) (i : InstructionId) (r : InstructionRecord) :
    Prop :=
  ∃ n, m.core? i = some n ∧
    r = { op := n.op, inputs := n.inputs.map m.order.idxOf, modules := n.moduleArgs.map name }

theorem recordOf_spec (hl : Linked m) (name : ModuleId → String) (hi : i ∈ m.order) :
    ∃ r, m.recordOf name i = .ok r ∧ m.Recorded name i r := by
  obtain ⟨n, hn⟩ := Option.isSome_iff_exists.1 ((hl.mem_order i).1 hi)
  have hinputs : n.inputs.mapM (fun input => Fault.inRange (m.position? input)) =
      .ok (n.inputs.map m.order.idxOf) := by
    refine Except.mapM_eq_ok.2 (List.forall₂_map_right_iff.2 (List.forall₂_same.2 fun j hj => ?_))
    rw [position?_of_mem (hl.input_mem_order (inputsOf_of_get? hn ▸ hj))]
    rfl
  refine ⟨_, ?_, n.core, core?_of_get? hn, rfl⟩
  rw [recordOf, get_eq_ok_iff.2 hn, Except.ok_bind, hinputs]
  rfl

theorem record_spec (hl : Linked m) (name : ModuleId → String) :
    ∃ r, m.record name = .ok r ∧ r.name = m.name ∧
      List.Forall₂ (m.Recorded name) m.order r.instructions := by
  obtain ⟨rs, hrs, hall⟩ := Except.exists_mapM_forall₂ fun i hi => recordOf_spec hl name (m := m) hi
  refine ⟨⟨m.name, rs⟩, ?_, rfl, hall⟩
  rw [record, hrs]
  rfl

/-- An instruction of a copy is like one of the original: the inputs stand at the same places, and
sub-modules are ones that stand for those of the original. -/
structure Alike (S : ModuleId → ModuleId → Prop) (m c : Module) (n k : Instruction) : Prop where
  op : k.op = n.op
  shape : k.shape = n.shape
  places : k.inputs.map c.order.idxOf = n.inputs.map m.order.idxOf
  shapes : k.inputs.map c.shapeOf = n.inputs.map m.shapeOf
  subs : List.Forall₂ S n.moduleArgs k.moduleArgs

/-- An instruction of a copy stands for one of the original. -/
def Copies (S : ModuleId → ModuleId → Prop) (m c : Module) (i j : InstructionId) : Prop :=
  ∃ n k, m.core? i = some n ∧ c.core? j = some k ∧ Alike S m c n k

variable {S S' : ModuleId → ModuleId → Prop}

theorem Copies.mono (h : Copies S m c i j) (hS : ∀ a b, S a b → S' a b) : Copies S' m c i j := by
  obtain ⟨n, k, hn, hk, ha⟩ := h
  exact ⟨n, k, hn, hk, ha.op, ha.shape, ha.places, ha.shapes, ha.subs.imp hS⟩

theorem Copies.shapeOf_eq (h : Copies S m c i j) : c.shapeOf j = m.shapeOf i := by
  obtain ⟨n, k, hn, hk, ha⟩ := h
  rw [shapeOf_of_core? hk, shapeOf_of_core? hn, ha.shape]

/-- What stands in a module keeps its place when an instruction is added at the end. -/
theorem map_idxOf_place_end {is : List InstructionId} (h : ∀ i ∈ is, i ∈ c.order)
    (a : Instruction) :
    is.map (c.place c.order.length a).order.idxOf = is.map c.order.idxOf := by
  refine List.map_congr_left fun i hi => ?_
  rw [order_place_end, List.idxOf_append_of_mem (h i hi)]

theorem Copies.place_end (h : Copies S m c i j) (hl : Linked c) (a : Instruction) :
    Copies S m (c.place c.order.length a) i j := by
  obtain ⟨n, k, hn, hk, ha⟩ := h
  have hlive : ∀ x ∈ k.inputs, (c.get? x).isSome := fun x hx =>
    hl.live_input (inputsOf_of_core? hk ▸ hx)
  refine ⟨n, k, hn, ?_, ha.op, ha.shape, ?_, ?_, ha.subs⟩
  · rw [core?_place_of_live (live_of_core? hk), hk]
  · rw [map_idxOf_place_end fun x hx => (hl.mem_order x).2 (hlive x hx), ha.places]
  · rw [map_shapeOf_place hlive, ha.shapes]

/-- A whole copy has the output shapes of the original. -/
theorem outputShapes_of_copies (hm : Linked m) (hc : Linked c)
    (h : List.Forall₂ (Copies S m c) m.order c.order) : c.outputShapes = m.outputShapes := by
  rcases getLast?_of_forall₂ h with ⟨hm', hc'⟩ | ⟨i, j, hi, hj, hij⟩
  · rw [outputShapes_of_empty hm', outputShapes_of_empty hc']
  · obtain ⟨n, k, hn, hk, ha⟩ := hij
    rw [outputShapes_of_last hm hi hn, outputShapes_of_last hc hj hk, ha.op, ha.shape, ha.shapes]

/-- The sub-modules of a copy stand for those of the original. -/
theorem exists_of_mem_subModules (hl : Linked m) (h : List.Forall₂ (Copies S m c) front c.order)
    {sub' : ModuleId} (hsub' : sub' ∈ c.subModules) : ∃ sub ∈ m.subModules, S sub sub' := by
  obtain ⟨j, hj, k, hk, hsub'⟩ := mem_subModules.1 hsub'
  obtain ⟨i, -, n, k', hn, hk', ha⟩ := Except.exists_of_mem_right h hj
  cases hk.symm.trans hk'
  obtain ⟨sub, hsub, hS⟩ := Except.exists_of_mem_right ha.subs hsub'
  exact ⟨sub, mem_subModules.2 ⟨i, mem_order_of_core? hl hn, n, hn, hsub⟩, hS⟩

private theorem last?_ne_of_split (hl : Linked m) (hs : m.order = front ++ i :: rest)
    (hj : j ∈ front) : m.last? ≠ some j := by
  intro hlast
  have hn := hl.nodup
  rw [last?, hs, List.getLast?_append_of_ne_nil _ (List.cons_ne_nil i rest)] at hlast
  rw [hs] at hn
  exact (List.nodup_append.1 hn).2.2 j hj j (List.mem_of_getLast? hlast) rfl

/-- Before the next instruction is copied, the copy has no outputs listed. -/
theorem output?_of_copies (h : Valid m) (hs : m.order = front ++ i :: rest)
    (hc : List.Forall₂ (Copies S m c) front c.order) : c.output? = none := by
  cases ho : c.output? with
  | none => rfl
  | some j =>
    obtain ⟨hlast, k, hk, hout⟩ := output?_eq_some.1 ho
    obtain ⟨x, hx, n, k', hn, hk', halike⟩ := Except.exists_of_mem_right hc (List.mem_of_getLast? hlast)
    cases (core?_of_get? hk).symm.trans hk'
    obtain ⟨a, ha, rfl⟩ := exists_get?_of_core? hn
    exact absurd (h.output_last x a ha (halike.op ▸ hout)) (last?_ne_of_split h.linked hs hx)

private theorem parameterName?_of_op {name : String} {shape : Shape}
    (h : n.op = .parameter name shape) : n.parameterName? = some name := by
  rw [Instruction.parameterName?, Instruction.parameter?, h]
  rfl

/-- Before a parameter is copied, its name is free. -/
theorem requireFreeName_of_copies (h : Valid m) (hs : m.order = front ++ i :: rest)
    (hn : m.core? i = some n) (hc : List.Forall₂ (Copies S m c) front c.order) :
    c.requireFreeName none n.op = .ok () := by
  cases hop : n.op with
  | parameter name shape =>
    have hfree : c.parameter? name = none := by
      by_contra hne
      obtain ⟨j, hj⟩ := Option.ne_none_iff_exists'.1 hne
      obtain ⟨hmem, hname⟩ := parameter?_eq_some hj
      obtain ⟨x, hx, a, k, ha, hk, hak⟩ := Except.exists_of_mem_right hc hmem
      have hxi : x = i := by
        refine h.names x i name ?_ ?_
        · rw [nameOf?, hk] at hname
          obtain ⟨s, hks⟩ := parameterName?_eq_some hname
          rw [nameOf?, ha]
          exact parameterName?_of_op (hak.op.symm.trans hks)
        · rw [nameOf?, hn]
          exact parameterName?_of_op hop
      have hnodup := h.linked.nodup
      rw [hs] at hnodup
      exact (List.nodup_append.1 hnodup).2.2 x hx i (by simp) hxi
    rw [requireFreeName, hfree]
  | _ => rfl

/-- What stands in the copy at the place that an input has in the original. -/
def InputCopy (S : ModuleId → ModuleId → Prop) (m c : Module) (x j : InstructionId) : Prop :=
  c.order[m.order.idxOf x]? = some j ∧ Copies S m c x j

private theorem idxOf_of_inputCopy (hl : Linked c) (h : InputCopy S m c i j) :
    c.order.idxOf j = m.order.idxOf i := by
  obtain ⟨hlt, rfl⟩ := List.getElem?_eq_some_iff.1 h.1
  exact hl.nodup.idxOf_getElem _ hlt

/-- The inputs of the next instruction have been copied. -/
theorem exists_copy_of_input (h : Valid m) (hs : m.order = front ++ i :: rest)
    (hn : m.core? i = some n) (hc : List.Forall₂ (Copies S m c) front c.order) {x : InstructionId}
    (hx : x ∈ n.inputs) : ∃ j, InputCopy S m c x j := by
  have hin : x ∈ m.inputsOf i := inputsOf_of_core? hn ▸ hx
  have hfront : x ∈ front := (idxOf_lt_of_split hs h.linked.nodup).1 (h.ordered.idxOf_lt h.linked hin)
  refine getElem?_of_forall₂ hc ?_
  rw [hs, List.idxOf_append, if_pos hfront]
  exact List.getElem?_idxOf hfront

/-- The copy of the next instruction can be added at the end. -/
theorem checkInsert_of_copies (h : Valid m) (hv : Valid c) (hs : m.order = front ++ i :: rest)
    (hn : m.core? i = some n) (hc : List.Forall₂ (Copies S m c) front c.order)
    {inputs : List InstructionId} (hin : List.Forall₂ (InputCopy S m c) n.inputs inputs) :
    c.checkInsert c.order.length n.op inputs n.moduleOutputs = .ok n.shape := by
  have hmem : ∀ j ∈ inputs, j ∈ c.order := fun j hj => by
    obtain ⟨x, -, hj⟩ := Except.exists_of_mem_right hin hj
    exact List.mem_of_getElem? hj.1
  have hshapes : inputs.map c.shapeOf = n.inputs.map m.shapeOf :=
    map_eq_of_forall₂ hin fun _ _ hj => hj.2.shapeOf_eq
  refine checkInsert_eq_ok.2 ⟨requirePlace_eq_ok.2 ⟨fun _ => rfl, fun _ => output?_of_copies h hs hc,
    requireFreeName_of_copies h hs hn hc⟩, fun j hj => ?_, fun j hj => (hv.linked.mem_order j).1 (hmem j hj), ?_⟩
  · exact ⟨_, position?_lt (position?_of_mem (hmem j hj)), position?_of_mem (hmem j hj)⟩
  · rw [hshapes]
    exact h.fits i n hn

end TensorGraph.Module

namespace TensorGraph.Program
open Relation TensorGraph.Action
variable {p q q₀ : Program} {m o sub sub' : ModuleId} {module c : Module} {i : InstructionId}
  {n : Instruction} {front rest : List InstructionId}

/-- An addition that is known to be possible takes place. -/
theorem Insertable.leaves (h : Insertable p o module n) :
    (insertWithModules o none n.op n.inputs n.moduleArgs).Leaves p
      (fun i p' => i = module.nextId ∧ p' = p.inserted o module n) fun _ _ => False := by
  obtain ⟨op, inputs, users, shape, args, outs⟩ := n
  cases h.unused
  refine (insertWithModules_leaves o op inputs args p).mono ?_ fun _ _ hno => h.not_rejected hno.1
  rintro i p' ⟨module₁, ⟨op₁, inputs₁, users₁, shape₁, args₁, outs₁⟩, h₁, hop, hin, hargs, rfl, rfl⟩
  cases hop
  cases hin
  cases hargs
  cases h₁.unused
  cases h.get.symm.trans h₁.get
  cases h.references.symm.trans h₁.references
  cases h.insert.symm.trans h₁.insert
  exact ⟨rfl, rfl⟩

/-- A sub-module of the original has been built again under its name. -/
structure Stands (p q : Program) (o sub sub' : ModuleId) : Prop where
  known : (p.get? sub).isSome
  find : q.find? (p.nameOf sub) = some sub'
  live : (q.get? sub').isSome
  ne : sub' ≠ o
  outputs : q.outputsOf sub' = p.outputsOf sub

/-- A module of `p` is being built again as the module `o` of `q`, which was `q₀` at the start. Of
its instructions, `front` have been copied. -/
structure Copying (p q₀ : Program) (o : ModuleId) (module c : Module) (front : List InstructionId)
    (q : Program) : Prop where
  built : Built Set.univ o q
  others : ∀ k, k ≠ o → q.get? k = q₀.get? k
  find : ∀ name, q.find? name = q₀.find? name
  main : q.main = q₀.main
  get : q.get? o = some c
  copies : List.Forall₂ (Module.Copies (Stands p q₀ o) module c) front c.order
  unreferred : ∀ a, ¬ q.Refers a o

private theorem Copying.stands (h : Copying p q₀ o module c front q) (hs : Stands p q₀ o sub sub') :
    Stands p q o sub sub' := by
  obtain ⟨hknown, hfind, hlive, hne, houts⟩ := hs
  refine ⟨hknown, h.find _ ▸ hfind, h.others sub' hne ▸ hlive, hne, ?_⟩
  rw [outputsOf, h.others sub' hne]
  exact houts

/-- What building the module again relies on: it is valid and holds the output shapes that its
sub-modules have now, and these have been built before. -/
structure Rebuildable (p q₀ : Program) (o : ModuleId) (module : Module) : Prop where
  valid : module.Valid
  current : ∀ i n, module.core? i = some n → n.moduleOutputs = n.moduleArgs.map p.outputsOf
  subs : ∀ sub ∈ module.subModules, ∃ sub', Stands p q₀ o sub sub'

section Next
variable {inputs : List InstructionId} {subs : List ModuleId} (hm : Rebuildable p q₀ o module)
  (h : Copying p q₀ o module c front q) (hs : module.order = front ++ i :: rest)
  (hn : module.core? i = some n)
  (hin : List.Forall₂ (Module.InputCopy (Stands p q₀ o) module c) n.inputs inputs)
  (hsubs : List.Forall₂ (Stands p q₀ o) n.moduleArgs subs)
include hm h hs hn hin hsubs

/-- The next instruction of the original can be added to the copy. -/
theorem Copying.insertable :
    Insertable q o c { n with inputs := inputs, users := [], moduleArgs := subs } := by
  have hsubs := hsubs.imp fun _ _ hst => h.stands hst
  refine ⟨h.get, checkReferences_eq_ok.2 ⟨by simp [h.get], fun sub' hsub' => ?_, ?_⟩, ?_, rfl⟩
  · obtain ⟨sub, -, hstands⟩ := Except.exists_of_mem_right hsubs hsub'
    refine ⟨hstands.live, fun hpath => ?_⟩
    rcases ReflTransGen.cases_tail hpath with he | ⟨a, -, ha⟩
    · exact hstands.ne he.symm
    · exact h.unreferred a ha
  · exact (hm.current i n hn).trans (Module.map_eq_of_forall₂ hsubs fun _ _ hst => hst.outputs).symm
  · exact Module.checkInsert_of_copies hm.valid (h.built.valid o c h.get) hs hn h.copies hin

theorem Copying.inserted :
    Copying p q₀ o module
      (c.place c.order.length { n with inputs := inputs, users := [], moduleArgs := subs })
      (front ++ [i]) (q.inserted o c { n with inputs := inputs, users := [], moduleArgs := subs }) := by
  have hi := h.insertable hm hs hn hin hsubs
  have hl := (h.built.valid o c h.get).linked
  refine ⟨h.built.insert hi trivial, fun k hk => ?_, h.find, h.main, get?_put_self h.get, ?_,
    fun a ha => ?_⟩
  · exact (get?_put_of_ne hk).trans (h.others k hk)
  · have hmem : ∀ j ∈ inputs, j ∈ c.order := fun j hj => by
      obtain ⟨x, -, hj⟩ := Except.exists_of_mem_right hin hj
      exact List.mem_of_getElem? hj.1
    have hcopies : List.Forall₂ (Module.Copies (Stands p q₀ o) module (c.place c.order.length
        { n with inputs := inputs, users := [], moduleArgs := subs })) (front ++ [i])
        (c.order ++ [c.nextId]) := by
      refine List.rel_append (h.copies.imp fun _ _ hc => hc.place_end hl _) (.cons ?_ .nil)
      refine ⟨n, _, hn, (Module.core?_place _ _ _ _).trans (if_pos rfl), rfl, rfl, ?_, ?_, hsubs⟩
      · exact (Module.map_idxOf_place_end hmem _).trans
          (Module.map_eq_of_forall₂ hin fun _ _ hj => Module.idxOf_of_inputCopy hl hj)
      · exact (Module.map_shapeOf_place (fun j hj => (hl.mem_order j).1 (hmem j hj)) _ _).trans
          (Module.map_eq_of_forall₂ hin fun _ _ hj => hj.2.shapeOf_eq)
    rwa [← Module.order_place_end c] at hcopies
  · rcases refers_inserted h.get hl ha with ha | ⟨rfl, ho⟩
    · exact h.unreferred a ha
    · obtain ⟨sub, -, hstands⟩ := Except.exists_of_mem_right hsubs ho
      exact hstands.ne rfl

end Next

/-- Building the rest of the module copies the rest of its instructions. -/
theorem Copying.leaves (hm : Rebuildable p q₀ o module) (name : String)
    {rs : List InstructionRecord} (hrs : List.Forall₂ (module.Recorded p.nameOf) rest rs)
    (h : Copying p q₀ o module c front q) (hs : module.order = front ++ rest) :
    (InstructionRecord.buildAll (fun place built r => do
      let inputs ← r.resolveInputs name place built
      let subs ← r.resolveModules (← Action.get)
      insertWithModules o none r.op inputs subs) c.order rs).Leaves q
      (fun _ q' => ∃ c', Copying p q₀ o module c' module.order q') fun _ _ => False := by
  induction hrs generalizing c front q with
  | nil =>
    rw [List.append_nil] at hs
    exact ⟨c, hs ▸ h⟩
  | @cons i r rest rs hr _ ih =>
    obtain ⟨n, hn, rfl⟩ := hr
    obtain ⟨inputs, hin⟩ := Module.exists_forall₂ fun x hx =>
      Module.exists_copy_of_input hm.valid hs hn h.copies (x := x) hx
    obtain ⟨subs, hsubs⟩ := Module.exists_forall₂ (R := Stands p q₀ o) fun sub hsub =>
      hm.subs sub (Module.mem_subModules.2
        ⟨i, Module.mem_order_of_core? hm.valid.linked hn, n, hn, hsub⟩)
    have hinputs : InstructionRecord.resolveInputs ⟨n.op, n.inputs.map module.order.idxOf,
        n.moduleArgs.map p.nameOf⟩ name c.order.length c.order = .ok inputs := by
      refine Except.mapM_eq_ok.2 (List.forall₂_map_left_iff.2 (hin.imp fun x j hj => ?_))
      rw [hj.1]
    have hmodules : InstructionRecord.resolveModules ⟨n.op, n.inputs.map module.order.idxOf,
        n.moduleArgs.map p.nameOf⟩ q = .ok subs := by
      refine Except.mapM_eq_ok.2 (List.forall₂_map_left_iff.2 (hsubs.imp fun sub sub' hst => ?_))
      rw [(h.stands hst).find]
    simp only [InstructionRecord.buildAll, leaves_bind, leaves_get]
    rw [hinputs, leaves_ok, hmodules, leaves_ok]
    refine (h.insertable hm hs hn hin hsubs).leaves.imp ?_
    rintro j q' ⟨rfl, rfl⟩
    rw [← Module.order_place_end c]
    exact ih (h.inserted hm hs hn hin hsubs) (by simp [hs])

/-- What the record of a module says. -/
def Recorded (p : Program) (m : ModuleId) (r : ModuleRecord) : Prop :=
  ∃ module, p.get? m = some module ∧ r.name = module.name ∧
    List.Forall₂ (module.Recorded p.nameOf) module.order r.instructions

/-- Every module that the entry reaches is valid and holds the output shapes that its sub-modules
have now. -/
structure Recordable (p : Program) : Prop extends Arranged p where
  valid : ∀ m ∈ p.reachable, ∀ module, p.get? m = some module → module.Valid
  current : ∀ m ∈ p.reachable, ∀ module i n, p.get? m = some module → module.core? i = some n →
    n.moduleOutputs = n.moduleArgs.map p.outputsOf

theorem nameOf_of_get? (h : p.get? m = some module) : p.nameOf m = module.name := by
  rw [nameOf, h]

theorem record_spec (h : Recordable p) :
    ∃ r, p.record = .ok r ∧ List.Forall₂ p.Recorded p.reachable r.modules := by
  have hmodule : ∀ m ∈ p.reachable,
      ∃ r, (do (← p.get m).record p.nameOf : Except Fault ModuleRecord) = .ok r ∧ p.Recorded m r := by
    intro m hm
    obtain ⟨module, hget⟩ := Option.isSome_iff_exists.1 ((reachable_extended h.toArranged).listed.live hm)
    obtain ⟨r, hr, hname, hall⟩ := Module.record_spec (h.valid m hm module hget).linked p.nameOf
    exact ⟨r, by rw [get_eq_ok_iff.2 hget, Except.ok_bind, hr], module, hget, hname, hall⟩
  obtain ⟨rs, hrs, hall⟩ := Except.exists_mapM_forall₂ hmodule
  refine ⟨⟨rs⟩, ?_, hall⟩
  rw [record, hrs]
  rfl

/-- One module has the name that another one has in the original. -/
def Named (p q : Program) (m m' : ModuleId) : Prop :=
  (p.get? m).isSome ∧ q.find? (p.nameOf m) = some m'

/-- A module has been built again under its name. -/
structure Mirrored (p q : Program) (m m' : ModuleId) (module c : Module) : Prop where
  get : p.get? m = some module
  find : q.find? (p.nameOf m) = some m'
  get_copy : q.get? m' = some c
  copies : List.Forall₂ (Module.Copies (Named p q) module c) module.order c.order

theorem Mirrored.mono {q' : Program} {m' : ModuleId} (h : Mirrored p q m m' module c)
    (hget : q'.get? m' = some c)
    (hfind : ∀ name k, q.find? name = some k → q'.find? name = some k) :
    Mirrored p q' m m' module c :=
  ⟨h.get, hfind _ _ h.find, hget,
    h.copies.imp fun _ _ hc => hc.mono fun _ _ hn => ⟨hn.1, hfind _ _ hn.2⟩⟩

/-- The modules listed so far have been built again under their names, and the entry is empty. -/
structure Mirrors (p q : Program) (done : List ModuleId) : Prop where
  built : ∃ owner, Built Set.univ owner q
  stands : ∀ m ∈ done, ∃ m' module c, Mirrored p q m m' module c
  names : ∀ name m', q.find? name = some m' → name = mainName ∨ ∃ m ∈ done, name = p.nameOf m
  entry : q.get? q.main = some (Module.empty mainName)
  unreferred : ∀ a, ¬ q.Refers a q.main

private theorem mirrors_empty (p : Program) : Mirrors p empty [] where
  built := ⟨_, .empty⟩
  stands m hm := by cases hm
  names name m' h := by
    obtain ⟨module, hm, rfl⟩ := (arranged_empty.find name m').1 h
    rw [get?_empty] at hm
    split at hm
    · cases hm
      exact .inl rfl
    · cases hm
  entry := by rw [get?_empty, if_pos rfl]
  unreferred a h := by
    obtain ⟨module, hm⟩ := live_of_refers h
    obtain ⟨i, -, n, hn, -⟩ := Module.mem_subModules.1 ((refers_of_get? hm).1 h)
    cases (core?_of_empty hm i).symm.trans hn

variable {done : List ModuleId}

/-- A module that has been built again has the output shapes of the original. -/
theorem Mirrors.stands_at (h : Mirrors p q done) (hp : Recordable p) (hdone : done ⊆ p.reachable)
    (hm : m ∈ done) : ∃ m' c, q.find? (p.nameOf m) = some m' ∧ q.get? m' = some c ∧
      c.outputShapes = p.outputsOf m := by
  obtain ⟨owner, hb⟩ := h.built
  obtain ⟨m', module, c, hmirrored⟩ := h.stands m hm
  refine ⟨m', c, hmirrored.find, hmirrored.get_copy, ?_⟩
  rw [outputsOf_of_get? hmirrored.get]
  exact Module.outputShapes_of_copies (hp.valid m (hdone hm) module hmirrored.get).linked
    (hb.valid m' c hmirrored.get_copy).linked hmirrored.copies

/-- What stands for another module than the entry is not the entry. -/
theorem Mirrors.ne_main (h : Mirrors p q done) (hp : Arranged p) (hget : p.get? m = some module)
    (hne : m ≠ p.main) {m' : ModuleId} (hfind : q.find? (p.nameOf m) = some m') : m' ≠ q.main := by
  rintro rfl
  obtain ⟨owner, hb⟩ := h.built
  obtain ⟨c, hc, hname⟩ := (hb.arranged.find _ _).1 hfind
  cases h.entry.symm.trans hc
  rw [nameOf_of_get? hget] at hname
  exact hne (hp.eq_main hget hname.symm)

private theorem Mirrors.sub_ne_main (h : Mirrors p q done) (hp : Arranged p) (hm : m ∈ p.reachable)
    (hsub : p.Refers m sub) (hfind : q.find? (p.nameOf sub) = some sub') : sub' ≠ q.main := by
  obtain ⟨other, hother⟩ := Option.isSome_iff_exists.1 (hp.live m sub hsub)
  refine h.ne_main hp hother ?_ hfind
  rintro rfl
  exact not_refers_main hp hm hsub

section Create
variable (hp : Recordable p) (h : Mirrors p q done) (hdone : done ⊆ p.reachable)
  (hm : m ∈ p.reachable) (hget : p.get? m = some module) (hne : m ≠ p.main) (hnot : m ∉ done)
  (hsubs : ∀ sub, p.Refers m sub → sub ∈ done)
include hp h hdone hget hne hnot

theorem Mirrors.find?_eq_none : q.find? module.name = none := by
  by_contra hsome
  obtain ⟨m', hm'⟩ := Option.ne_none_iff_exists'.1 hsome
  rcases h.names _ m' hm' with hname | ⟨k, hk, hname⟩
  · exact hne (hp.eq_main hget hname)
  · obtain ⟨other, hother⟩ :=
      Option.isSome_iff_exists.1 ((reachable_extended hp.toArranged).listed.live (hdone hk))
    rw [nameOf_of_get? hother] at hname
    exact hnot (hp.name_inj hget hother hname ▸ hk)

private theorem Mirrors.copying :
    Copying p (q.created module.name) ⟨q.modules.next⟩ module (Module.empty module.name) []
      (q.created module.name) := by
  obtain ⟨owner, hb⟩ := h.built
  refine ⟨hb.create (h.find?_eq_none hp hdone hget hne hnot), fun _ _ => rfl, fun _ => rfl, rfl,
    by rw [get?_created, if_pos rfl], .nil, fun a ha => ?_⟩
  have hlive := hb.arranged.live a _ ((refers_created q _ _ _).1 ha)
  rw [get?_next] at hlive
  cases hlive

/-- Names that are taken stay so. -/
theorem Mirrors.find?_created {name : String} {k : ModuleId} (hfind : q.find? name = some k) :
    (q.created module.name).find? name = some k := by
  have hfree := h.find?_eq_none hp hdone hget hne hnot
  rw [Program.find?_created, if_neg, hfind]
  rintro rfl
  cases hfind.symm.trans hfree

include hm hsubs

private theorem Mirrors.rebuildable :
    Rebuildable p (q.created module.name) ⟨q.modules.next⟩ module := by
  refine ⟨hp.valid m hm module hget, fun i n hn => hp.current m hm module i n hget hn,
    fun sub hsub => ?_⟩
  have hsub : p.Refers m sub := (refers_of_get? hget).2 hsub
  obtain ⟨sub', c, hfind, hc, houts⟩ := h.stands_at hp hdone (hsubs sub hsub)
  refine ⟨sub', hp.live m sub hsub, h.find?_created hp hdone hget hne hnot hfind,
    by rw [get?_created_of_live hc]; rfl, ?_, (outputsOf_of_get? (get?_created_of_live hc _)).trans houts⟩
  rintro rfl
  cases (get?_next q).symm.trans hc

theorem Mirrors.next {c : Module} {q' : Program}
    (hc : Copying p (q.created module.name) ⟨q.modules.next⟩ module c module.order q') :
    Mirrors p q' (done ++ [m]) := by
  have hkeep : ∀ k x, q.get? k = some x → q'.get? k = some x := fun k x hk => by
    refine (hc.others k ?_).trans (get?_created_of_live hk _)
    rintro rfl
    cases (get?_next q).symm.trans hk
  have hfind : ∀ name k, q.find? name = some k → q'.find? name = some k := fun name k hk =>
    (hc.find name).trans (h.find?_created hp hdone hget hne hnot hk)
  refine ⟨⟨_, hc.built⟩, fun k hk => ?_, fun name k hk => ?_, ?_, fun a ha => ?_⟩
  · rcases List.mem_append.1 hk with hk | hk
    · obtain ⟨k', x, y, hxy⟩ := h.stands k hk
      exact ⟨k', x, y, hxy.mono (hkeep k' y hxy.get_copy) hfind⟩
    · cases List.mem_singleton.1 hk
      refine ⟨⟨q.modules.next⟩, module, c, hget, ?_, hc.get, hc.copies.imp fun _ _ hcopy =>
        hcopy.mono fun _ _ hstands => ⟨hstands.known, (hc.find _).trans hstands.find⟩⟩
      rw [hc.find, Program.find?_created, nameOf_of_get? hget, if_pos rfl]
  · rw [hc.find, Program.find?_created] at hk
    split at hk
    · rename_i hname
      exact .inr ⟨m, by simp, hname.trans (nameOf_of_get? hget).symm⟩
    · exact (h.names name k hk).imp id fun ⟨x, hx, hname⟩ => ⟨x, by simp [hx], hname⟩
  · rw [hc.main]
    exact hkeep _ _ h.entry
  · rw [hc.main] at ha
    by_cases ho : a = ⟨q.modules.next⟩
    · subst ho
      obtain ⟨sub, hsub, hst⟩ := Module.exists_of_mem_subModules (hp.valid m hm module hget).linked
        hc.copies ((refers_of_get? hc.get).1 ha)
      have hsub : p.Refers m sub := (refers_of_get? hget).2 hsub
      obtain ⟨sub', -, hold, -⟩ := h.stands_at hp hdone (hsubs sub hsub)
      refine h.sub_ne_main hp.toArranged hm hsub hold ?_
      exact Option.some.inj ((h.find?_created hp hdone hget hne hnot hold).symm.trans hst.find)
    · rw [Refers, subModulesOf, hc.others a ho] at ha
      exact h.unreferred a ((refers_created q _ _ _).1 ha)

private theorem Mirrors.buildInto_leaves {r : ModuleRecord} (hr : p.Recorded m r) :
    r.buildInto.Leaves q (fun _ q' => Mirrors p q' (done ++ [m])) fun _ _ => False := by
  obtain ⟨_, hget', hname, hall⟩ := hr
  cases hget.symm.trans hget'
  have hfree := h.find?_eq_none hp hdone hget hne hnot
  rw [ModuleRecord.buildInto, if_neg fun he => hne (hp.eq_main hget (hname.symm.trans he)), leaves_bind]
  refine (createModule_leaves r.name q).mono ?_ fun _ _ hsome => hsome.1 (hname ▸ hfree)
  rintro o q₀ ⟨-, rfl, rfl⟩
  rw [hname]
  have hcopying := h.copying hp hdone hget hne hnot
  refine (hcopying.leaves (h.rebuildable hp hdone hm hget hne hnot hsubs) _ hall rfl).imp ?_
  rintro - q' ⟨c, hc⟩
  exact h.next hp hdone hm hget hne hnot hsubs hc

end Create

/-- Building the modules before the entry, each after those it refers to. -/
theorem mirrors_of_listed (hp : Recordable p) (hl : Listed p done) (hdone : done ⊆ p.reachable)
    (hmain : p.main ∉ done) {rs : List ModuleRecord} (hrs : List.Forall₂ p.Recorded done rs) :
    (rs.forM ModuleRecord.buildInto).Leaves empty (fun _ q => Mirrors p q done) fun _ _ => False := by
  induction hl generalizing rs with
  | nil =>
    cases hrs
    exact mirrors_empty p
  | @snoc done m hl hnot hlive hsubs ih =>
    obtain ⟨rs, r, rfl, hrs, hr⟩ := Module.forall₂_concat_left hrs
    obtain ⟨hsub, hm⟩ := List.append_subset.1 hdone
    simp only [List.mem_append, List.mem_singleton, not_or] at hmain
    obtain ⟨module, hget⟩ := Option.isSome_iff_exists.1 hlive
    rw [leaves_forM_append]
    refine (ih hsub hmain.1 hrs).imp fun _ q hq => ?_
    rw [List.forM, leaves_bind]
    exact hq.buildInto_leaves hp hsub (hm (by simp)) hget (Ne.symm hmain.2) hnot hsubs hr

/-- All the modules that the entry of `p` reaches, and no others, have been built again under their
names. -/
structure Reloaded (p q : Program) : Prop where
  mirrored : ∀ m ∈ p.reachable, ∃ m' module c, Mirrored p q m m' module c
  names : ∀ name m', q.find? name = some m' → ∃ m ∈ p.reachable, name = p.nameOf m

/-- Building the entry after all the others. -/
theorem Mirrors.buildInto_main_leaves (hp : Recordable p) (h : Mirrors p q done)
    (hdone : p.reachable = done ++ [p.main]) (hmain : p.main ∉ done)
    (hsubs : ∀ sub, p.Refers p.main sub → sub ∈ done) {r : ModuleRecord} (hr : p.Recorded p.main r) :
    r.buildInto.Leaves q (fun _ q' => Reloaded p q') fun _ _ => False := by
  obtain ⟨module, hget, hname, hall⟩ := hr
  obtain ⟨_, hget', hentry⟩ := (hp.find _ _).1 hp.main
  cases hget.symm.trans hget'
  obtain ⟨owner, hb⟩ := h.built
  have hsubset : done ⊆ p.reachable := hdone ▸ List.subset_append_left _ _
  have hm : p.main ∈ p.reachable := (mem_reachable hp.toArranged).2 .refl
  have hnamed : p.nameOf p.main = mainName := (nameOf_of_get? hget).trans hentry
  have hrebuild : Rebuildable p q q.main module := by
    refine ⟨hp.valid _ hm module hget, fun i n hn => hp.current _ hm module i n hget hn,
      fun sub hsub => ?_⟩
    have hsub : p.Refers p.main sub := (refers_of_get? hget).2 hsub
    obtain ⟨sub', c, hfind, hc, houts⟩ := h.stands_at hp hsubset (hsubs sub hsub)
    exact ⟨sub', hp.live _ sub hsub, hfind, by simp [hc],
      h.sub_ne_main hp.toArranged hm hsub hfind, (outputsOf_of_get? hc).trans houts⟩
  have hcopying : Copying p q q.main module (Module.empty mainName) [] q :=
    ⟨hb.resume, fun _ _ => rfl, fun _ => rfl, rfl, h.entry, .nil, h.unreferred⟩
  rw [ModuleRecord.buildInto, if_pos (hname.trans hentry)]
  simp only [leaves_bind, leaves_get, leaves_pure]
  refine (hcopying.leaves hrebuild _ hall rfl).imp ?_
  rintro - q' ⟨c, hc⟩
  have hfind : ∀ name k, q.find? name = some k → q'.find? name = some k := fun name k hk =>
    (hc.find name).trans hk
  refine ⟨fun k hk => ?_, fun name k hk => ?_⟩
  · rw [hdone] at hk
    rcases List.mem_append.1 hk with hk | hk
    · obtain ⟨k', x, y, hxy⟩ := h.stands k hk
      have hk' : k' ≠ q.main := h.ne_main hp.toArranged hxy.get (fun he => hmain (he ▸ hk)) hxy.find
      exact ⟨k', x, y, hxy.mono ((hc.others k' hk').trans hxy.get_copy) hfind⟩
    · cases List.mem_singleton.1 hk
      refine ⟨q.main, module, c, hget, ?_, hc.get, hc.copies.imp fun _ _ hcopy =>
        hcopy.mono fun _ _ hstands => ⟨hstands.known, (hc.find _).trans hstands.find⟩⟩
      rw [hnamed]
      exact hfind _ _ hb.arranged.main
  · rcases h.names name k ((hc.find name).symm.trans hk) with rfl | ⟨x, hx, rfl⟩
    · exact ⟨p.main, hm, hnamed.symm⟩
    · exact ⟨x, hsubset hx, rfl⟩

/-- A program whose reachable modules are valid and hold current output shapes can be recorded, and
loading its record builds them again. -/
theorem exists_record_reloaded (h : Recordable p) :
    ∃ r, p.record = .ok r ∧ r.load.result = .ok () ∧ Reloaded p r.load.state := by
  obtain ⟨r, hr, hall⟩ := record_spec h
  refine ⟨r, hr, ?_⟩
  obtain ⟨front, hfront, hlisted, hmain⟩ := reachable_eq h.toArranged
  rw [hfront] at hall
  obtain ⟨rs, last, hrs, hall, module, hget, hname, hinstructions⟩ := Module.forall₂_concat_left hall
  have hload : r.build.Leaves empty (fun _ q => Reloaded p q) fun _ _ => False := by
    rw [ProgramRecord.build, hrs, leaves_forM_append]
    have hsubset : front ⊆ p.reachable := hfront ▸ List.subset_append_left _ _
    refine (mirrors_of_listed h hlisted hsubset hmain hall).imp fun _ q hq => ?_
    rw [List.forM, leaves_bind]
    refine (hq.buildInto_main_leaves h hfront hmain (fun sub hsub => ?_)
      ⟨module, hget, hname, hinstructions⟩).imp fun _ q' hq' => hq'
    have hm : p.main ∈ p.reachable := (mem_reachable h.toArranged).2 .refl
    have hmem := (reachable_extended h.toArranged).listed.closed hm hsub
    rw [hfront, List.mem_append, List.mem_singleton] at hmem
    exact hmem.resolve_right fun he => not_refers_main h.toArranged hm (he ▸ hsub)
  cases hresult : r.load.result with
  | ok => exact ⟨rfl, hload.ok hresult⟩
  | error e => exact (hload.error hresult).elim

/-- Such a program can be recorded and its record loaded. -/
theorem exists_record_load (h : Recordable p) :
    ∃ r, p.record = .ok r ∧ r.load.result = .ok () := by
  obtain ⟨r, hr, hload, -⟩ := exists_record_reloaded h
  exact ⟨r, hr, hload⟩

end TensorGraph.Program
