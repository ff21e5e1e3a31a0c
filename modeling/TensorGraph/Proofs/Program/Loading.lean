import TensorGraph.Program.Record
import TensorGraph.Proofs.Program.References

/-! What building a program from a record establishes: the modules are valid, references never run in
a circle, and every instruction holds the output shapes that its sub-modules have now. -/
namespace TensorGraph.Program
open Relation TensorGraph.Action
variable {p : Program} {m k owner sub : ModuleId} {module module' : Module}

/-- The program with another module under a number in use. -/
def put (p : Program) (m : ModuleId) (module : Module) : Program :=
  { p with modules := p.modules.modify m.index fun _ => module }

private theorem get?_put (p : Program) (m : ModuleId) (module : Module) (k : ModuleId) :
    (p.put m module).get? k = if k = m then (p.get? k).map fun _ => module else p.get? k := by
  simp only [put, get?, Arena.get?_modify, ModuleId.index_inj]

theorem get?_put_self (h : p.get? m = some module) : (p.put m module').get? m = some module' := by
  simp [get?_put, h]

theorem get?_put_of_ne (h : k ≠ m) : (p.put m module).get? k = p.get? k := by
  simp [get?_put, h]

theorem put_eq_self (h : p.get? m = some module) : p.put m module = p := by
  rw [put, Arena.modify_const_eq_self h]

/-- A computation on a module changes nothing else of the program. -/
theorem leaves_onModule {ε α : Type} (h : p.get? m = some module) (absent : Fault → ε)
    (x : Action ε Module α) (Q : α → Program → Prop) (E : ε → Program → Prop) :
    (onModule absent m x).Leaves p Q E ↔
      x.Leaves module (fun a module' => Q a (p.put m module')) fun e module' => E e (p.put m module') := by
  refine leaves_onPart ?_ x Q E
  rw [get_eq_ok_iff.2 h]
  rfl

/-- A computation on a module that is not there fails at once. -/
theorem leaves_onModule_of_none {ε α : Type} (h : p.get? m = none) (absent : Fault → ε)
    (x : Action ε Module α) :
    (onModule absent m x).Leaves p (fun _ _ => False) fun _ q => q = p := by
  cases hget : p.get m with
  | ok module => cases h.symm.trans (get_eq_ok_iff.1 hget)
  | error fault => simp [Leaves, onModule, onPart, hget, Except.mapError]

section Edges
variable {α : Type} {R R' : α → α → Prop} {x y o : α}

private theorem path_of_no_new_edge (hR : ∀ a b, R' a b → R a b ∨ a = o ∧ ¬ ReflTransGen R b o)
    (hx : ¬ ReflTransGen R x o) (h : ReflTransGen R' x y) : ReflTransGen R x y := by
  induction h with
  | refl => exact .refl
  | @tail b c _ hbc ih =>
    rcases hR b c hbc with hbc | ⟨rfl, -⟩
    · exact ih.tail hbc
    · exact absurd ih hx

/-- New edges from one node to nodes from which no path leads back to it close no circle. -/
theorem acyclic_of_new_edges (h : ∀ a, ¬ TransGen R a a)
    (hR : ∀ a b, R' a b → R a b ∨ a = o ∧ ¬ ReflTransGen R b o) : ∀ a, ¬ TransGen R' a a := by
  have hsplit : ∀ x y, TransGen R' x y → TransGen R x y ∨
      ∃ b, ¬ ReflTransGen R b o ∧ ReflTransGen R' x o ∧ ReflTransGen R' b y := by
    intro x y hxy
    induction hxy with
    | single hab =>
      rcases hR _ _ hab with hab | ⟨rfl, hno⟩
      · exact .inl (.single hab)
      · exact .inr ⟨_, hno, .refl, .refl⟩
    | tail hxb hbc ih =>
      rcases ih with ih | ⟨b, hno, hxo, hby⟩
      · rcases hR _ _ hbc with hbc | ⟨rfl, hno⟩
        · exact .inl (ih.tail hbc)
        · exact .inr ⟨_, hno, hxb.to_reflTransGen, .refl⟩
      · exact .inr ⟨b, hno, hxo, hby.tail hbc⟩
  intro a ha
  rcases hsplit a a ha with ha | ⟨b, hno, hao, hba⟩
  · exact h a ha
  · exact hno (path_of_no_new_edge hR hno (hba.trans hao))

end Edges

/-- A module can be changed to refer to further modules that do not lead back to it. -/
theorem Arranged.put (h : Arranged p) (hm : p.get? owner = some module)
    (hname : module'.name = module.name)
    (hsubs : ∀ sub ∈ module'.subModules, sub ∈ module.subModules ∨
      (p.get? sub).isSome ∧ ¬ ReflTransGen p.Refers sub owner) : Arranged (p.put owner module') := by
  have hlive : ∀ k, ((p.put owner module').get? k).isSome = (p.get? k).isSome := fun k => by
    rw [get?_put]
    split <;> simp
  have hrefers : ∀ a b, (p.put owner module').Refers a b → p.Refers a b ∨
      a = owner ∧ (p.get? b).isSome ∧ ¬ ReflTransGen p.Refers b owner := by
    intro a b hab
    by_cases ha : a = owner
    · subst ha
      rcases hsubs b ((refers_of_get? (get?_put_self hm)).1 hab) with hb | hb
      · exact .inl ((refers_of_get? hm).2 hb)
      · exact .inr ⟨rfl, hb⟩
    · rw [Refers, subModulesOf, get?_put_of_ne ha] at hab
      exact .inl hab
  refine ⟨h.counted.modify _ _, fun name k => ?_, h.main, fun a b hab => ?_, ?_⟩
  · refine (h.find name k).trans ?_
    by_cases hk : k = owner
    · subst hk
      rw [get?_put_self hm, hm]
      simp [hname]
    · rw [get?_put_of_ne hk]
  · rw [hlive]
    rcases hrefers a b hab with hab | ⟨-, hb, -⟩
    · exact h.live a b hab
    · exact hb
  · exact acyclic_of_new_edges h.acyclic fun a b hab => (hrefers a b hab).imp id fun hb => ⟨hb.1, hb.2.2⟩

/-- The output shapes of a module. -/
def outputsOf (p : Program) (m : ModuleId) : List Shape :=
  ((p.get? m).map Module.outputShapes).getD []

theorem outputsOf_of_get? (h : p.get? m = some module) : p.outputsOf m = module.outputShapes := by
  simp [outputsOf, h]

private theorem outputsOf_put_of_ne (h : k ≠ m) : (p.put m module).outputsOf k = p.outputsOf k := by
  rw [outputsOf, get?_put_of_ne h, outputsOf]

/-- Every instruction holds the output shapes that its sub-modules have now. The entry does not
count as a sub-module: nothing that it reaches refers to it. -/
def Current (p : Program) : Prop :=
  ∀ m module i n, p.get? m = some module → module.core? i = some n → p.main ∉ n.moduleArgs →
    n.moduleOutputs = n.moduleArgs.map p.outputsOf

/-- What loading establishes. -/
structure Loaded (p : Program) : Prop extends Arranged p where
  valid : ∀ m module, p.get? m = some module → module.Valid
  current : Current p

theorem checkReferences_eq_ok {subs : List ModuleId} {outs : List (List Shape)} :
    p.checkReferences owner subs = .ok outs ↔ (p.get? owner).isSome ∧
      (∀ sub ∈ subs, (p.get? sub).isSome ∧ ¬ ReflTransGen p.Refers sub owner) ∧
      outs = subs.map p.outputsOf := by
  rw [checkReferences]
  cases ho : p.get? owner with
  | none => simp [TensorGraph.refuse]
  | some module =>
    simp only [Option.isSome_some, true_and]
    rw [Except.mapM_eq_ok]
    induction subs generalizing outs with
    | nil => simp
    | cons sub subs ih =>
      rw [List.forall₂_cons_left_iff, List.forall_mem_cons, List.map_cons]
      simp only [ih]
      cases hs : p.get? sub with
      | none => simp [TensorGraph.refuse]
      | some other =>
        have hout := outputsOf_of_get? hs
        by_cases hr : ReflTransGen p.Refers sub owner
        · simp [hr, reaches_iff.2 hr, TensorGraph.refuse]
        · have hno : ¬ (p.reaches sub owner = true) := fun h => hr (reaches_iff.1 h)
          simp only [hno, hr, hout]
          constructor
          · rintro ⟨_, _, hb, ⟨hrest, rfl⟩, rfl⟩
            cases hb
            exact ⟨⟨⟨rfl, not_false⟩, hrest⟩, rfl⟩
          · rintro ⟨⟨-, hrest⟩, rfl⟩
            exact ⟨_, _, rfl, ⟨hrest, rfl⟩, rfl⟩

/-- An instruction that can be added at the end of a module. -/
structure Insertable (p : Program) (owner : ModuleId) (module : Module) (n : Instruction) : Prop where
  get : p.get? owner = some module
  references : p.checkReferences owner n.moduleArgs = .ok n.moduleOutputs
  insert : module.checkInsert module.order.length n.op n.inputs n.moduleOutputs = .ok n.shape
  unused : n.users = []

/-- The program with an instruction added at the end of a module. -/
def inserted (p : Program) (owner : ModuleId) (module : Module) (n : Instruction) : Program :=
  p.put owner (module.place module.order.length n)

/-- Why an instruction cannot be added at the end of a module. -/
def Rejected (p : Program) (owner : ModuleId) (op : Operator) (inputs : List InstructionId)
    (subs : List ModuleId) (e : Failure) : Prop :=
  p.checkReferences owner subs = .error e ∨
    ∃ module outs, p.get? owner = some module ∧ p.checkReferences owner subs = .ok outs ∧
      module.checkInsert module.order.length op inputs outs = .error e

theorem Insertable.not_rejected {n : Instruction} (hi : Insertable p owner module n) {e : Failure} :
    ¬ Rejected p owner n.op n.inputs n.moduleArgs e := by
  rintro (he | ⟨module', outs, hm, houts, he⟩)
  · cases he.symm.trans hi.references
  · cases hm.symm.trans hi.get
    cases houts.symm.trans hi.references
    cases he.symm.trans hi.insert

theorem insertWithModules_leaves (owner : ModuleId) (op : Operator) (inputs : List InstructionId)
    (subs : List ModuleId) (p : Program) :
    (insertWithModules owner none op inputs subs).Leaves p
      (fun i p' => ∃ module n, Insertable p owner module n ∧ n.op = op ∧ n.inputs = inputs ∧
        n.moduleArgs = subs ∧ i = module.nextId ∧ p' = p.inserted owner module n)
      (fun e p' => Rejected p owner op inputs subs e ∧ p' = p) := by
  rw [insertWithModules, leaves_bind, leaves_get, leaves_bind, leaves_lift]
  refine ⟨fun outs houts => ?_, fun e he => ⟨.inl he, rfl⟩⟩
  obtain ⟨module, hm⟩ := Option.isSome_iff_exists.1 (checkReferences_eq_ok.1 houts).1
  rw [editModule, leaves_onModule hm]
  simp only [Module.insertWithModules, leaves_bind, leaves_get, leaves_pure]
  refine (Module.insertAt_leaves _ op inputs subs outs module).mono ?_ ?_
  · rintro i module' ⟨rfl, shape, hshape, rfl⟩
    exact ⟨module, _, ⟨hm, houts, hshape, rfl⟩, rfl, rfl, rfl, rfl, rfl⟩
  · rintro e module' ⟨he, rfl⟩
    exact ⟨.inr ⟨module', outs, hm, houts, he⟩, put_eq_self hm⟩

/-- The program with an empty module added. -/
def created (p : Program) (name : String) : Program :=
  { p with
    modules := p.modules.append (Module.empty name)
    names := (name, ⟨p.modules.next⟩) :: p.names }

theorem createModule_leaves (name : String) (p : Program) :
    (createModule name).Leaves p
      (fun m p' => p.find? name = none ∧ m = ⟨p.modules.next⟩ ∧ p' = p.created name)
      (fun e p' => p.find? name ≠ none ∧ e = .refused (.duplicateModule name) ∧ p' = p) := by
  rw [createModule, leaves_bind, leaves_get]
  cases h : p.find? name with
  | none => exact ⟨rfl, rfl, rfl⟩
  | some m => exact ⟨Option.some_ne_none m, rfl, rfl⟩

/-- A program under construction, with the module that instructions are being added to: modules are
created, and instructions whose operators are in `ops` are added at the end of the module at hand. -/
inductive Built (ops : Set Operator) : ModuleId → Program → Prop
  | empty : Built ops empty.main empty
  | create {owner : ModuleId} {p : Program} {name : String} (h : Built ops owner p)
      (hname : p.find? name = none) : Built ops ⟨p.modules.next⟩ (p.created name)
  | resume {owner : ModuleId} {p : Program} (h : Built ops owner p) : Built ops p.main p
  | insert {owner : ModuleId} {p : Program} {module : Module} {n : Instruction}
      (h : Built ops owner p) (hi : Insertable p owner module n) (hop : n.op ∈ ops) :
      Built ops owner (p.inserted owner module n)

/-- Why building stops at a program: something that a record asks for is refused, or an instruction
cannot be added. -/
inductive Stops (ops : Set Operator) (p : Program) : Failure → Prop
  | refused (error : GraphError) : Stops ops p (.refused error)
  | rejected {owner : ModuleId} {op : Operator} {inputs : List InstructionId} {subs : List ModuleId}
      {e : Failure} (h : Built ops owner p) (hop : op ∈ ops)
      (hr : Rejected p owner op inputs subs e) : Stops ops p e

theorem get?_empty (k : ModuleId) :
    empty.get? k = if k = empty.main then some (Module.empty mainName) else none := by
  simp only [empty, get?, Arena.get?_append, Arena.get?_empty, ← ModuleId.index_inj]
  rfl

theorem get?_next (p : Program) : p.get? ⟨p.modules.next⟩ = none :=
  Arena.get?_eq_none_of_le (Nat.le_refl _)

theorem get?_created (p : Program) (name : String) (k : ModuleId) :
    (p.created name).get? k = if k = ⟨p.modules.next⟩ then some (Module.empty name) else p.get? k := by
  simp only [created, get?, Arena.get?_append, ← ModuleId.index_inj]

theorem get?_created_of_live (h : p.get? k = some module) (name : String) :
    (p.created name).get? k = some module := by
  rw [get?_created, if_neg, h]
  rintro rfl
  rw [get?_next] at h
  cases h

theorem core?_of_empty (h : empty.get? m = some module) (i : InstructionId) :
    module.core? i = none := by
  rw [get?_empty] at h
  split at h
  · cases h
    exact Module.core?_empty _ i
  · cases h

/-- A module with an instruction in it is not the one just created. -/
theorem get?_of_created {name : String} {i : InstructionId} {n : Instruction}
    (h : (p.created name).get? m = some module) (hn : module.core? i = some n) :
    p.get? m = some module := by
  rw [get?_created] at h
  split at h
  · cases h
    cases (Module.core?_empty _ i).symm.trans hn
  · exact h

theorem find?_created (p : Program) (name name' : String) :
    (p.created name).find? name' = if name' = name then some ⟨p.modules.next⟩ else p.find? name' := by
  simp only [find?, created, List.lookup_cons]
  by_cases h : name' = name
  · simp [h]
  · simp [beq_eq_false_iff_ne.2 h, h]

theorem refers_created (p : Program) (name : String) (a b : ModuleId) :
    (p.created name).Refers a b ↔ p.Refers a b := by
  rw [Refers, Refers, subModulesOf, subModulesOf, get?_created]
  split
  · rename_i ha
    rw [ha, get?_next]
    rfl
  · rfl

theorem arranged_empty : Arranged empty := by
  have hno : ∀ a b, ¬ empty.Refers a b := fun a b h => by
    rw [Refers, subModulesOf, get?_empty] at h
    split at h <;> cases h
  refine ⟨rfl, fun name m => ?_, rfl, fun a b h => absurd h (hno a b), fun a h => ?_⟩
  · have hfind : empty.find? name = if name = mainName then some empty.main else none := by
      by_cases hn : name = mainName
      · simp [find?, empty, hn]
      · simp [find?, empty, List.lookup_cons, beq_eq_false_iff_ne.2 hn, hn]
    rw [hfind, get?_empty]
    by_cases hm : m = empty.main <;> by_cases hn : name = mainName <;>
      simp [hm, hn, Module.empty, eq_comm]
  · obtain ⟨b, hb, -⟩ := TransGen.head'_iff.1 h
    exact hno a b hb

theorem Arranged.created {name : String} (h : Arranged p) (hname : p.find? name = none) :
    Arranged (p.created name) := by
  have hrefers : (p.created name).Refers = p.Refers :=
    funext fun a => funext fun b => propext (refers_created p name a b)
  have hlive : ∀ k, (p.get? k).isSome → ((p.created name).get? k).isSome := fun k hk => by
    obtain ⟨module, hk⟩ := Option.isSome_iff_exists.1 hk
    rw [get?_created_of_live hk]
    rfl
  refine ⟨h.counted.append _, fun name' k => ?_, ?_, fun a b hab => ?_, ?_⟩
  · rw [find?_created, get?_created]
    by_cases hn : name' = name
    · subst hn
      rw [if_pos rfl]
      constructor
      · rintro ⟨⟩
        exact ⟨_, if_pos rfl, rfl⟩
      · rintro ⟨module, hm, hmodule⟩
        split at hm
        · rename_i hk
          rw [hk]
        · cases hname.symm.trans ((h.find name' k).2 ⟨module, hm, hmodule⟩)
    · rw [if_neg hn]
      refine (h.find name' k).trans ?_
      split
      · rename_i hk
        subst hk
        rw [get?_next]
        constructor
        · rintro ⟨_, hm, -⟩
          cases hm
        · rintro ⟨_, ⟨⟩, hm⟩
          exact absurd hm.symm hn
      · rfl
  · rw [find?_created, if_neg, h.main]
    · rfl
    · rintro rfl
      cases hname.symm.trans h.main
  · exact hlive b (h.live a b (hrefers ▸ hab))
  · exact hrefers ▸ h.acyclic

theorem Insertable.valid {n : Instruction} (hi : Insertable p owner module n) (h : module.Valid) :
    (module.place module.order.length n).Valid := by
  obtain ⟨op, inputs, users, shape, args, outs⟩ := n
  cases hi.unused
  exact h.place (Module.placeable_of_checkInsert (Nat.le_refl _) hi.insert)
    (Module.checkInsert_eq_ok.1 hi.insert).2.2.2

variable {ops : Set Operator}

theorem Built.valid (h : Built ops owner p) : ∀ m module, p.get? m = some module → module.Valid := by
  induction h with
  | empty =>
    intro m module hm
    rw [get?_empty] at hm
    split at hm
    · cases hm
      exact Module.valid_empty _
    · cases hm
  | create _ _ ih =>
    intro m module hm
    rw [get?_created] at hm
    split at hm
    · cases hm
      exact Module.valid_empty _
    · exact ih m module hm
  | resume _ ih => exact ih
  | @insert owner p module n _ hi _ ih =>
    intro m module' hm
    by_cases hk : m = owner
    · subst hk
      cases (get?_put_self hi.get).symm.trans hm
      exact hi.valid (ih m module hi.get)
    · exact ih m module' (get?_put_of_ne hk ▸ hm)

theorem refers_inserted {n : Instruction} (hm : p.get? owner = some module) (hl : module.Linked)
    (h : (p.inserted owner module n).Refers m sub) :
    p.Refers m sub ∨ m = owner ∧ sub ∈ n.moduleArgs := by
  by_cases hk : m = owner
  · subst hk
    have hsub := (refers_of_get? (get?_put_self hm)).1 h
    exact (Module.mem_subModules_place hl hsub).imp (refers_of_get? hm).2 fun hsub => ⟨rfl, hsub⟩
  · rw [Refers, subModulesOf, inserted, get?_put_of_ne hk] at h
    exact .inl h

theorem Insertable.arranged {n : Instruction} (hi : Insertable p owner module n) (h : Arranged p)
    (hl : module.Linked) : Arranged (p.inserted owner module n) := by
  refine h.put hi.get (Module.name_place module _ n) fun sub hsub => ?_
  exact (Module.mem_subModules_place hl hsub).imp id
    ((checkReferences_eq_ok.1 hi.references).2.1 sub)

theorem Built.arranged (h : Built ops owner p) : Arranged p := by
  induction h with
  | empty => exact arranged_empty
  | create _ hname ih => exact ih.created hname
  | resume _ ih => exact ih
  | insert h hi _ ih => exact hi.arranged ih (h.valid _ _ hi.get).linked

/-- Nothing refers to the module at hand, unless it is the entry. -/
theorem Built.unreferred (h : Built ops owner p) : owner = p.main ∨ ∀ m, ¬ p.Refers m owner := by
  induction h with
  | empty => exact .inl rfl
  | @create owner p name h _ _ =>
    refine .inr fun m hm => ?_
    have hlive := h.arranged.live _ _ ((refers_created p name _ _).1 hm)
    rw [get?_next] at hlive
    cases hlive
  | resume => exact .inl rfl
  | @insert owner p module n h hi _ ih =>
    refine ih.imp id fun hno m hm => ?_
    rcases refers_inserted hi.get (h.valid _ _ hi.get).linked hm with hm | ⟨-, hsub⟩
    · exact hno m hm
    · exact ((checkReferences_eq_ok.1 hi.references).2.1 owner hsub).2 .refl

/-- The instructions after an insertion: the new one and those there were. -/
theorem core?_inserted {n k : Instruction} {i : InstructionId} (hi : p.get? owner = some module)
    (hm : (p.inserted owner module n).get? m = some module') (hk : module'.core? i = some k) :
    m = owner ∧ k = n.core ∨ ∃ module₀, p.get? m = some module₀ ∧ module₀.core? i = some k := by
  by_cases ho : m = owner
  · subst ho
    cases (get?_put_self hi).symm.trans hm
    rw [Module.core?_place] at hk
    split at hk
    · exact .inl ⟨rfl, (Option.some.inj hk).symm⟩
    · exact .inr ⟨module, hi, hk⟩
  · exact .inr ⟨module', get?_put_of_ne ho ▸ hm, hk⟩

theorem Built.current (h : Built ops owner p) : Current p := by
  induction h with
  | empty =>
    intro m module i n hm hn
    cases (core?_of_empty hm i).symm.trans hn
  | @create owner p name h _ ih =>
    intro m module i n hm hn hmain
    have hold := get?_of_created hm hn
    rw [ih m module i n hold hn hmain]
    refine List.map_congr_left fun sub hsub => ?_
    have hrefers := refers_of_core? hold (h.valid m module hold).linked hn hsub
    obtain ⟨other, hs⟩ := Option.isSome_iff_exists.1 (h.arranged.live m sub hrefers)
    rw [outputsOf_of_get? hs, outputsOf_of_get? (get?_created_of_live hs name)]
  | resume _ ih => exact ih
  | @insert owner p module n h hi _ ih =>
    intro m module' i k hm hk hmain
    have hrefs := checkReferences_eq_ok.1 hi.references
    rcases core?_inserted hi.get hm hk with ⟨rfl, rfl⟩ | ⟨module₀, hold, hk⟩
    · refine hrefs.2.2.trans (List.map_congr_left fun sub hsub => (outputsOf_put_of_ne ?_).symm)
      rintro rfl
      exact (hrefs.2.1 _ hsub).2 .refl
    · rw [ih m module₀ i k hold hk hmain]
      refine List.map_congr_left fun sub hsub => (outputsOf_put_of_ne ?_).symm
      rintro rfl
      have hrefers := refers_of_core? hold (h.valid m module₀ hold).linked hk hsub
      rcases h.unreferred with he | hno
      · exact hmain (he ▸ hsub)
      · exact hno m hrefers

/-- What holds of all shapes in the program holds of the outputs that are taken over. -/
theorem forall_outputs {P : Shape → Prop} {subs : List ModuleId} {outs : List (List Shape)}
    (hl : ∀ m module, p.get? m = some module → module.Linked)
    (hP : ∀ m module i n, p.get? m = some module → module.core? i = some n → P n.shape)
    (h : p.checkReferences owner subs = .ok outs) : ∀ shapes ∈ outs, ∀ s ∈ shapes, P s := by
  obtain ⟨-, hsubs, rfl⟩ := checkReferences_eq_ok.1 h
  intro shapes hshapes s hs
  obtain ⟨sub, hsub, rfl⟩ := List.mem_map.1 hshapes
  obtain ⟨other, ho⟩ := Option.isSome_iff_exists.1 (hsubs sub hsub).1
  obtain ⟨j, a, ha, rfl⟩ := Module.exists_core?_of_mem_outputShapes (hl sub other ho)
    (outputsOf_of_get? ho ▸ hs)
  exact hP sub other j a ho ha

/-- What inference keeps from the shapes it is given holds of all shapes in the program. -/
theorem Built.shapes {P : Shape → Prop} (h : Built ops owner p)
    (hP : ∀ op ∈ ops, ∀ ins mods s, (∀ u ∈ ins, P u) → (∀ outs ∈ mods, ∀ u ∈ outs, P u) →
      op.inferShape ins mods = .ok s → P s) :
    ∀ m module i n, p.get? m = some module → module.core? i = some n → P n.shape := by
  induction h with
  | empty =>
    intro m module i n hm hn
    cases (core?_of_empty hm i).symm.trans hn
  | create _ _ ih => exact fun m module i n hm hn => ih m module i n (get?_of_created hm hn) hn
  | resume _ ih => exact ih
  | @insert owner p module n h hi hop ih =>
    intro m module' i k hm hk
    rcases core?_inserted hi.get hm hk with ⟨rfl, rfl⟩ | ⟨module₀, hold, hk⟩
    · obtain ⟨-, -, hlive, hinfer⟩ := Module.checkInsert_eq_ok.1 hi.insert
      refine hP _ hop _ _ _ ?_ ?_ hinfer
      · intro s hs
        obtain ⟨j, hj, rfl⟩ := List.mem_map.1 hs
        obtain ⟨a, ha⟩ := Module.exists_core?_of_live (hlive j hj)
        rw [Module.shapeOf_of_core? ha]
        exact ih m module j a hi.get ha
      · exact forall_outputs (fun m module hm => (h.valid m module hm).linked) ih hi.references
    · exact ih m module₀ i k hold hk

theorem Built.made (hops : ∀ op ∈ ops, op.Made) (h : Built ops owner p) :
    ∀ m module i n, p.get? m = some module → module.core? i = some n → n.shape.Made :=
  h.shapes fun op hop _ _ _ hins hmods hs =>
    Operator.made_rawShape (hops op hop) hins hmods (Operator.inferShape_eq_ok.1 hs).1

/-- The program holds no operators but those it is built of. -/
theorem Built.operators (h : Built ops owner p) :
    ∀ m module i n, p.get? m = some module → module.core? i = some n → n.op ∈ ops := by
  induction h with
  | empty =>
    intro m module i n hm hn
    cases (core?_of_empty hm i).symm.trans hn
  | create _ _ ih => exact fun m module i n hm hn => ih m module i n (get?_of_created hm hn) hn
  | resume _ ih => exact ih
  | insert _ hi hop ih =>
    intro m module' i k hm hk
    rcases core?_inserted hi.get hm hk with ⟨rfl, rfl⟩ | ⟨module₀, hold, hk⟩
    · exact hop
    · exact ih m module₀ i k hold hk

private theorem safe_resolveInputs (r : InstructionRecord) (module : String) (place : Nat)
    (built : List InstructionId) : Except.Safe (r.resolveInputs module place built) fun _ => True := by
  refine (Except.safe_mapM (R := fun _ _ => True) fun input _ => ?_).mono fun _ _ => trivial
  split
  · trivial
  · exact Except.safe_refuse _ _

private theorem safe_resolveModules (r : InstructionRecord) (p : Program) :
    Except.Safe (r.resolveModules p) fun _ => True := by
  refine (Except.safe_mapM (R := fun _ _ => True) fun name _ => ?_).mono fun _ _ => trivial
  split
  · trivial
  · exact Except.safe_refuse _ _

private theorem built_of_instructions {ops : Set Operator} {module : String}
    {rest : List InstructionRecord} (hops : ∀ r ∈ rest, r.op ∈ ops) (built : List InstructionId)
    (h : Built ops owner p) :
    (InstructionRecord.buildAll (fun place built r => do
      let inputs ← r.resolveInputs module place built
      let subs ← r.resolveModules (← Action.get)
      insertWithModules owner none r.op inputs subs) built rest).Leaves p
      (fun _ => Built ops owner) fun e p' => Built ops owner p' ∧ Stops ops p' e := by
  induction rest generalizing built p with
  | nil => exact h
  | cons r rest ih =>
    simp only [InstructionRecord.buildAll, leaves_bind, leaves_lift, leaves_get]
    refine ⟨fun inputs _ => ⟨fun subs _ => ?_, fun e he => ?_⟩, fun e he => ?_⟩
    · refine (insertWithModules_leaves owner r.op inputs subs p).mono ?_ ?_
      · rintro i p' ⟨module, n, hi, hop, -, -, -, rfl⟩
        exact ih (fun s hs => hops s (by simp [hs])) _ (h.insert hi (hop ▸ hops r (by simp)))
      · rintro e p' ⟨he, rfl⟩
        exact ⟨h, .rejected h (hops r (by simp)) he⟩
    · obtain ⟨error, rfl⟩ := (safe_resolveModules r p).refused he
      exact ⟨h, .refused error⟩
    · obtain ⟨error, rfl⟩ := (safe_resolveInputs r module _ built).refused he
      exact ⟨h, .refused error⟩

private theorem built_of_buildInto {ops : Set Operator} {r : ModuleRecord}
    (hops : ∀ i ∈ r.instructions, i.op ∈ ops) (h : Built ops owner p) :
    r.buildInto.Leaves p (fun _ p' => ∃ owner', Built ops owner' p')
      fun e p' => (∃ owner', Built ops owner' p') ∧ Stops ops p' e := by
  have hrest : ∀ o q, Built ops o q → (InstructionRecord.buildAll (fun place built ins => do
      let inputs ← ins.resolveInputs r.name place built
      let subs ← ins.resolveModules (← Action.get)
      insertWithModules o none ins.op inputs subs) [] r.instructions).Leaves q
      (fun _ p' => ∃ owner', Built ops owner' p')
      fun e p' => (∃ owner', Built ops owner' p') ∧ Stops ops p' e := fun o q hq =>
    (built_of_instructions hops [] hq).mono (fun _ _ hb => ⟨o, hb⟩) fun _ _ hb => ⟨⟨o, hb.1⟩, hb.2⟩
  rw [ModuleRecord.buildInto]
  split
  · simp only [leaves_bind, leaves_get, leaves_pure]
    exact hrest _ _ h.resume
  · rw [leaves_bind]
    refine (createModule_leaves r.name p).mono ?_ ?_
    · rintro o q ⟨hname, rfl, rfl⟩
      exact hrest _ _ (h.create hname)
    · rintro e q ⟨-, rfl, rfl⟩
      exact ⟨⟨owner, h⟩, .refused _⟩

end TensorGraph.Program

namespace TensorGraph.ProgramRecord
open TensorGraph.Action Program

/-- The operators of all the instructions of a record. -/
def operators (r : ProgramRecord) : Set Operator :=
  { op | ∃ m ∈ r.modules, ∃ i ∈ m.instructions, i.op = op }

/-- The shapes and literals of a record are as they can be made. -/
def Made (r : ProgramRecord) : Prop :=
  ∀ op ∈ r.operators, op.Made

/-- Building keeps to the steps of a construction, and where it stops there is a reason. -/
theorem build_leaves (r : ProgramRecord) :
    r.build.Leaves Program.empty (fun _ p => ∃ owner, Built r.operators owner p)
      fun e p => (∃ owner, Built r.operators owner p) ∧ Stops r.operators p e := by
  have hbuild : ∀ (l : List ModuleRecord) (p : Program) (owner : ModuleId), l ⊆ r.modules →
      Built r.operators owner p → (l.forM ModuleRecord.buildInto).Leaves p
        (fun _ p' => ∃ owner', Built r.operators owner' p')
        fun e p' => (∃ owner', Built r.operators owner' p') ∧ Stops r.operators p' e := by
    intro l
    induction l with
    | nil =>
      intro p owner _ hb
      change ∃ owner', Built r.operators owner' p
      exact ⟨owner, hb⟩
    | cons m l ih =>
      intro p owner hl hb
      rw [List.cons_subset] at hl
      rw [List.forM, leaves_bind]
      have hops : ∀ i ∈ m.instructions, i.op ∈ r.operators := fun i hi => ⟨m, hl.1, i, hi, rfl⟩
      refine (built_of_buildInto hops hb).imp ?_
      rintro - q ⟨owner', hq⟩
      exact ih q owner' hl.2 hq
  exact hbuild r.modules Program.empty _ (List.Subset.refl _) .empty

/-- Also a program that is not completed has been built step by step. -/
theorem built_load (r : ProgramRecord) : ∃ owner, Built r.operators owner r.load.state :=
  Leaves.state (P := fun p => ∃ owner, Built r.operators owner p)
    (r.build_leaves.mono (fun _ _ h => h) fun _ _ h => h.1)

theorem stops_of_load {r : ProgramRecord} {e : Failure} (h : r.load.result = .error e) :
    Stops r.operators r.load.state e :=
  (r.build_leaves.error h).2

theorem loaded_of_load {r : ProgramRecord} (h : r.load.result = .ok ()) : Loaded r.load.state := by
  obtain ⟨owner, hb⟩ := r.build_leaves.ok h
  exact ⟨hb.arranged, hb.valid, hb.current⟩

theorem typed_of_load {r : ProgramRecord} (hr : r.Made) (h : r.load.result = .ok ())
    {m : ModuleId} {module : Module} (hm : r.load.state.get? m = some module) : module.Typed := by
  obtain ⟨owner, hb⟩ := r.build_leaves.ok h
  exact ⟨hb.valid m module hm, fun i n hn => hb.made hr m module i n hm hn, fun i n v hn hop =>
    (hr n.op (hb.operators m module i n hm hn)).literal hop⟩

end TensorGraph.ProgramRecord
