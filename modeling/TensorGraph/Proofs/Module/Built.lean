import TensorGraph.Proofs.Module.Consistency
import TensorGraph.Proofs.Operator.Inference

/-! Modules as edits of every kind build them. Those that move instructions may leave the order other
than topological, but users always mirror inputs and the order lists what is there. -/
namespace TensorGraph.Module
variable {m : Module}

/-- A module made from an empty one by edits of any kind, carried out or failing. Instructions with
sub-modules are included, whatever the sub-modules and their outputs. -/
inductive Built : Module → Prop
  | empty (name : String) : Built (Module.empty name)
  | edit {m : Module} (h : Built m) (e : Mutation) : Built (e.apply m)
  | move {m : Module} (h : Built m) (i before : InstructionId) :
      Built (Module.moveBefore i before m).state
  | insert {m : Module} (h : Built m) (before : Option InstructionId) (op : Operator)
      (inputs : List InstructionId) (args : List ModuleId) (outs : List (List Shape)) :
      Built (Module.insertWithModules before op inputs args outs m).state

/-- What changes and other orders of the instructions keep holds of every module that edits build. -/
theorem Built.keeps {P : Module → Prop} (h : Built m) (hempty : ∀ name, P (Module.empty name))
    (hchange : ∀ m m', Linked m → P m → Change m m' → P m')
    (horder : ∀ m l, Linked m → P m → l.Perm m.order → P { m with order := l }) :
    Linked m ∧ P m := by
  have hreordered : ∀ m l, Linked m ∧ P m → l.Perm m.order →
      Linked { m with order := l } ∧ P { m with order := l } := fun m l hm hp =>
    ⟨hm.1.reorder hp, horder m l hm.1 hm.2 hp⟩
  have hchanged : ∀ m m', Linked m ∧ P m → Change m m' → Linked m' ∧ P m' := fun m m' hm hc =>
    ⟨hc.linked hm.1, hchange m m' hm.1 hm.2 hc⟩
  induction h with
  | empty name => exact ⟨linked_empty name, hempty name⟩
  | @edit m _ e ih =>
    cases hp : e.permitted m with
    | true =>
      rcases e.apply_change ih.1 hp with he | hc
      · rwa [he]
      · exact hchanged _ _ ih hc
    | false =>
      cases e with
      | moveToEnd i =>
        refine Action.Leaves.state (P := fun m' => Linked m' ∧ P m')
          ((moveToEnd_leaves i m).mono ?_ fun _ _ h => h.2 ▸ ih)
        intro _ _ h
        exact h.2 ▸ hreordered m _ ih (order_toEnd_perm ih.1 h.1)
      | _ => cases hp
  | @move m _ i before ih =>
    refine Action.Leaves.state (P := fun m' => Linked m' ∧ P m')
      ((moveBefore_leaves ih.1 i before).mono ?_ fun _ _ h => h.2 ▸ ih)
    intro _ _ h
    obtain ⟨l, hp, rfl⟩ := h
    exact hreordered m l ih hp
  | @insert m _ before op inputs args outs ih =>
    refine Action.Leaves.state (P := fun m' => Linked m' ∧ P m')
      ((insertWithModules_placed before op inputs args outs m).mono ?_ fun _ _ h => h ▸ ih)
    exact fun _ _ hp => hchanged _ _ ih hp.change

theorem Built.linked (h : Built m) : Linked m :=
  (h.keeps (P := fun _ => True) (fun _ => trivial) (fun _ _ _ _ _ => trivial)
    fun _ _ _ _ _ => trivial).1

theorem Built.distinctNames (h : Built m) : DistinctNames m :=
  (h.keeps distinctNames_empty (fun _ _ hl hd hc => hc.distinctNames hl hd)
    fun _ _ _ hd _ => hd).2

theorem Built.applyAll (h : Built m) (edits : List Mutation) : Built (Mutation.applyAll m edits) := by
  induction edits generalizing m with
  | nil => exact h
  | cons e rest ih => exact ih (h.edit e)

/-- Where the cached shape comes from: it was inferred, or it is that of a constant. -/
def Sourced (n : Instruction) : Prop :=
  n.shape.addressable = true ∨ ∃ value, n.op = .literal value ∧ n.shape = value.shape

private theorem sourced_of_inferShape {n : Instruction} {op : Operator} {ins : List Shape}
    {outs : List (List Shape)} (h : op.inferShape ins outs = .ok n.shape) : Sourced n :=
  .inl (Operator.inferShape_eq_ok.1 h).2

/-- What holds of constants, and of all instructions whose shape was inferred, is kept by every
change, when it does not depend on the inputs or the name of a parameter. -/
theorem Change.each {P : Instruction → Prop} {m' : Module} (hc : Change m m') (hl : Linked m)
    (hinfer : ∀ n ins, n.op.inferShape ins n.moduleOutputs = .ok n.shape → P n)
    (hliteral : ∀ value, P { op := .literal value, inputs := [], shape := value.shape })
    (hinputs : ∀ n inputs, P n → P { n with inputs })
    (hname : ∀ n old new shape, n.op = .parameter old shape → P n →
      P { n with op := .parameter new shape })
    (h : ∀ i n, m.core? i = some n → P n) : ∀ i n, m'.core? i = some n → P n := by
  intro i n hn
  cases hc with
  | @place p k hp =>
    rw [core?_place] at hn
    split at hn
    · cases hn
      rcases hp.shape with hs | ⟨value, rfl⟩
      · exact hinfer k.core _ hs
      · exact hliteral value
    · exact h i n hn
  | @rewire old op inputs before after hr =>
    rw [hr.core?_rewire hl] at hn
    split at hn
    · cases hn
      exact hinfer after.core _ (hr.op_eq ▸ hr.shape)
    · exact h i n hn
  | @redirect old new rs k hne hnew _ _ _ hr =>
    rw [core?_redirect hl hne hnew hr] at hn
    by_cases hu : i ∈ rs.map Redirected.user
    · obtain ⟨r, hmem, rfl⟩ := List.mem_map.1 hu
      rw [core?_redirectEdges_of_mem (hr.nodup hl) hmem] at hn
      obtain ⟨k, hk, rfl⟩ := Option.map_eq_some_iff.1 hn
      obtain ⟨a, ha, -, -, -, hs⟩ := hr.fits r hmem
      cases hk.symm.trans (core?_of_get? ha)
      exact hinfer _ _ hs
    · rw [core?_redirectEdges_of_notMem hu] at hn
      exact h i n hn
  | @rename j name _ _ =>
    rw [core?, get?_rename] at hn
    split at hn
    · rw [Option.map_map] at hn
      obtain ⟨k, hk, rfl⟩ := Option.map_eq_some_iff.1 hn
      have hP := h i k.core (core?_of_get? hk)
      obtain ⟨op, ins, shape, users, args, outs⟩ := k
      cases op with
      | parameter old s => exact hname _ old name s rfl hP
      | _ => exact hP
    · exact h i n hn
  | @detach j _ =>
    rw [core?_detach] at hn
    split at hn
    · obtain ⟨k, hk, rfl⟩ := Option.map_eq_some_iff.1 hn
      exact hinputs k [] (h i k hk)
    · exact h i n hn
  | @remove j _ _ =>
    rw [core?_erase, core?_detach] at hn
    split at hn
    · cases hn
    · exact h i n hn
  | @truncate j p _ =>
    rw [core?_truncate hl] at hn
    split at hn
    · cases hn
    · obtain ⟨k, hk, rfl⟩ := Option.map_eq_some_iff.1 hn
      exact hinputs k _ (h i k hk)
  | toEnd => exact h i n hn

/-- What every change keeps of the instructions holds of all that edits build. -/
theorem Built.each {P : Instruction → Prop} (h : Built m)
    (hinfer : ∀ n ins, n.op.inferShape ins n.moduleOutputs = .ok n.shape → P n)
    (hliteral : ∀ value, P { op := .literal value, inputs := [], shape := value.shape })
    (hinputs : ∀ n inputs, P n → P { n with inputs })
    (hname : ∀ n old new shape, n.op = .parameter old shape → P n →
      P { n with op := .parameter new shape }) : ∀ i n, m.core? i = some n → P n :=
  (h.keeps (P := fun m => ∀ i n, m.core? i = some n → P n)
    (fun name i n hn => by simp [core?, Module.empty, get?, Arena.get?] at hn)
    (fun _ _ hl hm hchange => hchange.each hl hinfer hliteral hinputs hname hm)
    fun _ _ _ hm _ => hm).2

theorem Built.sourced (h : Built m) : ∀ i n, m.core? i = some n → Sourced n :=
  h.each (fun _ _ hs => sourced_of_inferShape hs) (fun value => .inr ⟨value, rfl, rfl⟩)
    (fun _ _ hn => hn) fun n _ _ _ hop hn => by
      rcases hn with ha | ⟨value, hlit, -⟩
      · exact .inl ha
      · cases hop.symm.trans hlit

/-- The elements of every cached shape can be counted. -/
def Sized (m : Module) : Prop :=
  ∀ i ∈ m.order, ∀ n ∈ m.get? i, n.shape.elements.isOk = true

/-- Whatever edits build, the cached shapes can be counted where those of the constants can, which
are counted when a constant is made. -/
theorem Built.sized (h : Built m) (hc : ∀ i ∈ m.order, ∀ n ∈ m.get? i, ∀ value ∈ n.literal?,
    value.shape.elements.isOk = true) : Sized m := by
  intro i hi n hn
  rcases h.sourced i n.core (core?_of_get? hn) with ha | ⟨value, hop, hs⟩
  · obtain ⟨count, hcount⟩ := Shape.elements_eq_ok ha
    have hcount : n.shape.elements = .ok count := hcount
    rw [hcount]
    rfl
  · have hs : n.shape = value.shape := hs
    have hop : n.op = .literal value := hop
    rw [hs]
    exact hc i hi n hn value (by simp [Instruction.literal?, hop])

end TensorGraph.Module
