import TensorGraph.Program.Text
import TensorGraph.Proofs.Program.Edits
import TensorGraph.Proofs.Program.Reload

/-! Records tell all there is to a module but its numbers and shapes. A module that is built from a
record has that record; and a program that has been recorded and loaded again has the same record
and the same listing, with the same shapes. -/
namespace TensorGraph.Module
open TensorGraph.Action Relator
variable {m c : Module} {S : ModuleId → ModuleId → Prop} {name name' : ModuleId → String}
  {i j : InstructionId} {n k : Instruction}

private theorem rightUnique_recorded (m : Module) (name : ModuleId → String) :
    RightUnique (m.Recorded name) := by
  rintro i r r' ⟨n, hn, rfl⟩ ⟨n', hn', rfl⟩
  cases hn.symm.trans hn'
  rfl

private theorem record_eq_of_recorded (hl : Linked m) {rs : List InstructionRecord}
    (h : List.Forall₂ (m.Recorded name) m.order rs) : m.record name = .ok ⟨m.name, rs⟩ := by
  obtain ⟨⟨_, _⟩, hr, rfl, hall⟩ := record_spec hl name
  cases (rightUnique_recorded m name).forall₂ hall h
  exact hr

theorem Recorded.place_end {r : InstructionRecord} (h : m.Recorded name i r) (hl : Linked m)
    (a : Instruction) : (m.place m.order.length a).Recorded name i r := by
  obtain ⟨n, hn, rfl⟩ := h
  refine ⟨n, ?_, ?_⟩
  · rw [core?_place_of_live (live_of_core? hn), hn]
  · rw [map_idxOf_place_end fun x hx => hl.input_mem_order (inputsOf_of_core? hn ▸ hx)]

/-- The inputs that a record asks for stand at the places it gives. -/
theorem map_idxOf_of_resolveInputs (hl : Linked m) {r : InstructionRecord} {module : String}
    {place : Nat} {inputs : List InstructionId}
    (h : r.resolveInputs module place m.order = .ok inputs) :
    inputs.map m.order.idxOf = r.inputs := by
  have hall : List.Forall₂ (fun input i => m.order.idxOf i = input) r.inputs inputs := by
    refine (Except.mapM_eq_ok.1 h).imp fun input i hi => ?_
    split at hi
    · rename_i i' hget
      cases hi
      obtain ⟨hlt, rfl⟩ := List.getElem?_eq_some_iff.1 hget
      exact hl.nodup.idxOf_getElem _ hlt
    · cases hi
  rw [map_eq_of_forall₂ hall fun _ _ he => he, List.map_id']

/-- Building the rest of a record leaves a module that has all of it. -/
theorem build_recorded {r : ModuleRecord} {done rest : List InstructionRecord} (hl : Linked m)
    (h : List.Forall₂ (m.Recorded name) m.order done) :
    (InstructionRecord.buildAll (fun place built ins => do
      if !ins.modules.isEmpty then Action.refuse (.invalidRecord (.unexpectedModules place r.name))
      else Module.add ins.op (← ins.resolveInputs r.name place built)) m.order rest).Leaves m
      (fun _ m' => Linked m' ∧ m'.name = m.name ∧
        List.Forall₂ (m'.Recorded name) m'.order (done ++ rest)) fun _ _ => True := by
  induction rest generalizing m done with
  | nil => exact ⟨hl, rfl, (List.append_nil done).symm ▸ h⟩
  | cons ins rest ih =>
    rw [InstructionRecord.buildAll, leaves_bind]
    split
    · exact trivial
    rename_i hmodules
    rw [leaves_bind, leaves_lift]
    refine ⟨fun inputs hinputs => ?_, fun _ _ => trivial⟩
    rw [Module.add, leaves_bind, leaves_get]
    refine (insertAt_leaves _ ins.op inputs [] [] m).mono ?_ fun _ _ _ => trivial
    rintro i m' ⟨rfl, shape, hshape, rfl⟩
    have hmods : ins.modules = [] := by simpa using hmodules
    have hplaces := map_idxOf_of_resolveInputs hl hinputs
    obtain ⟨-, -, hlive, -⟩ := checkInsert_eq_ok.1 hshape
    have hplace : Placeable m m.order.length { op := ins.op, inputs, shape } :=
      placeable_of_checkInsert (Nat.le_refl _) hshape
    have hl' := (Change.place hplace).linked hl
    have hnew : List.Forall₂ ((m.place m.order.length
        { op := ins.op, inputs, shape }).Recorded name) (m.order ++ [m.nextId]) (done ++ [ins]) := by
      refine List.rel_append (h.imp fun _ _ hr => hr.place_end hl _) (.cons ?_ .nil)
      refine ⟨_, (core?_place _ _ _ _).trans (if_pos rfl), ?_⟩
      obtain ⟨op, places, mods⟩ := ins
      cases hmods
      cases hplaces
      have hkept := map_idxOf_place_end (c := m) (fun i hi => (hl.mem_order i).2 (hlive i hi))
        { op, inputs, shape }
      simp only [Instruction.core, hkept]
      rfl
    rw [← order_place_end] at hnew ⊢
    refine (ih hl' hnew).mono ?_ fun _ _ _ => trivial
    rintro - m' ⟨hm', hname, hall⟩
    exact ⟨hm', hname.trans (name_place _ _ _), by simpa using hall⟩

/-- A module that is built from a record has that record. -/
theorem record_load {r : ModuleRecord} (h : r.load.result = .ok ()) (name : ModuleId → String) :
    r.load.state.record name = .ok r := by
  have hbuild : r.build.Leaves (Module.empty r.name) (fun _ m => Linked m ∧ m.name = r.name ∧
      List.Forall₂ (m.Recorded name) m.order r.instructions) fun _ _ => True :=
    build_recorded (linked_empty r.name) List.Forall₂.nil
  obtain ⟨hl, hname, hall⟩ := hbuild.ok h
  have hrecord := record_eq_of_recorded hl hall
  rw [hname] at hrecord
  exact hrecord

/-- A copy has the sub-modules of the original in the same order. -/
theorem subModules_of_copies (hS : BiUnique S) (h : List.Forall₂ (Copies S m c) m.order c.order) :
    List.Forall₂ S m.subModules c.subModules := by
  refine List.rel_foldl (P := List.Forall₂ S) (R := Copies S m c) ?_ .nil h
  rintro seen seen' hseen i j ⟨n, k, hn, hk, ha⟩
  obtain ⟨n, hget, rfl⟩ := exists_get?_of_core? hn
  obtain ⟨k, hget', rfl⟩ := exists_get?_of_core? hk
  simp only [hget, hget', Option.map_some, Option.getD_some]
  refine List.rel_foldl (P := List.Forall₂ S) (R := S) ?_ hseen ha.subs
  intro seen seen' hseen a b hab
  have hmem : a ∈ seen ↔ b ∈ seen' := List.rel_mem hS hab hseen
  beta_reduce
  by_cases hin : a ∈ seen
  · rw [if_pos hin, if_pos (hmem.1 hin)]
    exact hseen
  · rw [if_neg hin, if_neg fun hb => hin (hmem.2 hb)]
    exact List.rel_append hseen (.cons hab .nil)

private theorem map_position? {is : List InstructionId} (h : ∀ i ∈ is, i ∈ m.order) :
    is.map m.position? = (is.map m.order.idxOf).map some := by
  rw [List.map_map]
  exact List.map_congr_left fun i hi => position?_of_mem (h i hi)

private theorem label_of_mem (h : i ∈ m.order) : m.label i = "@" ++ toString (m.order.idxOf i) := by
  rw [label, position?_of_mem h]

private theorem map_label {is : List InstructionId} (h : ∀ i ∈ is, i ∈ m.order) :
    is.map m.label = (is.map m.order.idxOf).map fun place => "@" ++ toString place := by
  rw [List.map_map]
  exact List.map_congr_left fun i hi => label_of_mem (h i hi)

/-- What two lists relate stands at the same places. -/
theorem forall₂_idxOf {R : InstructionId → InstructionId → Prop} {l l' : List InstructionId}
    (hl : l.Nodup) (hl' : l'.Nodup) (h : List.Forall₂ R l l') :
    List.Forall₂ (fun i j => R i j ∧ l'.idxOf j = l.idxOf i) l l' := by
  rw [List.forall₂_iff_get] at h ⊢
  refine ⟨h.1, fun x hx hx' => ⟨h.2 x hx hx', ?_⟩⟩
  simp only [List.get_eq_getElem]
  rw [hl.idxOf_getElem x hx, hl'.idxOf_getElem x hx']

section Same
variable (hm : Linked m) (hc : Linked c) (hname : c.name = m.name)
  (hnames : ∀ a b, S a b → name' b = name a)
include hm hc hnames

private theorem recordOf_of_copies (h : Copies S m c i j) :
    c.recordOf name' j = m.recordOf name i := by
  obtain ⟨n, k, hn, hk, ha⟩ := h
  obtain ⟨r, hr, n', hn', rfl⟩ := recordOf_spec hm name (mem_order_of_core? hm hn)
  obtain ⟨r', hr', k', hk', rfl⟩ := recordOf_spec hc name' (mem_order_of_core? hc hk)
  cases hn.symm.trans hn'
  cases hk.symm.trans hk'
  rw [hr, hr', ha.op, ha.places, map_eq_of_forall₂ ha.subs hnames]

include hname in
private theorem record_of_copies (h : List.Forall₂ (Copies S m c) m.order c.order) :
    c.record name' = m.record name := by
  have hall : c.order.mapM (c.recordOf name') = m.order.mapM (m.recordOf name) :=
    Except.mapM_eq_of_forall₂ (h.imp fun _ _ hij => recordOf_of_copies hm hc hnames hij)
  rw [record, record, hall, hname]

/-- The line of an instruction shows what its copy shows, if that stands at the same place. -/
theorem lineText_of_copies (hplace : c.order.idxOf j = m.order.idxOf i) (h : Copies S m c i j) :
    (c.get? j).map (c.lineText name' j) = (m.get? i).map (m.lineText name i) := by
  obtain ⟨n, k, hn, hk, ha⟩ := h
  obtain ⟨n, hget, rfl⟩ := exists_get?_of_core? hn
  obtain ⟨k, hget', rfl⟩ := exists_get?_of_core? hk
  have hplaces : k.inputs.map c.order.idxOf = n.inputs.map m.order.idxOf := ha.places
  have hmods : k.moduleArgs.map name' = n.moduleArgs.map name := map_eq_of_forall₂ ha.subs hnames
  have hinputs : k.inputs.map c.label = n.inputs.map m.label := by
    rw [map_label fun x hx => hm.input_mem_order (inputsOf_of_get? hget ▸ hx),
      map_label fun x hx => hc.input_mem_order (inputsOf_of_get? hget' ▸ hx), hplaces]
  have hlabel : c.label j = m.label i := by
    rw [label_of_mem (mem_order_of_core? hm hn), label_of_mem (mem_order_of_core? hc hk), hplace]
  have hop : k.op = n.op := ha.op
  have hshape : k.shape = n.shape := ha.shape
  have hnone : k.inputs.isEmpty = n.inputs.isEmpty := by
    simpa using congrArg List.isEmpty hplaces
  have hnomods : k.moduleArgs.isEmpty = n.moduleArgs.isEmpty := by
    simpa using congrArg List.isEmpty hmods
  rw [hget, hget', Option.map_some, Option.map_some, lineText, lineText]
  simp only [hlabel, hinputs, hmods, hop, hshape, hnone, hnomods]

include hname in
private theorem listingWith_of_copies (h : List.Forall₂ (Copies S m c) m.order c.order) :
    c.listingWith name' = m.listingWith name := by
  have hlines : c.order.map (fun j => (c.get? j).map (c.lineText name' j)) =
      m.order.map fun i => (m.get? i).map (m.lineText name i) :=
    map_eq_of_forall₂ (forall₂_idxOf hm.nodup hc.nodup h) fun _ _ hij =>
      lineText_of_copies hm hc hnames hij.2 hij.1
  have hfilter := congrArg (List.filterMap id) hlines
  rw [List.filterMap_map, List.filterMap_map] at hfilter
  rw [listingWith, listingWith, hname]
  exact congrArg (fun lines => "module: \"" ++ m.name ++ "\"\n" ++ String.join lines) hfilter

end Same

end TensorGraph.Module

namespace TensorGraph.Program
open Relation Relator TensorGraph.Action
variable {p q : Program} {m m' : ModuleId} {module c : Module}

private theorem nameOf_of_named (hq : Arranged q) (h : Named p q m m') :
    q.nameOf m' = p.nameOf m := by
  obtain ⟨c, hc, hname⟩ := (hq.find _ _).1 h.2
  rw [nameOf_of_get? hc, hname]

section Reloaded
variable (hp : Arranged p) (hq : Arranged q)
include hp hq

/-- Names pair the modules of one program with those of the other. -/
theorem biUnique_named : BiUnique (Named p q) := by
  refine ⟨fun a m' b ha hb => ?_, fun a b c hb hc => Option.some.inj (hb.2.symm.trans hc.2)⟩
  obtain ⟨x, hx⟩ := Option.isSome_iff_exists.1 ha.1
  obtain ⟨y, hy⟩ := Option.isSome_iff_exists.1 hb.1
  refine hp.name_inj hx hy ?_
  rw [← nameOf_of_get? hx, ← nameOf_of_get? hy, ← nameOf_of_named hq ha, nameOf_of_named hq hb]

private theorem named_main : Named p q p.main q.main := by
  obtain ⟨module, hm, hname⟩ := (hp.find _ _).1 hp.main
  refine ⟨by simp [hm], ?_⟩
  rw [nameOf_of_get? hm, hname, hq.main]

variable (hr : Reloaded p q)
include hr

/-- The module of a name that has been built again is the copy. -/
theorem Reloaded.mirrored_of_named (hm : m ∈ p.reachable) (h : Named p q m m') :
    ∃ module c, Mirrored p q m m' module c ∧ c.name = module.name := by
  obtain ⟨k, module, c, hk⟩ := hr.mirrored m hm
  cases (biUnique_named hp hq).2 ⟨h.1, hk.find⟩ h
  have hname := nameOf_of_named hq h
  rw [nameOf_of_get? hk.get_copy, nameOf_of_get? hk.get] at hname
  exact ⟨module, c, hk, hname⟩

/-- Both programs list the modules they reach in the same order. -/
theorem postOrder_named (depth : Nat) (hm : m ∈ p.reachable) (h : Named p q m m')
    {done done' : List ModuleId} (hd : List.Forall₂ (Named p q) done done') :
    List.Forall₂ (Named p q) (p.postOrder depth m done) (q.postOrder depth m' done') := by
  induction depth generalizing m m' done done' with
  | zero => exact hd
  | succ depth ih =>
    obtain ⟨module, c, hmirrored, -⟩ := hr.mirrored_of_named hp hq hm h
    have hmem := List.rel_mem (biUnique_named hp hq) h hd
    rw [postOrder, postOrder, hmirrored.get, hmirrored.get_copy]
    by_cases hin : m ∈ done
    · rw [if_pos hin, if_pos (hmem.1 hin)]
      exact hd
    · rw [if_neg hin, if_neg fun hb => hin (hmem.2 hb)]
      have hsubs := Module.subModules_of_copies (biUnique_named hp hq) hmirrored.copies
      have hreach : ∀ sub ∈ module.subModules, sub ∈ p.reachable := fun sub hsub =>
        (reachable_extended hp).listed.closed hm ((refers_of_get? hmirrored.get).2 hsub)
      refine List.rel_append ?_ (.cons h .nil)
      refine List.rel_foldl (P := List.Forall₂ (Named p q))
        (R := fun sub sub' => sub ∈ p.reachable ∧ Named p q sub sub') ?_ hd
        ((List.forall₂_and_left _ _).2 ⟨hreach, hsubs⟩)
      exact fun _ _ hd _ _ hsub => ih hsub.1 hsub.2 hd

private theorem reachable_named :
    List.Forall₂ (fun m m' => m ∈ p.reachable ∧ Named p q m m') p.reachable q.reachable := by
  have hmain : p.main ∈ p.reachable := (mem_reachable hp).2 .refl
  have hdepth := postOrder_named hp hq hr (p.modules.size + q.modules.size + 1) hmain
    (named_main hp hq) .nil
  rw [postOrder_eq_reachable hp (by omega), postOrder_eq_reachable hq (by omega)] at hdepth
  exact (List.forall₂_and_left _ _).2 ⟨fun _ hm => hm, hdepth⟩

variable (hlp : ∀ m ∈ p.reachable, ∀ module, p.get? m = some module → module.Linked)
  (hlq : ∀ m module, q.get? m = some module → module.Linked)
include hlp hlq

private theorem record_of_reloaded : q.record = p.record := by
  have hall : q.reachable.mapM (fun m => do (← q.get m).record q.nameOf) =
      p.reachable.mapM (fun m => do (← p.get m).record p.nameOf) := by
    refine Except.mapM_eq_of_forall₂ ((reachable_named hp hq hr).imp fun m m' hm => ?_)
    obtain ⟨module, c, hmirrored, hname⟩ := hr.mirrored_of_named hp hq hm.1 hm.2
    rw [get_eq_ok_iff.2 hmirrored.get, get_eq_ok_iff.2 hmirrored.get_copy, Except.ok_bind,
      Except.ok_bind]
    exact Module.record_of_copies (hlp m hm.1 module hmirrored.get) (hlq m' c hmirrored.get_copy)
      hname (fun _ _ hsub => nameOf_of_named hq hsub) hmirrored.copies
  rw [record, record, hall]

/-- When all modules of a program are within reach of the entry, its listing shows what has been built
again from its record. -/
theorem listing_of_reloaded (hall : ∀ m, (p.get? m).isSome → m ∈ p.reachable) :
    q.listing = p.listing := by
  have hnamed := reachable_named hp hq hr
  have hall' : ∀ m', (q.get? m').isSome → m' ∈ q.reachable := fun m' hm' => by
    obtain ⟨c, hc⟩ := Option.isSome_iff_exists.1 hm'
    have hfind := (hq.find c.name m').2 ⟨c, hc, rfl⟩
    obtain ⟨m, hm, hname⟩ := hr.names c.name m' hfind
    have hlive := (reachable_extended hp).listed.live hm
    exact (List.rel_mem (biUnique_named hp hq) ⟨hlive, hname ▸ hfind⟩
      (hnamed.imp fun _ _ h => h.2)).1 hm
  have hnone : p.ids.filter (· ∉ p.reachable) = [] :=
    List.filter_eq_nil_iff.2 fun m hm => by simpa using hall m (mem_ids.1 hm)
  have hnone' : q.ids.filter (· ∉ q.reachable) = [] :=
    List.filter_eq_nil_iff.2 fun m hm => by simpa using hall' m (mem_ids.1 hm)
  have htexts : q.reachable.map (fun m => (q.get? m).map (·.listingWith q.nameOf)) =
      p.reachable.map fun m => (p.get? m).map (·.listingWith p.nameOf) := by
    refine Module.map_eq_of_forall₂ hnamed fun m m' hm => ?_
    obtain ⟨module, c, hmirrored, hname⟩ := hr.mirrored_of_named hp hq hm.1 hm.2
    rw [hmirrored.get, hmirrored.get_copy]
    exact congrArg some (Module.listingWith_of_copies (hlp m hm.1 module hmirrored.get)
      (hlq m' c hmirrored.get_copy) hname (fun _ _ hsub => nameOf_of_named hq hsub) hmirrored.copies)
  have hfilter := congrArg (List.filterMap id) htexts
  rw [List.filterMap_map, List.filterMap_map] at hfilter
  simp only [listing, hnone, hnone', List.append_nil]
  exact congrArg (String.intercalate "\n") hfilter

end Reloaded

/-- Corresponding modules: they have the same name, and list the same operators, places of inputs,
names of sub-modules and shapes in the same order. -/
def Corresponds (p q : Program) (m m' : ModuleId) : Prop :=
  ∃ module c, p.get? m = some module ∧ q.get? m' = some c ∧ c.name = module.name ∧
    List.Forall₂ (fun i j => ∃ n k, module.get? i = some n ∧ c.get? j = some k ∧ k.op = n.op ∧
      k.shape = n.shape ∧ k.inputs.map c.position? = n.inputs.map module.position? ∧
      k.moduleArgs.map q.nameOf = n.moduleArgs.map p.nameOf) module.order c.order

private theorem Mirrored.corresponds (h : Mirrored p q m m' module c) (hq : Arranged q)
    (hname : c.name = module.name) (hm : module.Linked) (hc : c.Linked) : Corresponds p q m m' := by
  refine ⟨module, c, h.get, h.get_copy, hname, h.copies.imp fun i j hij => ?_⟩
  obtain ⟨n, k, hn, hk, ha⟩ := hij
  obtain ⟨n, hget, rfl⟩ := Module.exists_get?_of_core? hn
  obtain ⟨k, hget', rfl⟩ := Module.exists_get?_of_core? hk
  refine ⟨n, k, hget, hget', ha.op, ha.shape, ?_,
    Module.map_eq_of_forall₂ ha.subs fun _ _ hsub => nameOf_of_named hq hsub⟩
  rw [Module.map_position? fun x hx => hm.input_mem_order (Module.inputsOf_of_get? hget ▸ hx),
    Module.map_position? fun x hx => hc.input_mem_order (Module.inputsOf_of_get? hget' ▸ hx)]
  exact congrArg (List.map some) ha.places

/-- What edits have built and the check has passed can be recorded, where shapes are as inferred and
control flow holds the output shapes that its sub-modules have now. -/
theorem Edited.recordable (h : Edited p)
    (hmodules : ∀ m ∈ p.reachable, ∀ module, p.get? m = some module → module.validate = .ok () ∧
      ∀ i n, module.get? i = some n →
        module.ShapeFits n ∧ n.moduleOutputs = n.moduleArgs.map p.outputsOf) : Recordable p := by
  refine ⟨h.toArranged, fun m hm module hget => ?_, fun m hm module i n hget hn => ?_⟩
  · obtain ⟨hvalid, hfits⟩ := hmodules m hm module hget
    have hb := h.built m module hget
    obtain ⟨ho, hlast, -⟩ := (Module.validate_eq_ok hb.linked).1 hvalid
    refine ⟨hb.linked, ho, hlast, hb.distinctNames, fun i n hn => ?_⟩
    obtain ⟨k, hk, rfl⟩ := Module.exists_get?_of_core? hn
    exact (hfits i k hk).1
  · obtain ⟨k, hk, rfl⟩ := Module.exists_get?_of_core? hn
    exact ((hmodules m hm module hget).2 i k hk).2

/-- A module built from a record has that record. A program that edits have built, in which the
modules within reach pass the check, every shape is the one inferred and control flow holds the
output shapes that its sub-modules have now, can be recorded and loaded again. This leaves a program
with the same record and corresponding modules, and with the same listing when nothing was out of
reach, whatever the numbers were. -/
theorem record_round_trip :
    (∀ (r : ModuleRecord) (name : ModuleId → String), r.load.result = .ok () →
      r.load.state.record name = .ok r) ∧
    ∀ edits : List Mutation,
      let p := Mutation.applyAll empty edits
      (∀ m ∈ p.reachable, ∀ module, p.get? m = some module → module.validate = .ok () ∧
        ∀ i n, module.get? i = some n →
          module.ShapeFits n ∧ n.moduleOutputs = n.moduleArgs.map p.outputsOf) →
      ∃ r, p.record = .ok r ∧ r.load.result = .ok () ∧
        let q := r.load.state
        q.record = .ok r ∧ List.Forall₂ (Corresponds p q) p.reachable q.reachable ∧
          ((∀ m, (p.get? m).isSome → m ∈ p.reachable) → q.listing = p.listing) := by
  refine ⟨fun r name h => Module.record_load h name, fun edits => ?_⟩
  intro p hmodules
  have hp : Recordable p := (edited_empty.applyAll edits).recordable hmodules
  obtain ⟨r, hrecord, hload, hr⟩ := exists_record_reloaded hp
  have hq := ProgramRecord.loaded_of_load hload
  have hlp : ∀ m ∈ p.reachable, ∀ module, p.get? m = some module → module.Linked :=
    fun m hm module hget => (hp.valid m hm module hget).linked
  have hlq : ∀ m module, r.load.state.get? m = some module → module.Linked :=
    fun m module hget => (hq.valid m module hget).linked
  refine ⟨r, hrecord, hload, ?_, ?_, fun hall => ?_⟩
  · rw [record_of_reloaded hp.toArranged hq.toArranged hr hlp hlq, hrecord]
  · refine (reachable_named hp.toArranged hq.toArranged hr).imp fun m m' hm => ?_
    obtain ⟨module, c, hmirrored, hname⟩ :=
      hr.mirrored_of_named hp.toArranged hq.toArranged hm.1 hm.2
    exact hmirrored.corresponds hq.toArranged hname (hlp m hm.1 module hmirrored.get)
      (hlq m' c hmirrored.get_copy)
  · exact listing_of_reloaded hp.toArranged hq.toArranged hr hlp hlq hall

/-- A loop whose body and entry have been edited to and fro: a module and an instruction are removed
again, a parameter is moved, and the body may not refer to the entry. -/
def looping : List Mutation :=
  let x := Shape.packedOf .float [2]
  let c := Shape.packedOf .bool [1]
  [.create "draft", .create "body", .edit ⟨2⟩ (.addParameter "c" c), .edit ⟨2⟩ (.addParameter "x" x),
    .edit ⟨2⟩ (.add (.unary .neg) [⟨1⟩]), .edit ⟨2⟩ (.add (.unary .exp) [⟨1⟩]),
    .edit ⟨2⟩ (.addOutput [⟨0⟩, ⟨3⟩]), .edit ⟨2⟩ (.remove ⟨2⟩), .edit ⟨0⟩ (.addParameter "x" x),
    .edit ⟨0⟩ (.addParameter "n" (.packedOf .int64 [1])), .edit ⟨0⟩ (.addParameter "c" c),
    .edit ⟨0⟩ (.moveToEnd ⟨0⟩), .insert ⟨0⟩ none (.loop 4) [⟨1⟩, ⟨2⟩, ⟨0⟩] [⟨2⟩],
    .insert ⟨2⟩ (some ⟨3⟩) (.loop 4) [⟨0⟩] [⟨0⟩], .remove ⟨2⟩, .remove ⟨1⟩]

private theorem looping_spec :
    let p := Mutation.applyAll empty looping
    p.reachable = [⟨2⟩, ⟨0⟩] ∧ p.ids = [⟨0⟩, ⟨2⟩] ∧
      ∀ m ∈ p.ids, ∀ module ∈ p.get? m, module.validate = .ok () ∧
        ∀ e ∈ module.instructions.entries,
          e.2.op.inferShape (e.2.inputs.map module.shapeOf) e.2.moduleOutputs = .ok e.2.shape ∧
            e.2.moduleOutputs = e.2.moduleArgs.map p.outputsOf := by
  simp only [looping, Mutation.applyAll, List.foldl_cons, List.foldl_nil, Mutation.apply]
  unfold insertWithModules checkReferences
  simp only [Program.reaches_eq_getD 8]
  decide +kernel

/-- A module in which an instruction uses another one twice. -/
def doubled : ModuleRecord :=
  { name := "doubled"
    instructions := [
      { op := .parameter "x" (.packedOf .float [2]) },
      { op := .binary .add, inputs := [0, 0] },
      { op := .output, inputs := [1, 0] }] }

/-- The modules of the loop are numbered otherwise once it has been loaded again, and nothing else
has changed. -/
theorem record_round_trip_looping :
    let p := Mutation.applyAll empty looping
    (doubled.load.result = .ok () ∧ doubled.load.state.record ModuleId.text = .ok doubled) ∧
    ∃ r, p.record = .ok r ∧ r.load.result = .ok () ∧
      let q := r.load.state
      q.record = .ok r ∧ List.Forall₂ (Corresponds p q) [⟨2⟩, ⟨0⟩] q.reachable ∧
        q.listing = p.listing := by
  intro p
  obtain ⟨hreachable, hids, hmodules⟩ := looping_spec
  have hload : doubled.load.result = .ok () := by decide +kernel
  refine ⟨⟨hload, record_round_trip.1 doubled ModuleId.text hload⟩, ?_⟩
  obtain ⟨r, hrecord, hr, hsame, hmods, hlisting⟩ := record_round_trip.2 looping
    fun m hm module hget => by
      have hlive : m ∈ p.ids := mem_ids.2 (by simp [p, hget])
      obtain ⟨hvalid, hfits⟩ := hmodules m hlive module hget
      exact ⟨hvalid, fun i n hn => hfits (i.index, n) (Arena.mem_entries.2 hn)⟩
  refine ⟨r, hrecord, hr, hsame, hreachable ▸ hmods, hlisting fun m hm => ?_⟩
  rw [hreachable]
  have hmem := hids ▸ mem_ids.2 hm
  revert hmem
  simp only [List.mem_cons, List.not_mem_nil, or_false]
  exact Or.symm

end TensorGraph.Program
