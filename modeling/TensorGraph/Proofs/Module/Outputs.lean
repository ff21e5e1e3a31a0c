import TensorGraph.Proofs.Module.Consistency
import TensorGraph.Proofs.Module.Validation

/-! Outputs are listed once, by the last instruction. Every edit keeps it so, except for those that
move instructions and the replacements that make an instruction use the listing itself: these sink
the instruction behind it. -/
namespace TensorGraph.Module
open TensorGraph.Action
variable {m m' : Module} {i old new : InstructionId} {n : Instruction}

/-- The instruction lists outputs. -/
def listsOutputs (m : Module) (i : InstructionId) : Bool :=
  (m.get? i).any fun n => n.op.isOutput

private theorem listsOutputs_eq (m : Module) (i : InstructionId) :
    m.listsOutputs i = (m.core? i).any fun n => n.op.isOutput := by
  rw [listsOutputs, core?]
  cases m.get? i <;> rfl

private theorem listsOutputs_iff : m.listsOutputs i ↔ ∃ n, m.get? i = some n ∧ n.op.isOutput := by
  rw [listsOutputs, Option.any_eq_true]

private theorem listsOutputs_of_get? (h : m.get? i = some n) : m.listsOutputs i = n.op.isOutput := by
  rw [listsOutputs, h]
  rfl

private theorem listsOutputs_congr
    (h : (m'.core? i).map Instruction.op = (m.core? i).map Instruction.op) :
    m'.listsOutputs i = m.listsOutputs i := by
  have hany : ∀ k : Module, k.listsOutputs i = ((k.core? i).map Instruction.op).any Operator.isOutput := by
    intro k
    rw [listsOutputs_eq, Option.any_map]
  rw [hany, hany, h]

private theorem outputLast_iff : OutputLast m ↔ ∀ i, m.listsOutputs i → m.last? = some i := by
  constructor
  · intro h i hi
    obtain ⟨n, hn, ho⟩ := listsOutputs_iff.1 hi
    exact h i n hn ho
  · intro h i n hn ho
    exact h i (listsOutputs_of_get? hn ▸ ho)

/-- The listing stays last where no other instruction has become one and it has not moved. -/
theorem OutputLast.of_kept (h : OutputLast m) (hout : ∀ i, m'.listsOutputs i → m.listsOutputs i)
    (hlast : ∀ i, m'.listsOutputs i → m.last? = some i → m'.last? = some i) : OutputLast m' := by
  rw [outputLast_iff] at h ⊢
  intro i hi
  exact hlast i hi (h i (hout i hi))

theorem outputLast_empty (name : String) : OutputLast (Module.empty name) := by
  intro i n hn
  simp [Module.empty, get?, Arena.get?] at hn

theorem order_place_end (m : Module) (n : Instruction) :
    (m.place m.order.length n).order = m.order ++ [m.nextId] := by
  rw [order_place_eq (Nat.le_refl _), List.take_length, List.drop_length]

theorem last?_place_end (m : Module) (n : Instruction) :
    (m.place m.order.length n).last? = some m.nextId := by
  rw [last?, order_place_end]
  simp

theorem OutputLast.place (h : OutputLast m) {p : Nat} (hp : Placeable m p n) :
    OutputLast (m.place p n) := by
  rw [outputLast_iff] at h ⊢
  intro i hi
  rw [listsOutputs_eq, core?_place] at hi
  split at hi
  · rename_i hnew
    rw [hnew, hp.output_last hi, last?_place_end]
  · rw [← listsOutputs_eq] at hi
    have hlast := h i hi
    rcases Nat.lt_or_ge p m.order.length with hlt | hge
    · rw [last?_place hlt, hlast]
    · have hopen := hp.open_end (Nat.le_antisymm hp.le hge)
      obtain ⟨k, hk, ho⟩ := listsOutputs_iff.1 hi
      rw [output?_eq_some.2 ⟨hlast, k, hk, ho⟩] at hopen
      cases hopen

/-- Sinking behind any other instruction than the last leaves the last one in its place. -/
theorem last?_sinkAfter (hl : Linked m) {anchor : InstructionId} (ha : anchor ∈ m.order)
    (hne : m.last? ≠ some anchor) (roots : List InstructionId) :
    (m.sinkAfter anchor roots).last? = m.last? := by
  obtain ⟨a, b, hs⟩ := List.append_of_mem ha
  have hb : b ≠ [] := fun hb => hne ((last?_eq_some_iff_of_split hl.nodup hs).2 hb)
  rw [sinkAfter_eq hl hs, last?, last?, hs, List.getLast?_append_cons, List.getLast?_append_cons,
    ← List.cons_append, List.getLast?_append_of_ne_nil _ hb, List.getLast?_cons_of_ne_nil hb]

private theorem last?_rewire (hl : Linked m) (h : (m.get? old).isSome)
    (hi : ∀ i ∈ n.inputs, (m.get? i).isSome) (hne : ∀ i ∈ n.inputs, m.last? ≠ some i) :
    (m.rewire old n).last? = m.last? := by
  have horder := (sameFrame_relink m old n).order
  have hsame : (m.relink old n).last? = m.last? := by rw [last?, horder, last?]
  have hmem : ∀ i ∈ n.inputs, i ∈ (m.relink old n).order := fun i hx => by
    rw [horder, hl.mem_order]
    exact hi i hx
  by_cases hnil : n.inputs = []
  · rw [rewire_eq, hnil]
    exact hsame
  obtain ⟨anchor, ha, he, -⟩ := latest?_spec hmem hnil
  simp only [rewire_eq, he]
  split
  · rw [last?_sinkAfter (linked_relink hl h hi) (hmem anchor ha) (hsame ▸ hne anchor ha), hsame]
  · exact hsame

private theorem last?_redirect (hl : Linked m) (hne : old ≠ new) (hn : (m.get? new).isSome)
    {rs : List Redirected} (hr : Redirection m old new rs) (hlast : m.last? ≠ some new) :
    (m.redirect old new rs).last? = m.last? := by
  have horder := (sameFrame_redirectEdges m old new rs).order
  have hsame : (rs.foldl (redirectOne old new) m).last? = m.last? := by rw [last?, horder, last?]
  have hmem : new ∈ (rs.foldl (redirectOne old new) m).order := by rwa [horder, hl.mem_order]
  rw [redirect_eq]
  split
  · exact hsame
  · rw [last?_sinkAfter (linked_redirectEdges hl hne hn hr) hmem (hsame ▸ hlast), hsame]

/-- An instruction is replaced by one that lists outputs only if it does so itself. -/
theorem listsOutputs_rewire (hl : Linked m) {op : Operator} {inputs : List InstructionId}
    {before after : Instruction} (hr : Replacement m old op inputs before after) (i : InstructionId) :
    (m.rewire old after).listsOutputs i = m.listsOutputs i := by
  rw [listsOutputs_eq, hr.core?_rewire hl, listsOutputs_eq]
  split
  · rename_i hi
    rw [hi, core?_of_get? hr.get]
    change after.op.isOutput = before.op.isOutput
    rw [hr.op_eq, hr.output]
  · rfl

private theorem listsOutputs_redirect (hl : Linked m) (hne : old ≠ new) (hn : (m.get? new).isSome)
    {rs : List Redirected} (hr : Redirection m old new rs) (i : InstructionId) :
    (m.redirect old new rs).listsOutputs i = m.listsOutputs i := by
  apply listsOutputs_congr
  rw [core?_redirect hl hne hn hr]
  by_cases hu : i ∈ rs.map Redirected.user
  · obtain ⟨r, hrs, rfl⟩ := List.mem_map.1 hu
    rw [core?_redirectEdges_of_mem (hr.nodup hl) hrs, Option.map_map]
    rfl
  · rw [core?_redirectEdges_of_notMem hu]

theorem OutputLast.rewire (h : OutputLast m) (hl : Linked m) {op : Operator}
    {inputs : List InstructionId} {before after : Instruction}
    (hr : Replacement m old op inputs before after) (hin : ∀ i ∈ inputs, m.listsOutputs i = false) :
    OutputLast (m.rewire old after) := by
  refine h.of_kept (fun i hi => listsOutputs_rewire hl hr i ▸ hi) fun i hi hlast => ?_
  rw [listsOutputs_rewire hl hr] at hi
  rw [last?_rewire hl hr.old_live (hr.inputs_eq ▸ hr.live), hlast]
  intro j hj hlast'
  have hij : i = j := Option.some.inj (hlast.symm.trans hlast')
  have hno := hin j (hr.inputs_eq ▸ hj)
  rw [← hij, hi] at hno
  cases hno

theorem OutputLast.redirect (h : OutputLast m) (hl : Linked m) (hne : old ≠ new)
    (hn : (m.get? new).isSome) {rs : List Redirected} (hr : Redirection m old new rs)
    (hnew : m.listsOutputs new = false) : OutputLast (m.redirect old new rs) := by
  refine h.of_kept (fun i hi => listsOutputs_redirect hl hne hn hr i ▸ hi) fun i hi hlast => ?_
  rw [listsOutputs_redirect hl hne hn hr] at hi
  rw [last?_redirect hl hne hn hr, hlast]
  intro hlast'
  rw [← Option.some.inj (hlast.symm.trans hlast'), hi] at hnew
  cases hnew

theorem OutputLast.rename (h : OutputLast m) (i : InstructionId) (name : String) :
    OutputLast (m.rename i name) := by
  refine h.of_kept (fun j hj => ?_) fun j _ hlast => hlast
  rw [listsOutputs, get?_rename] at hj
  split at hj
  · rw [Option.any_eq_true] at hj
    obtain ⟨k, hk, ho⟩ := hj
    obtain ⟨n, hn, rfl⟩ := Option.map_eq_some_iff.1 hk
    obtain ⟨op, _, _, _, _, _⟩ := n
    rw [listsOutputs_of_get? hn]
    cases op with
    | parameter => cases ho
    | _ => exact ho
  · exact hj

private theorem listsOutputs_detach (m : Module) (i j : InstructionId) :
    (m.detach i).listsOutputs j = m.listsOutputs j := by
  apply listsOutputs_congr
  rw [core?_detach]
  split
  · rw [Option.map_map]
    rfl
  · rfl

theorem OutputLast.detach (h : OutputLast m) (i : InstructionId) : OutputLast (m.detach i) := by
  refine h.of_kept (fun j hj => listsOutputs_detach m i j ▸ hj) fun j _ hlast => ?_
  rw [last?, (sameFrame_detach m i).order]
  exact hlast

theorem OutputLast.erase (h : OutputLast m) (i : InstructionId) : OutputLast (m.erase i) := by
  have hout : ∀ j, (m.erase i).listsOutputs j → j ≠ i ∧ m.listsOutputs j := by
    intro j hj
    rw [listsOutputs_eq, core?_erase] at hj
    split at hj
    · cases hj
    · exact ⟨‹_›, listsOutputs_eq m j ▸ hj⟩
  refine h.of_kept (fun j hj => (hout j hj).2) fun j hj hlast => ?_
  obtain ⟨front, hs⟩ := List.getLast?_eq_some_iff.1 hlast
  change (m.order.filter (· ≠ i)).getLast? = some j
  rw [hs, List.filter_append, List.filter_cons_of_pos (by simpa using (hout j hj).1)]
  simp

theorem OutputLast.truncate (h : OutputLast m) (hl : Linked m) (length : Nat) :
    OutputLast (m.truncate length) := by
  have hout : ∀ j, (m.truncate length).listsOutputs j →
      j ∉ m.order.drop length ∧ m.listsOutputs j := by
    intro j hj
    rw [listsOutputs_eq, core?_truncate hl] at hj
    split at hj
    · cases hj
    · rw [Option.any_map] at hj
      exact ⟨‹_›, listsOutputs_eq m j ▸ hj⟩
  refine h.of_kept (fun j hj => (hout j hj).2) fun j hj hlast => ?_
  have hdrop : m.order.drop length = [] := by
    by_contra hne
    refine (hout j hj).1 (List.mem_of_getLast? ?_)
    rw [← List.getLast?_append_of_ne_nil (m.order.take length) hne, List.take_append_drop]
    exact hlast
  have hall : m.order.take length = m.order := by
    rw [← List.append_nil (m.order.take length), ← hdrop, List.take_append_drop]
  rw [last?, order_truncate, hall]
  exact hlast

namespace Mutation

/-- The edit puts an instruction wherever it is told. -/
def moves : Mutation → Bool
  | moveToEnd _ => true
  | _ => false

/-- The edit is a replacement that would make an instruction use the listing of outputs. -/
def readsListing (m : Module) : Mutation → Bool
  | replace _ _ inputs => inputs.any m.listsOutputs
  | replaceWith _ new => m.listsOutputs new
  | _ => false

variable {e : Mutation}

/-- Every other edit keeps the listing last. -/
theorem outputLast_apply (hl : Linked m) (h : OutputLast m) (hm : e.moves = false)
    (hr : e.readsListing m = false) : OutputLast (e.apply m) := by
  have hplaced : ∀ {α : Type} {x : Edit α}, x.Leaves m (fun _ => Placed m [] []) (fun _ m' => m' = m) →
      OutputLast (x m).state := by
    intro α x hx
    rcases state_change hx with he | ⟨p, n, hp, -, -, he⟩
    · rwa [he]
    · rw [he]
      exact h.place hp
  cases e with
  | add op inputs => exact hplaced (add_placed op inputs m)
  | insert before op inputs => exact hplaced (insertWithModules_placed (some before) op inputs [] [] m)
  | addParameter name shape => exact hplaced (addParameter_placed name shape m)
  | addLiteral value => exact hplaced (addLiteral_placed value m)
  | addOutput outputs => exact hplaced (add_placed .output outputs m)
  | replaceOutput outputs =>
    refine Action.Leaves.state (P := OutputLast) ?_
    simp only [Module.replaceOutput, leaves_bind, leaves_get]
    split
    · rename_i r hout
      refine (replace_leaves r .output outputs m).mono ?_ fun _ _ hx => hx.2 ▸ h
      intro _ _ hx
      obtain ⟨-, before, after, hrep, rfl⟩ := hx
      refine h.rewire hl hrep fun i hi => ?_
      by_contra hne
      have hlast := outputLast_iff.1 h i (by simpa using hne)
      have hir : i = r := Option.some.inj (hlast.symm.trans (output?_eq_some.1 hout).1)
      exact hrep.acyclic i hi (hir ▸ .refl)
    · refine (add_placed .output outputs m).mono ?_ fun _ _ hx => hx ▸ h
      intro _ _ hx
      obtain ⟨p, n, hp, -, -, rfl⟩ := hx
      exact h.place hp
  | renameParameter old new =>
    refine Action.Leaves.state (P := OutputLast) ?_
    simp only [Module.renameParameter, leaves_bind, leaves_get]
    split
    · exact h
    · split
      · exact h
      · exact h.rename _ new
  | replace old op inputs =>
    refine Action.Leaves.state (P := OutputLast) ?_
    refine (replace_leaves old op inputs m).mono ?_ fun _ _ hx => hx.2 ▸ h
    intro _ _ hx
    obtain ⟨-, before, after, hrep, rfl⟩ := hx
    exact h.rewire hl hrep fun i hi => by simpa using List.any_eq_false.1 hr i hi
  | replaceWith old new =>
    refine Action.Leaves.state (P := OutputLast) ?_
    refine (replaceWith_leaves old new m).mono ?_ fun _ _ hx => hx.1 ▸ h
    intro _ _ hx
    rcases hx with ⟨-, rfl⟩ | ⟨hne, hf⟩
    · exact h
    · cases hf with
      | replaced _ hrep => exact h.rewire hl hrep fun i hi => List.mem_singleton.1 hi ▸ hr
      | redirected hn _ _ _ hrs => exact h.redirect hl hne hn hrs hr
  | remove i =>
    refine Action.Leaves.state (P := OutputLast) ?_
    simp only [Module.remove, leaves_bind, leaves_get, leaves_lift]
    refine ⟨fun _ _ => ?_, fun _ _ => h⟩
    split
    · exact (h.detach i).erase i
    · exact h
  | removeAfter last =>
    refine Action.Leaves.state (P := OutputLast) ?_
    refine (removeAfter_leaves hl last).mono ?_ fun _ _ hx => hx.2 ▸ h
    intro _ m' hx
    obtain ⟨p, -, rfl, -⟩ := hx
    exact h.truncate hl (p + 1)
  | clearInputs i =>
    refine Action.Leaves.state (P := OutputLast) ?_
    simp only [Module.clearInputs, leaves_bind, leaves_get, leaves_lift, leaves_set]
    exact ⟨fun _ _ => h.detach i, fun _ _ => h⟩
  | moveToEnd i => cases hm

/-- A replacement that makes an instruction use the listing of outputs puts it behind the listing. -/
theorem not_outputLast_apply (hl : Linked m) (ho : Ordered m) (h : OutputLast m)
    (hr : e.readsListing m) (hne : e.apply m ≠ m) : ¬ OutputLast (e.apply m) := by
  have hread : ∀ {m' i j}, Change m m' → m'.listsOutputs i → i ∈ m'.inputsOf j → ¬ OutputLast m' :=
    fun hc hi hij hlast => (hc.ordered hl ho).last_notMem_inputsOf (hc.linked hl)
      (outputLast_iff.1 hlast _ hi) hij
  cases e with
  | replace old op inputs =>
    obtain ⟨i, hi, hout⟩ := List.any_eq_true.1 hr
    have hleft := state_change ((replace_leaves old op inputs m).mono (fun _ _ hx => hx.2) fun _ _ hx => hx.2)
    obtain ⟨before, after, hrep, he⟩ := hleft.resolve_left hne
    change ¬ OutputLast (Module.replace old op inputs m).state
    rw [he]
    refine hread (.rewire hrep) (listsOutputs_rewire hl hrep i ▸ hout) (j := old) ?_
    rw [inputsOf_eq_core, hrep.core?_rewire hl, if_pos rfl]
    change i ∈ after.inputs
    rw [hrep.inputs_eq]
    exact hi
  | replaceWith old new =>
    have hout : m.listsOutputs new := hr
    have hleft := state_change (R := fun m' => m' = m ∨ old ≠ new ∧ Forwarded m old new m')
      ((replaceWith_leaves old new m).mono (fun _ _ hx => hx.imp_left And.right) fun _ _ hx => hx.1)
    obtain ⟨hon, hf⟩ := (hleft.resolve_left hne).resolve_left hne
    change ¬ OutputLast (Module.replaceWith old new m).state
    have hne' : (Module.replaceWith old new m).state ≠ m := hne
    revert hf hne'
    generalize (Module.replaceWith old new m).state = m'
    intro hf hne'
    cases hf with
    | replaced hlast _ =>
      exact absurd (Option.some.inj (hlast.symm.trans (outputLast_iff.1 h new hout))) hon
    | @redirected rs n hn hold hop hlast hrs =>
      cases rs with
      | nil => exact absurd rfl hne'
      | cons r rest =>
        refine hread (.redirect hon hn hold hop hlast hrs)
          (listsOutputs_redirect hl hon hn hrs new ▸ hout) (j := r.user) ?_
        have huser : r.user ∈ ((r :: rest).map Redirected.user) := by simp
        rw [inputsOf_eq_core, core?_redirect hl hon hn hrs, ← inputsOf_eq_core,
          inputsOf_redirectEdges hl hrs, if_pos huser]
        exact List.mem_map.2 ⟨old, (hl.mem_users old _).1 (hrs.mem_users.1 huser).1, if_pos rfl⟩
  | _ => cases hr

/-- No edit of a sequence moves an instruction, and none that is carried out makes one use the
listing of outputs. -/
def AllSpare (m : Module) : List Mutation → Prop
  | [] => True
  | e :: rest => e.moves = false ∧ (e.readsListing m → e.apply m = m) ∧ AllSpare (e.apply m) rest

/-- One edit that moves nothing keeps the listing last exactly if it makes nothing use it. -/
theorem outputLast_apply_iff (hl : Linked m) (ho : Ordered m) (h : OutputLast m)
    (hm : e.moves = false) : OutputLast (e.apply m) ↔ (e.readsListing m → e.apply m = m) := by
  constructor
  · intro hlast hr
    by_contra hne
    exact not_outputLast_apply hl ho h hr hne hlast
  · intro hspare
    cases hr : e.readsListing m with
    | false => exact outputLast_apply hl h hm hr
    | true => rwa [hspare hr]

theorem outputLast_applyAll_from {edits : List Mutation} (hl : Linked m) (ho : Ordered m)
    (h : OutputLast m) (hs : AllSpare m edits) :
    Linked (applyAll m edits) ∧ Ordered (applyAll m edits) ∧ OutputLast (applyAll m edits) := by
  induction edits generalizing m with
  | nil => exact ⟨hl, ho, h⟩
  | cons e rest ih =>
    obtain ⟨hm, hspare, hrest⟩ := hs
    have hlast := (outputLast_apply_iff hl ho h hm).2 hspare
    have hperm : e.permitted m := by
      cases e with
      | moveToEnd => cases hm
      | _ => rfl
    rcases e.apply_change hl hperm with he | hc
    · exact ih (he.symm ▸ hl) (he.symm ▸ ho) hlast hrest
    · exact ih (hc.linked hl) (hc.ordered hl ho) hlast hrest

end Mutation

/-- However a module is edited without moving instructions and without making one use the listing of
outputs, it has at most one such listing, which is last. It stays so under exactly those further
edits that make no instruction use the listing. -/
theorem listing_unique_last (name : String) (edits : List Mutation)
    (h : Mutation.AllSpare (Module.empty name) edits) :
    let m := Mutation.applyAll (Module.empty name) edits
    (∀ i j, m.listsOutputs i → m.listsOutputs j → i = j) ∧
      (∀ i, m.listsOutputs i → m.last? = some i) ∧
        ∀ e : Mutation, e.moves = false →
          ((∀ i, (e.apply m).listsOutputs i → (e.apply m).last? = some i) ↔
            (e.readsListing m → e.apply m = m)) := by
  intro m
  obtain ⟨hl, ho, hlast⟩ := Mutation.outputLast_applyAll_from (linked_empty name)
    (ordered_empty name) (outputLast_empty name) h
  refine ⟨fun i j hi hj => ?_, outputLast_iff.1 hlast, fun e he => ?_⟩
  · exact Option.some.inj ((outputLast_iff.1 hlast i hi).symm.trans (outputLast_iff.1 hlast j hj))
  · rw [← outputLast_iff]
    exact Mutation.outputLast_apply_iff hl ho hlast he

/-- A listing that is replaced while instructions are sunk before it, and edits that are refused. -/
theorem listing_unique_last_sinking :
    let s := Shape.packedOf .float [2]
    let edits : List Mutation :=
      [.addParameter "x" s, .add (.unary .neg) [⟨0⟩], .add (.unary .exp) [⟨0⟩], .addOutput [⟨1⟩],
        .replace ⟨1⟩ (.unary .neg) [⟨2⟩], .addOutput [⟨2⟩], .replaceOutput [⟨1⟩, ⟨2⟩]]
    Mutation.AllSpare (Module.empty "main") edits ∧
      let m := Mutation.applyAll (Module.empty "main") edits
      (∀ i j, m.listsOutputs i → m.listsOutputs j → i = j) ∧
        (∀ i, m.listsOutputs i → m.last? = some i) ∧
          ∀ e : Mutation, e.moves = false →
            ((∀ i, (e.apply m).listsOutputs i → (e.apply m).last? = some i) ↔
              (e.readsListing m → e.apply m = m)) := by
  intro s edits
  have h : Mutation.AllSpare (Module.empty "main") edits := by
    refine ⟨rfl, nofun, rfl, nofun, rfl, nofun, rfl, nofun, rfl, fun hr => ?_, rfl, nofun, rfl, nofun,
      trivial⟩
    exact absurd hr (by decide)
  exact ⟨h, listing_unique_last "main" edits h⟩

/-- An instruction that is replaced by one that uses the listing moves behind it, and the module
then takes a second listing. -/
theorem second_listing_after_replace :
    let edits : List Mutation :=
      [.addParameter "x" (.packedOf .float [2]), .add (.unary .neg) [⟨0⟩], .addOutput [⟨0⟩],
        .replace ⟨1⟩ (.unary .neg) [⟨2⟩], .addOutput [⟨0⟩]]
    let m := Mutation.applyAll (Module.empty "main") edits
    m.listsOutputs ⟨2⟩ ∧ m.listsOutputs ⟨3⟩ ∧ m.order = [⟨0⟩, ⟨2⟩, ⟨1⟩, ⟨3⟩] := by
  unfold Mutation.applyAll Mutation.apply replace checkReplace dependsOn rewire sinkAfter
  simp only [Reach.visit_eq_visitUpTo 8]
  decide +kernel

end TensorGraph.Module
