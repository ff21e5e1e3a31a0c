import TensorGraph.Proofs.Module.Accepted

/-! Replacing in place changes one instruction and the users of its inputs. It moves nothing where
the new inputs stand earlier, and otherwise the instruction and what depends on it. -/
namespace TensorGraph.Module
open Relation
variable {m m' : Module} {i j x old anchor : InstructionId} {n : Instruction} {op : Operator}
  {inputs front back : List InstructionId}

private theorem Linked.filter_usersOf (hl : Linked m) (hj : j ∉ m.inputsOf old) :
    (m.usersOf j).filter (· ≠ old) = m.usersOf j := by
  refine List.filter_eq_self.2 fun u hu => decide_eq_true fun he => hj ?_
  exact (hl.mem_users j old).1 (he ▸ hu)

private theorem usersOf_unlink_inputs (hl : Linked m) (old j : InstructionId) :
    (m.unlink old (m.inputsOf old)).usersOf j = (m.usersOf j).filter (· ≠ old) := by
  by_cases hj : j ∈ m.inputsOf old
  · rw [usersOf, usersOf, get?_unlink, if_pos hj]
    cases m.get? j <;> rfl
  · rw [hl.filter_usersOf hj, usersOf, get?_unlink, if_neg hj, usersOf]

private theorem usersOf_link {is : List InstructionId} {u : InstructionId}
    (hi : ∀ i ∈ is, (m.get? i).isSome) (hu : u ∉ m.usersOf j) :
    (m.link u is).usersOf j = m.usersOf j ++ if j ∈ is then [u] else [] := by
  by_cases hj : j ∈ is
  · obtain ⟨k, hk⟩ := Option.isSome_iff_exists.1 (hi j hj)
    rw [usersOf_of_get? hk] at hu ⊢
    simp [usersOf, get?_link, hj, hk, Instruction.addUser, hu]
  · simp [usersOf, get?_link, hj]

/-- Replaced in place, an instruction is listed last among the users of its new inputs, and nowhere
else. -/
theorem usersOf_relink_of_linked (hl : Linked m) (hi : ∀ i ∈ n.inputs, (m.get? i).isSome)
    (j : InstructionId) :
    (m.relink old n).usersOf j =
      (m.usersOf j).filter (· ≠ old) ++ if j ∈ n.inputs then [old] else [] := by
  rw [usersOf_relink, usersOf_link, usersOf_unlink_inputs hl]
  · intro i h
    rw [isSome_get?_unlink]
    exact hi i h
  · simp [usersOf_unlink_inputs hl]

/-- What moves with an instruction are those before the anchor that depend on it. Its own inputs
may have changed: no path to it leads through them. -/
theorem mem_sinking_relink (hl : Linked m) (ho : Ordered m) (hold : (m.get? old).isSome)
    (hi : ∀ i ∈ n.inputs, (m.get? i).isSome) (hs : m.order = front ++ anchor :: back)
    (hfront : old ∈ front) :
    x ∈ (m.relink old n).sinking anchor [old] ↔ x ∈ front ∧ m.Depends x old := by
  have hl' := linked_relink hl hold hi
  have hs' : (m.relink old n).order = front ++ anchor :: back :=
    (sameFrame_relink m old n).order.trans hs
  have hkept : ∀ a, a ≠ old → (m.relink old n).inputsOf a = m.inputsOf a := fun a ha => by
    rw [inputsOf_relink hold, if_neg ha]
  constructor
  · intro hx
    obtain ⟨hx, r, hr, hd⟩ := sinking_subset hl' hs' hx
    obtain ⟨r, hr, hd⟩ := exists_depends_of_inputs_eq (s := [old])
      (fun a ha => hkept a (by simpa using ha)) hr hd
    exact ⟨hx, List.mem_singleton.1 hr ▸ hd⟩
  · rintro ⟨hx, hd⟩
    have hroot := root_mem_sinking hl' hs' (List.mem_singleton_self old) hfront
    induction hd using ReflTransGen.head_induction_on with
    | refl => exact hroot
    | @head a b hab hd ih =>
      by_cases ha : a = old
      · exact ha ▸ hroot
      have hlt := Nat.lt_trans (ho.idxOf_lt hl hab) ((idxOf_lt_of_split hs hl.nodup).2 hx)
      have hb := ih ((idxOf_lt_of_split hs hl.nodup).1 hlt)
      exact user_mem_sinking hl' hs' hb hx (hkept a ha ▸ hab)

/-- An instruction that is replaced by one with a later input moves behind the latest of them, with
everything before it that depends on the instruction. -/
theorem order_rewire_of_later (hl : Linked m) (ho : Ordered m) (hold : (m.get? old).isSome)
    (hi : ∀ i ∈ n.inputs, (m.get? i).isSome) (ha : anchor ∈ n.inputs)
    (hmax : ∀ i ∈ n.inputs, m.order.idxOf i ≤ m.order.idxOf anchor)
    (hlt : m.order.idxOf old < m.order.idxOf anchor) (hs : m.order = front ++ anchor :: back) :
    (m.rewire old n).order = front.filter (!m.dependsOn · old) ++
      anchor :: (front.filter (m.dependsOn · old) ++ back) := by
  have horder := (sameFrame_relink m old n).order
  have hmem : ∀ i ∈ n.inputs, i ∈ (m.relink old n).order := fun i h =>
    (mem_order_relink hl).2 (hi i h)
  obtain ⟨a, ha', he, hmax'⟩ := latest?_spec hmem (List.ne_nil_of_mem ha)
  have haa : anchor = a := by
    refine (List.idxOf_inj (horder ▸ hmem anchor ha)).1 (Nat.le_antisymm ?_ (hmax a ha'))
    simpa [horder] using hmax' anchor ha
  subst haa
  have hafter : (m.relink old n).standsAfter anchor old := by
    rw [standsAfter_iff (hmem anchor ha) ((mem_order_relink hl).2 hold), horder]
    exact hlt
  have hfront := (idxOf_lt_of_split hs hl.nodup).1 hlt
  have hsinking : ∀ x ∈ front, x ∈ (m.relink old n).sinking anchor [old] ↔ m.dependsOn x old := by
    intro x hx
    rw [mem_sinking_relink hl ho hold hi hs hfront, dependsOn_iff, and_iff_right hx]
  have hkept : front.filter (· ∉ (m.relink old n).sinking anchor [old]) =
      front.filter (!m.dependsOn · old) := List.filter_congr fun x hx => by simp [hsinking x hx]
  have hmoved : front.filter (· ∈ (m.relink old n).sinking anchor [old]) =
      front.filter (m.dependsOn · old) := List.filter_congr fun x hx => by simp [hsinking x hx]
  simp only [rewire_eq, he, if_pos hafter]
  rw [sinkAfter_eq (linked_relink hl hold hi) (horder.trans hs)]
  dsimp only
  rw [hkept, hmoved]

/-- The order when an instruction gets other inputs: the same if they all stand earlier. Otherwise
the instruction and what depends on it go from before the latest input to just behind it. -/
def MovesTo (m : Module) (old : InstructionId) (inputs order : List InstructionId) : Prop :=
  (∀ i ∈ inputs, m.order.idxOf i < m.order.idxOf old) ∧ order = m.order ∨
    ∃ anchor ∈ inputs, (∀ i ∈ inputs, m.order.idxOf i ≤ m.order.idxOf anchor) ∧
      m.order.idxOf old < m.order.idxOf anchor ∧
      ∃ front back, m.order = front ++ anchor :: back ∧
        order = front.filter (!m.dependsOn · old) ++
          anchor :: (front.filter (m.dependsOn · old) ++ back)

/-- What replacing an instruction in place does to a module: to the instruction, to the others, to
the users of each, and to the order. -/
structure Replaced (m : Module) (old : InstructionId) (op : Operator) (inputs : List InstructionId)
    (m' : Module) : Prop where
  instruction : ∃ n n', m.get? old = some n ∧ m'.get? old = some n' ∧ n'.op = op ∧
    n'.inputs = inputs ∧ m'.ShapeFits n' ∧
    n'.moduleArgs = (if op.usesModules then n.moduleArgs else []) ∧
    n'.moduleOutputs = if op.usesModules then n.moduleOutputs else []
  others : ∀ j, j ≠ old → m'.core? j = m.core? j
  users : ∀ j, m'.usersOf j = (m.usersOf j).filter (· ≠ old) ++ if j ∈ inputs then [old] else []
  untouched : ∀ j, j ∉ m.inputsOf old → j ∉ inputs → m'.usersOf j = m.usersOf j
  order : m.MovesTo old inputs m'.order

private theorem Replacement.usersOf_rewire {before after : Instruction}
    (h : Replacement m old op inputs before after) (hl : Linked m) (j : InstructionId) :
    (m.rewire old after).usersOf j =
      (m.usersOf j).filter (· ≠ old) ++ if j ∈ inputs then [old] else [] := by
  have hi : ∀ i ∈ after.inputs, (m.get? i).isSome := h.inputs_eq ▸ h.live
  obtain ⟨l, -, he⟩ := rewire_reorder hl h.old_live hi
  rw [he]
  change (m.relink old after).usersOf j = _
  rw [usersOf_relink_of_linked hl hi, h.inputs_eq]

/-- The shape is inferred from inputs whose own shapes stay. -/
theorem Replacement.shapeFits_rewire {before after : Instruction}
    (h : Replacement m old op inputs before after) (hl : Linked m) :
    (m.rewire old after).ShapeFits after := by
  have hshape : ∀ i ∈ inputs, (m.rewire old after).shapeOf i = m.shapeOf i := by
    intro i hi
    have hne : i ≠ old := fun he => h.acyclic i hi (he ▸ .refl)
    rw [shapeOf, h.core?_rewire hl, if_neg hne, shapeOf]
  rw [ShapeFits, h.inputs_eq, h.op_eq, List.map_congr_left hshape]
  exact h.shape

private theorem Replacement.movesTo_rewire {before after : Instruction}
    (h : Replacement m old op inputs before after) (hl : Linked m) (ho : Ordered m) :
    m.MovesTo old inputs (m.rewire old after).order := by
  have hi : ∀ i ∈ after.inputs, (m.get? i).isSome := h.inputs_eq ▸ h.live
  have hmem : ∀ i ∈ inputs, i ∈ m.order := fun i hi => (hl.mem_order i).2 (h.live i hi)
  by_cases hlt : ∀ i ∈ inputs, m.order.idxOf i < m.order.idxOf old
  · refine .inl ⟨hlt, ?_⟩
    rw [rewire_of_earlier hl h.old_live hi (h.inputs_eq ▸ hlt)]
    exact (sameFrame_relink _ _ _).order
  · simp only [not_forall, Nat.not_lt] at hlt
    obtain ⟨i, hin, hle⟩ := hlt
    obtain ⟨anchor, ha, -, hmax⟩ := latest?_spec hmem (List.ne_nil_of_mem hin)
    have hne : m.order.idxOf old ≠ m.order.idxOf anchor := by
      rw [ne_eq, List.idxOf_inj ((hl.mem_order old).2 h.old_live)]
      exact fun he => h.acyclic anchor ha (he ▸ .refl)
    have hlater : m.order.idxOf old < m.order.idxOf anchor :=
      Nat.lt_of_le_of_ne (hle.trans (hmax i hin)) hne
    obtain ⟨front, back, hs⟩ := List.append_of_mem (hmem anchor ha)
    refine .inr ⟨anchor, ha, hmax, hlater, front, back, hs, ?_⟩
    exact order_rewire_of_later hl ho h.old_live hi (h.inputs_eq ▸ ha) (h.inputs_eq ▸ hmax) hlater
      hs

theorem Replacement.replaced {before after : Instruction}
    (h : Replacement m old op inputs before after) (hl : Linked m) (ho : Ordered m) :
    Replaced m old op inputs (m.rewire old after) where
  instruction := by
    have hcore := h.core?_rewire hl old
    rw [if_pos rfl] at hcore
    obtain ⟨n', hn', hcore⟩ := exists_get?_of_core? hcore
    have hfits : (m.rewire old after).ShapeFits after.core := h.shapeFits_rewire hl
    rw [hcore] at hfits
    have hop : after.core.op = op := h.op_eq
    have hin : after.core.inputs = inputs := h.inputs_eq
    have hargs : after.core.moduleArgs = if op.usesModules then before.moduleArgs else [] := by
      rw [h.eq]
      rfl
    have houts : after.core.moduleOutputs =
        if op.usesModules then before.moduleOutputs else [] := by
      rw [h.eq]
      rfl
    rw [hcore] at hop hin hargs houts
    exact ⟨before, n', h.get, hn', hop, hin, hfits, hargs, houts⟩
  others j hj := by rw [h.core?_rewire hl, if_neg hj]
  users := h.usersOf_rewire hl
  untouched j hformer hnew := by
    rw [h.usersOf_rewire hl, if_neg hnew, List.append_nil, hl.filter_usersOf hformer]
  order := h.movesTo_rewire hl ho

/-- Where users mirror inputs and the order is topological, replacing an instruction in place
changes that instruction and lists it as a user of its new inputs instead of its former ones. It
moves nothing unless an input stands later: then the instruction and what depends on it move from
before the latest input to just behind it, and everything keeps its order otherwise. -/
theorem replace_footprint (hl : Linked m) (ho : Ordered m) {r : InstructionId}
    (h : (replace old op inputs m).result = .ok r) :
    Replaced m old op inputs (replace old op inputs m).state := by
  obtain ⟨-, before, after, hr, he⟩ := (replace_leaves old op inputs m).ok h
  rw [he]
  exact hr.replaced hl ho

/-- A chain, and beside it an instruction that stands later. -/
private def branched : Module :=
  Mutation.applyAll (Module.empty "main")
    [.addParameter "x" (.packedOf .float [2]), .add (.unary .neg) [⟨0⟩], .add (.unary .exp) [⟨0⟩],
      .add (.binary .mul) [⟨1⟩, ⟨0⟩], .add (.unary .tanh) [⟨2⟩], .add (.binary .add) [⟨3⟩, ⟨4⟩]]

/-- Both the negation and the product move behind the later input, which is used twice. -/
theorem replace_footprint_branched :
    Linked branched ∧ Ordered branched ∧
      (replace ⟨1⟩ (.binary .sub) [⟨4⟩, ⟨4⟩] branched).result = .ok ⟨1⟩ ∧
      Replaced branched ⟨1⟩ (.binary .sub) [⟨4⟩, ⟨4⟩]
        (replace ⟨1⟩ (.binary .sub) [⟨4⟩, ⟨4⟩] branched).state ∧
      (replace ⟨1⟩ (.binary .sub) [⟨4⟩, ⟨4⟩] branched).state.order =
        [⟨0⟩, ⟨2⟩, ⟨4⟩, ⟨1⟩, ⟨3⟩, ⟨5⟩] := by
  have hb : Built branched := (Built.empty "main").applyAll _
  have hv : branched.validate = .ok () := by decide +kernel
  have ho : Ordered branched := (hb.accepted hv).ordered
  have hok : (replace ⟨1⟩ (.binary .sub) [⟨4⟩, ⟨4⟩] branched).result = .ok ⟨1⟩ := by
    unfold replace checkReplace
    simp only [dependsOn_eq_getD 16]
    decide +kernel
  have h := replace_footprint hb.linked ho hok
  refine ⟨hb.linked, ho, hok, h, ?_⟩
  have hbefore : branched.order = [⟨0⟩, ⟨1⟩, ⟨2⟩, ⟨3⟩] ++ ⟨4⟩ :: [⟨5⟩] := by decide +kernel
  rcases h.order with ⟨hlt, -⟩ | ⟨anchor, ha, -, -, front, back, hs, horder⟩
  · exact absurd (hlt ⟨4⟩ (by simp)) (by decide +kernel)
  obtain rfl : anchor = ⟨4⟩ := by simpa using ha
  obtain ⟨rfl, -, rfl⟩ :=
    (List.append_cons_inj_of_notMem (by decide) (by decide)).1 (hbefore.symm.trans hs)
  rw [horder]
  simp only [dependsOn_eq_getD 16]
  decide +kernel

end TensorGraph.Module
