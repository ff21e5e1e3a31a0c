import TensorGraph.Proofs.Module.Built
import TensorGraph.Proofs.Pattern.Outcome

/-! What a match does to the bindings. Beside the matcher stands a relation that says how a list of
goals, patterns to be matched on instructions, is met in turn, and at which sites names were bound
on the way. A match that fails leaves the bindings alone; one that succeeds adds to them, and gives
each name the instruction of the outermost site that bound it. -/
namespace TensorGraph.Pattern
open TensorGraph.Module
variable {m : Module} {i : InstructionId} {b b' : Bindings} {p : Pattern} {ps : List Pattern}

/-- A place of a pattern at which a name was bound in the course of a match. -/
structure Site where
  name : String
  instruction : InstructionId
  /-- What was bound by the patterns that this one stands in, the outermost first. -/
  around : List (String × InstructionId) := []
deriving DecidableEq, Repr

namespace Site

/-- The site as part of a pattern that is bound itself. -/
def within (s : Site) (name : String) (i : InstructionId) : Site :=
  { s with around := (name, i) :: s.around }

/-- What the outermost site of the same name around this one matched. -/
def outermost (s : Site) : InstructionId :=
  (s.around.lookup s.name).getD s.instruction

private theorem outermost_within_self (s : Site) (i : InstructionId) :
    (s.within s.name i).outermost = i := by
  simp [within, outermost]

private theorem outermost_within_of_ne {s : Site} {name : String} (h : s.name ≠ name)
    (i : InstructionId) : (s.within name i).outermost = s.outermost := by
  simp [within, outermost, List.lookup_cons, beq_false_of_ne h]

private theorem outermost_eq_iff {s : Site} : s.outermost = s.instruction ↔
    ∀ i, s.around.lookup s.name = some i → i = s.instruction := by
  rw [outermost]
  cases s.around.lookup s.name <;> simp

end Site

/-- The goals are met in turn, and names are bound at these sites on the way. Alternatives that are
not taken and patterns that must not match have no sites. -/
inductive Matched (m : Module) :
    List (Pattern × InstructionId) → Bindings → Bindings → List Site → Prop
  | done {b : Bindings} : Matched m [] b b []
  | leaf {p : Pattern} {i : InstructionId} {goals : List (Pattern × InstructionId)}
      {b b' : Bindings} {sites : List Site} (hp : p.isLeaf = true)
      (h : p.matches? m i b = .ok (true, b)) (hgoals : Matched m goals b b' sites) :
      Matched m ((p, i) :: goals) b b' sites
  | arg {k : Nat} {p : Pattern} {i input : InstructionId} {n : Instruction}
      {goals : List (Pattern × InstructionId)} {b b' : Bindings} {sites : List Site}
      (hn : m.get? i = some n) (hk : n.inputs[k]? = some input)
      (h : Matched m ((p, input) :: goals) b b' sites) :
      Matched m ((.arg k p, i) :: goals) b b' sites
  | args {ps : List Pattern} {i : InstructionId} {n : Instruction}
      {goals : List (Pattern × InstructionId)} {b b' : Bindings} {sites : List Site}
      (hn : m.get? i = some n) (hlen : n.inputs.length = ps.length)
      (h : Matched m (ps.zip n.inputs ++ goals) b b' sites) :
      Matched m ((.args ps, i) :: goals) b b' sites
  | anyOf {failed rest : List Pattern} {p : Pattern} {i : InstructionId}
      {goals : List (Pattern × InstructionId)} {b b' : Bindings} {sites : List Site}
      (hfailed : ∀ q ∈ failed, q.matches? m i b = .ok (false, b))
      (h : Matched m ((p, i) :: goals) b b' sites) :
      Matched m ((.anyOf (failed ++ p :: rest), i) :: goals) b b' sites
  | allOf {ps : List Pattern} {i : InstructionId} {goals : List (Pattern × InstructionId)}
      {b b' : Bindings} {sites : List Site} (hi : (m.get? i).isSome)
      (h : Matched m ((ps.map fun p => (p, i)) ++ goals) b b' sites) :
      Matched m ((.allOf ps, i) :: goals) b b' sites
  | noneOf {ps : List Pattern} {i : InstructionId} {goals : List (Pattern × InstructionId)}
      {b b' : Bindings} {sites : List Site} (hi : (m.get? i).isSome)
      (hnone : ∀ q ∈ ps, q.matches? m i b = .ok (false, b)) (h : Matched m goals b b' sites) :
      Matched m ((.noneOf ps, i) :: goals) b b' sites
  | skipBroadcasts {p : Pattern} {i j : InstructionId} {goals : List (Pattern × InstructionId)}
      {b b' : Bindings} {sites : List Site}
      (hj : underBroadcasts m (m.instructions.size + 1) i = .ok j)
      (h : Matched m ((p, j) :: goals) b b' sites) :
      Matched m ((.skipBroadcasts p, i) :: goals) b b' sites
  | bind {p : Pattern} {name : String} {i : InstructionId}
      {goals : List (Pattern × InstructionId)} {b after b' : Bindings} {inner sites : List Site}
      (hfree : ∀ j, b.lookup name = some j → j = i) (hp : Matched m [(p, i)] b after inner)
      (h : Matched m goals (after.bind name i) b' sites) :
      Matched m ((.bind p name, i) :: goals) b b'
        ((inner.map fun s => s.within name i) ++ { name, instruction := i } :: sites)

variable {goals rest : List (Pattern × InstructionId)} {sites : List Site}

/-- The relation holds of runs of the matcher only. -/
theorem Matched.inTurn (h : Matched m goals b b' sites) : InTurn m goals b b' := by
  induction h with
  | done => rfl
  | leaf _ hp _ ih => exact ⟨_, hp, ih⟩
  | arg hn hk _ ih =>
    obtain ⟨after, hp, hgoals⟩ := ih
    exact ⟨after, matches?_arg_eq_true.2 ⟨_, _, hn, hk, hp⟩, hgoals⟩
  | args hn hlen _ ih =>
    obtain ⟨after, hps, hgoals⟩ := inTurn_append.1 ih
    exact ⟨after, matches?_args_eq_true.2 ⟨_, hn, hlen, hps⟩, hgoals⟩
  | anyOf hfailed _ ih =>
    obtain ⟨after, hp, hgoals⟩ := ih
    exact ⟨after, matches?_anyOf_eq_true.2 ⟨_, _, _, rfl, hfailed, hp⟩, hgoals⟩
  | allOf hi _ ih =>
    obtain ⟨after, hps, hgoals⟩ := inTurn_append.1 ih
    exact ⟨after, matches?_allOf_eq_true.2 ⟨hi, hps⟩, hgoals⟩
  | noneOf hi hnone _ ih => exact ⟨_, matches?_noneOf_eq_true.2 ⟨hi, rfl, hnone⟩, ih⟩
  | skipBroadcasts hj _ ih =>
    obtain ⟨after, hp, hgoals⟩ := ih
    exact ⟨after, matches?_skipBroadcasts_eq_true.2 ⟨_, hj, hp⟩, hgoals⟩
  | bind hfree _ _ ihp ih =>
    exact ⟨_, matches?_bind_eq_true.2 ⟨hfree, _, inTurn_singleton.1 ihp, rfl⟩, ih⟩

/-- A match of the pattern can be put in front of what the goals after it do. -/
def Traced (m : Module) (p : Pattern) : Prop :=
  ∀ i b after, p.matches? m i b = .ok (true, after) → ∀ goals b' sites,
    Matched m goals after b' sites → ∃ sites', Matched m ((p, i) :: goals) b b' sites'

private theorem exists_matched_append {after : Bindings} (hgoals : ∀ goal ∈ goals, Traced m goal.1)
    (h : InTurn m goals b after) (hrest : Matched m rest after b' sites) :
    ∃ sites', Matched m (goals ++ rest) b b' sites' := by
  induction goals generalizing b with
  | nil =>
    cases h
    exact ⟨sites, hrest⟩
  | cons goal goals ih =>
    obtain ⟨hgoal, hgoals⟩ := List.forall_mem_cons.1 hgoals
    obtain ⟨a, ha, h⟩ := h
    obtain ⟨sites', hs⟩ := ih hgoals h
    exact hgoal goal.2 b a ha _ _ _ hs

private theorem traced (m : Module) (p : Pattern) : Traced m p := by
  induction p using induction_on_members with
  | leaf p hp =>
    intro i b after h goals b' sites hgoals
    cases eq_of_leaf hp (matches?_eq_true.1 h).2
    exact ⟨sites, .leaf hp h hgoals⟩
  | arg k p ih =>
    intro i b after h goals b' sites hgoals
    obtain ⟨n, input, hn, hk, h⟩ := matches?_arg_eq_true.1 h
    obtain ⟨sites', hs⟩ := ih input b after h goals b' sites hgoals
    exact ⟨sites', .arg hn hk hs⟩
  | args ps ih =>
    intro i b after h goals b' sites hgoals
    obtain ⟨n, hn, hlen, h⟩ := matches?_args_eq_true.1 h
    obtain ⟨sites', hs⟩ :=
      exists_matched_append (fun goal hg => ih goal.1 (List.of_mem_zip hg).1) h hgoals
    exact ⟨sites', .args hn hlen hs⟩
  | anyOf ps ih =>
    intro i b after h goals b' sites hgoals
    obtain ⟨failed, p, rest, rfl, hfailed, h⟩ := matches?_anyOf_eq_true.1 h
    obtain ⟨sites', hs⟩ := ih p (by simp) i b after h goals b' sites hgoals
    exact ⟨sites', .anyOf hfailed hs⟩
  | allOf ps ih =>
    intro i b after h goals b' sites hgoals
    obtain ⟨hi, h⟩ := matches?_allOf_eq_true.1 h
    have hps : ∀ goal ∈ ps.map fun p => (p, i), Traced m goal.1 := by
      simpa using ih
    obtain ⟨sites', hs⟩ := exists_matched_append hps h hgoals
    exact ⟨sites', .allOf hi hs⟩
  | noneOf ps _ =>
    intro i b after h goals b' sites hgoals
    obtain ⟨hi, rfl, hnone⟩ := matches?_noneOf_eq_true.1 h
    exact ⟨sites, .noneOf hi hnone hgoals⟩
  | skipBroadcasts p ih =>
    intro i b after h goals b' sites hgoals
    obtain ⟨j, hj, h⟩ := matches?_skipBroadcasts_eq_true.1 h
    obtain ⟨sites', hs⟩ := ih j b after h goals b' sites hgoals
    exact ⟨sites', .skipBroadcasts hj hs⟩
  | bind p name ih =>
    intro i b after h goals b' sites hgoals
    obtain ⟨hfree, found, hmatch, rfl⟩ := matches?_bind_eq_true.1 h
    obtain ⟨inner, hp⟩ := ih i b found hmatch [] found [] .done
    exact ⟨_, .bind hfree hp hgoals⟩

/-- A pattern matches if and only if the relation holds for some sites. -/
theorem matches?_eq_true_iff_matched :
    p.matches? m i b = .ok (true, b') ↔ ∃ sites, Matched m [(p, i)] b b' sites := by
  constructor
  · intro h
    exact traced m p i b b' h [] b' [] .done
  · rintro ⟨sites, h⟩
    exact inTurn_singleton.1 h.inTurn

/-- Names keep what they stand for from goal to goal. -/
theorem Matched.grows (h : Matched m goals b b' sites) : b.Grows b' := by
  induction h with
  | done => exact .refl _
  | leaf _ _ _ ih | arg _ _ _ ih | args _ _ _ ih | anyOf _ _ ih | allOf _ _ ih | noneOf _ _ _ ih
  | skipBroadcasts _ _ ih => exact ih
  | bind hfree _ _ ihp ih => exact (ihp.bind hfree).trans ih

/-- A name stands for what its outermost site matched: binding comes after the match inside, and
takes the place of what was bound there. -/
theorem Matched.lookup_outermost (h : Matched m goals b b' sites) :
    ∀ s ∈ sites, b'.lookup s.name = some s.outermost := by
  induction h with
  | done => simp
  | leaf _ _ _ ih | arg _ _ _ ih | args _ _ _ ih | anyOf _ _ ih | allOf _ _ ih | noneOf _ _ _ ih
  | skipBroadcasts _ _ ih => exact ih
  | @bind p name i goals b after b' inner sites _ _ h ihp ih =>
    have hinner : ∀ s ∈ inner,
        (after.bind name i).lookup s.name = some (s.within name i).outermost := by
      intro s hs
      by_cases hname : s.name = name
      · subst hname
        rw [Bindings.lookup_bind, Site.outermost_within_self]
      · rw [Bindings.lookup_bind_of_ne hname, Site.outermost_within_of_ne hname, ihp s hs]
    intro s hs
    rcases List.mem_append.1 hs with hs | hs
    · obtain ⟨t, ht, rfl⟩ := List.mem_map.1 hs
      exact h.grows _ _ (hinner t ht)
    · rcases List.mem_cons.1 hs with rfl | hs
      · exact h.grows _ _ (Bindings.lookup_bind after name i)
      · exact ih s hs

mutual

/-- No pattern that is bound to a name stands in another one that is bound to the same name, and none
is bound to one of `names`. What must not match binds nothing. -/
def unnested : List String → Pattern → Bool
  | names, arg _ p | names, skipBroadcasts p => unnested names p
  | names, args ps | names, anyOf ps | names, allOf ps => unnestedAll names ps
  | names, bind p n => n ∉ names && unnested (n :: names) p
  | _, any | _, name _ | _, nameAny _ | _, hasValue _ | _, isConstant | _, usedOnce
  | _, standardShape | _, sameShapeAsInput _ | _, noneOf _ => true

def unnestedAll : List String → List Pattern → Bool
  | _, [] => true
  | names, p :: ps => unnested names p && unnestedAll names ps

end

private theorem unnestedAll_iff {names : List String} :
    unnestedAll names ps = true ↔ ∀ p ∈ ps, unnested names p = true := by
  induction ps with
  | nil => simp [unnestedAll]
  | cons p ps ih => rw [unnestedAll, Bool.and_eq_true, ih, List.forall_mem_cons]

/-- The names around a site are not its own, where names are not bound inside themselves. -/
theorem Matched.lookup_around (h : Matched m goals b b' sites) {names : List String}
    (hgoals : ∀ goal ∈ goals, unnested names goal.1 = true) :
    ∀ s ∈ sites, s.name ∉ names ∧ s.around.lookup s.name = none := by
  induction h generalizing names with
  | done => simp
  | leaf _ _ _ ih | noneOf _ _ _ ih => exact ih (List.forall_mem_cons.1 hgoals).2
  | arg _ _ _ ih | skipBroadcasts _ _ ih =>
    obtain ⟨hp, hgoals⟩ := List.forall_mem_cons.1 hgoals
    rw [unnested] at hp
    exact ih (List.forall_mem_cons.2 ⟨hp, hgoals⟩)
  | args _ _ _ ih =>
    obtain ⟨hps, hgoals⟩ := List.forall_mem_cons.1 hgoals
    rw [unnested, unnestedAll_iff] at hps
    refine ih fun goal hg => ?_
    rcases List.mem_append.1 hg with hg | hg
    · exact hps goal.1 (List.of_mem_zip hg).1
    · exact hgoals goal hg
  | anyOf _ _ ih =>
    obtain ⟨hps, hgoals⟩ := List.forall_mem_cons.1 hgoals
    rw [unnested, unnestedAll_iff] at hps
    exact ih (List.forall_mem_cons.2 ⟨hps _ (by simp), hgoals⟩)
  | allOf _ _ ih =>
    obtain ⟨hps, hgoals⟩ := List.forall_mem_cons.1 hgoals
    rw [unnested, unnestedAll_iff] at hps
    refine ih fun goal hg => ?_
    rcases List.mem_append.1 hg with hg | hg
    · obtain ⟨p, hp, rfl⟩ := List.mem_map.1 hg
      exact hps p hp
    · exact hgoals goal hg
  | @bind p name i goals b after b' inner sites _ _ _ ihp ih =>
    obtain ⟨hp, hgoals⟩ := List.forall_mem_cons.1 hgoals
    rw [unnested, Bool.and_eq_true, decide_eq_true_iff] at hp
    intro s hs
    rcases List.mem_append.1 hs with hs | hs
    · obtain ⟨t, ht, rfl⟩ := List.mem_map.1 hs
      obtain ⟨hfresh, hnone⟩ := ihp (List.forall_mem_singleton.2 hp.2) t ht
      obtain ⟨hne, hfresh⟩ := not_or.1 (mt List.mem_cons.2 hfresh)
      refine ⟨hfresh, ?_⟩
      change List.lookup t.name ((name, i) :: t.around) = none
      rw [List.lookup_cons, beq_false_of_ne hne]
      exact hnone
    · rcases List.mem_cons.1 hs with rfl | hs
      · exact ⟨hp.1, rfl⟩
      · exact ih hgoals s hs

/-- In a module whose edges and order agree, going through views ends, and a match ends with an answer
unless a constant or a layout cannot be computed. A match that fails leaves the bindings as they were,
and one that succeeds keeps every one of them. -/
theorem bindings_after_match (hl : Linked m) (ho : Ordered m) (p : Pattern) (i : InstructionId)
    (b : Bindings) :
    (∀ j, (m.get? j).isSome → ∃ k n, underBroadcasts m (m.instructions.size + 1) j = .ok k ∧
      m.get? k = some n ∧ ∀ input, n.op.isBroadcast = true → n.inputs ≠ [input]) ∧
    ((∃ c b', p.matches? m i b = .ok (c, b') ∧ (c = false → b' = b) ∧ (c = true → b.Grows b')) ∨
      ∃ f, p.matches? m i b = .error f ∧ BreaksOn m i f) := by
  refine ⟨fun j hj => underBroadcasts_ends hl ho hj (idxOf_lt_size hl hj), ?_⟩
  cases h : p.matches? m i b with
  | error f => exact .inr ⟨f, rfl, breaksOn_of_matches? hl h⟩
  | ok r =>
    obtain ⟨c, b'⟩ := r
    refine .inl ⟨c, b', rfl, ?_, ?_⟩
    · rintro rfl
      exact eq_of_matches?_false h
    · rintro rfl
      obtain ⟨sites, hs⟩ := matches?_eq_true_iff_matched.1 h
      exact hs.grows

/-- A parameter that is multiplied by itself. -/
def square : Module :=
  Mutation.applyAll (Module.empty "main")
    [.addParameter "x" (.packedOf .float [2]), .add (.binary .mul) [⟨0⟩, ⟨0⟩]]

/-- The first alternative binds a name before it fails; the second one finds the bindings as they
were. -/
theorem bindings_after_match_square :
    Linked square ∧ Ordered square ∧
      (((any.bind "y").and (name "add")).or (any.bind "z")).matches? square ⟨1⟩ [("x", ⟨0⟩)] =
        .ok (true, [("z", ⟨1⟩), ("x", ⟨0⟩)]) ∧
      Bindings.Grows [("x", ⟨0⟩)] [("z", ⟨1⟩), ("x", ⟨0⟩)] := by
  have hl : Linked square := (Built.applyAll (.empty "main") _).linked
  have ho : Ordered square := ((validate_eq_ok hl).1 (by decide +kernel)).1
  have hmatch : (((any.bind "y").and (name "add")).or (any.bind "z")).matches? square ⟨1⟩
      [("x", ⟨0⟩)] = .ok (true, [("z", ⟨1⟩), ("x", ⟨0⟩)]) := by decide +kernel
  refine ⟨hl, ho, hmatch, ?_⟩
  rcases (bindings_after_match hl ho _ _ _).2 with ⟨c, b', h, -, hgrows⟩ | ⟨f, h, -⟩
  · cases hmatch.symm.trans h
    exact hgrows rfl
  · cases hmatch.symm.trans h

/-- For every match that succeeds, and all sites that took part in it, a name stands for what the
outermost of its sites around the site matched. So all sites of a name matched what it stands for if
and only if none stands in another one that matched something else; in particular where no name is
bound inside itself. -/
theorem sites_denote_outermost (h : p.matches? m i b = .ok (true, b')) :
    (∃ sites, Matched m [(p, i)] b b' sites) ∧ ∀ sites, Matched m [(p, i)] b b' sites →
      (∀ s ∈ sites, b'.lookup s.name = some s.outermost) ∧
      ((∀ s ∈ sites, b'.lookup s.name = some s.instruction) ↔
        ∀ s ∈ sites, ∀ j, s.around.lookup s.name = some j → j = s.instruction) ∧
      (unnested [] p = true → ∀ s ∈ sites, b'.lookup s.name = some s.instruction) := by
  refine ⟨matches?_eq_true_iff_matched.1 h, fun sites hs => ?_⟩
  have houter := hs.lookup_outermost
  have hiff : (∀ s ∈ sites, b'.lookup s.name = some s.instruction) ↔
      ∀ s ∈ sites, ∀ j, s.around.lookup s.name = some j → j = s.instruction := by
    refine forall₂_congr fun s hmem => ?_
    rw [houter s hmem, Option.some_inj, Site.outermost_eq_iff]
  refine ⟨houter, hiff, fun hp => hiff.2 fun s hmem j hj => ?_⟩
  have hnone := (hs.lookup_around (List.forall_mem_singleton.2 hp) s hmem).2
  cases hnone.symm.trans hj

/-- Both factors of a square are bound to one name. -/
theorem sites_denote_outermost_square :
    let p := args [any.bind "v", any.bind "v"]
    p.matches? square ⟨1⟩ [] = .ok (true, [("v", ⟨0⟩)]) ∧
      Matched square [(p, ⟨1⟩)] [] [("v", ⟨0⟩)]
        [{ name := "v", instruction := ⟨0⟩ }, { name := "v", instruction := ⟨0⟩ }] ∧
      ∀ sites, Matched square [(p, ⟨1⟩)] [] [("v", ⟨0⟩)] sites →
        ∀ s ∈ sites, s.name = "v" → s.instruction = ⟨0⟩ := by
  intro p
  have hmatch : p.matches? square ⟨1⟩ [] = .ok (true, [("v", ⟨0⟩)]) := by decide +kernel
  refine ⟨hmatch, ?_, fun sites hs s hmem hv => ?_⟩
  · refine .args rfl rfl (.bind (by simp) (.leaf rfl (by decide +kernel) .done) ?_)
    exact .bind (by simp [Bindings.bind]) (.leaf rfl (by decide +kernel) .done) .done
  · have hlookup := ((sites_denote_outermost hmatch).2 sites hs).2.2 (by decide) s hmem
    rw [hv] at hlookup
    exact (Option.some.inj hlookup).symm

/-- A name that is bound inside itself matches two instructions: the outer site takes the place of the
inner one. -/
theorem nested_sites_disagree :
    let p := (arg 0 (any.bind "a")).bind "a"
    p.matches? square ⟨1⟩ [] = .ok (true, [("a", ⟨1⟩)]) ∧
      Matched square [(p, ⟨1⟩)] [] [("a", ⟨1⟩)]
        [{ name := "a", instruction := ⟨0⟩, around := [("a", ⟨1⟩)] },
          { name := "a", instruction := ⟨1⟩ }] := by
  intro p
  have hinner : Matched square [(any.bind "a", ⟨0⟩)] [] [("a", ⟨0⟩)]
      [{ name := "a", instruction := ⟨0⟩ }] :=
    .bind (by simp) (.leaf rfl (by decide +kernel) .done) .done
  exact ⟨by decide +kernel, .bind (by simp) (.arg rfl rfl hinner) .done⟩

end TensorGraph.Pattern
