import Mathlib.Logic.Relation
import TensorGraph.Pass.Identity
import TensorGraph.Proofs.Module.Accepted

/-! One sweep makes every instruction use what stands at the beginning of its chains of identities. An
identity that has been visited is not used any more, and what an identity copies comes before it, so
the input of an identity is settled when its turn comes. -/
namespace TensorGraph.Pass
open TensorGraph.Action TensorGraph.Module Relation
variable {m m₀ m' : Module} {i j old new : InstructionId} {n n' : Instruction}

namespace Identity

/-- The instruction copies another one. -/
def Copies (m : Module) (i j : InstructionId) : Prop :=
  ∃ n, m.core? i = some n ∧ n.op = .identity ∧ n.inputs = [j]

/-- Identities are not used. -/
def Collapsed (m : Module) : Prop :=
  ∀ i n j k, m.get? i = some n → j ∈ n.inputs → m.get? j = some k → k.op ≠ .identity

/-- An identity that passes its check copies an earlier instruction of the same shape. -/
theorem copies_of_accepted (h : Accepted m) (hn : m.get? i = some n) (hop : n.op = .identity) :
    ∃ j k, n.inputs = [j] ∧ m.get? j = some k ∧ k.shape = n.shape ∧
      m.order.idxOf j < m.order.idxOf i := by
  have hbuiltin : n.op.isBuiltin = false := by rw [hop]; rfl
  have hfits : n.op.inferShape (n.inputs.map m.shapeOf) n.moduleOutputs = .ok n.shape :=
    h.fits_of_not_builtin (n := n.core) (core?_of_get? hn) hbuiltin
  rw [hop, Operator.inferShape_eq_ok, Operator.rawShape_identity, List.map_eq_singleton_iff] at hfits
  obtain ⟨⟨j, hin, hs⟩, -⟩ := hfits
  obtain ⟨k, hk, hlt⟩ := h.input_lt hn (j := j) (by simp [hin])
  exact ⟨j, k, hin, hk, (shapeOf_of_get? hk).symm.trans hs, hlt⟩

/-- The identities that have been visited are not used. Instructions differ from what they were at
most in their inputs, which may have moved along chains of identities. -/
structure Collapsing (m₀ : Module) (done : List InstructionId) (m : Module) : Prop where
  accepted : Accepted m
  order : m.order = m₀.order
  core : ∀ i n', m.core? i = some n' → ∃ n, m₀.core? i = some n ∧ n' = { n with inputs := n'.inputs }
  inputs : ∀ user, List.Forall₂ (ReflTransGen (Copies m₀)) (m₀.inputsOf user) (m.inputsOf user)
  unused : ∀ i ∈ done, (∃ j, Copies m₀ i j) → ∀ user, i ∉ m.inputsOf user

variable {done : List InstructionId}

private theorem collapsing_start (h : Accepted m) : Collapsing m [] m where
  accepted := h
  order := rfl
  core _ n' hn' := ⟨n', hn', rfl⟩
  inputs _ := List.forall₂_same.2 fun _ _ => .refl
  unused := by simp

/-- What is not an identity, or is not used, can be passed by. -/
theorem Collapsing.pass (h : Collapsing m₀ done m)
    (hi : (∃ j, Copies m₀ i j) → ∀ user, i ∉ m.inputsOf user) : Collapsing m₀ (done ++ [i]) m := by
  refine ⟨h.accepted, h.order, h.core, h.inputs, fun k hk => ?_⟩
  rcases List.mem_append.1 hk with hk | hk
  · exact h.unused k hk
  · cases List.mem_singleton.1 hk
    exact hi

theorem Collapsing.exists_core? (h : Collapsing m₀ done m) (hn : m.get? i = some n) :
    ∃ n₀, m₀.core? i = some n₀ ∧ n₀.op = n.op := by
  obtain ⟨n₀, hn₀, hcore⟩ := h.core i n.core (core?_of_get? hn)
  have hop := congrArg Instruction.op hcore
  exact ⟨n₀, hn₀, hop.symm⟩

/-- An identity still copies what its chain leads to. -/
theorem Collapsing.chain (h : Collapsing m₀ done m) (hn : m.get? i = some n) (hop : n.op = .identity)
    (hin : n.inputs = [j]) : ReflTransGen (Copies m₀) i j := by
  obtain ⟨n₀, hn₀, hsame⟩ := h.exists_core? hn
  have hinputs := h.inputs i
  rw [inputsOf_of_get? hn, hin, inputsOf_of_core? hn₀] at hinputs
  obtain ⟨j₀, _, hpath, hnil, hin₀⟩ := List.forall₂_cons_right_iff.1 hinputs
  cases hnil
  exact .head ⟨n₀, hn₀, hsame.trans hop, hin₀⟩ hpath

/-- The users of an identity can be made to use what it copies. What it copies is none of the identities
that have been visited, so none of them is used again. -/
theorem Collapsing.skip (h : Collapsing m₀ done m) (hn : m.get? i = some n) (hop : n.op = .identity)
    (hlast : m.last? ≠ some i) (hin : n.inputs = [j]) :
    (replaceWith i j).Leaves m (fun _ => Collapsing m₀ (done ++ [i])) fun _ _ => False := by
  obtain ⟨j', k, hin', hk, hs, hlt⟩ := copies_of_accepted h.accepted hn hop
  cases List.singleton_inj.1 (hin.symm.trans hin')
  have hne : i ≠ j := fun he => Nat.lt_irrefl _ (he ▸ hlt)
  have hshape : m.shapeOf i = m.shapeOf j := by rw [shapeOf_of_get? hn, shapeOf_of_get? hk, hs]
  have hout : n.op.isOutput = false := hop ▸ rfl
  refine (h.accepted.replaceWith_forwards hn hout hk hs hlt fun he => absurd he hlast).imp ?_
  intro _ m' hf
  have hinputs := hf.inputsOf_eq h.accepted.linked h.accepted.ordered hlast hlt
  have hstanding := hf.standing h.accepted hlt hshape
  refine ⟨(hf.upholds h.accepted hlt hshape).accepted, hstanding.order.trans h.order,
    fun x a' ha' => ?_, fun user => ?_, fun x hx hcopies user hmem => ?_⟩
  · rcases hf.core?_cases hne h.accepted.linked ha' with hsame | ⟨a, ha, he, -⟩ | ⟨-, he, -⟩
    · exact h.core x a' hsame
    · obtain ⟨a₀, ha₀, hcore⟩ := h.core x a ha
      refine ⟨a₀, ha₀, ?_⟩
      rw [he, hstanding.shape x a a' ha ha', hcore]
    · exact absurd he hlast
  · rw [hinputs, List.forall₂_map_right_iff]
    refine (h.inputs user).imp fun a b hab => ?_
    split
    · rename_i hb
      exact hab.trans (hb ▸ h.chain hn hop hin)
    · exact hab
  · rw [hinputs] at hmem
    obtain ⟨y, hy, hxy⟩ := List.mem_map.1 hmem
    rcases List.mem_append.1 hx with hx | hx
    · split at hxy
      · subst hxy
        exact h.unused j hx hcopies i (by simp [inputsOf_of_get? hn, hin])
      · exact h.unused x hx hcopies user (hxy ▸ hy)
    · cases List.mem_singleton.1 hx
      split at hxy
      · exact hne hxy.symm
      · exact absurd hxy ‹_›

theorem Collapsing.visit (h : Collapsing m₀ done m) (hi : i ∈ m₀.order) :
    (forward m₀.last? i).Leaves m (fun _ => Collapsing m₀ (done ++ [i])) fun _ _ => False := by
  have hl := h.accepted.linked
  obtain ⟨n, hn⟩ := Option.isSome_iff_exists.1 ((hl.mem_order i).1 (h.order ▸ hi))
  have hlast : m₀.last? = m.last? := congrArg List.getLast? h.order.symm
  rw [forward, leaves_bind, leaves_get, leaves_liftFault_bind (get_eq_ok_iff.2 hn), hlast]
  split
  · rename_i input hop hin
    split
    · rename_i hskip
      refine h.pass fun _ user huser => ?_
      have hmem : user ∈ m.usersOf i := (hl.mem_users i user).2 huser
      rw [Bool.or_eq_true, decide_eq_true_eq, List.isEmpty_iff] at hskip
      rcases hskip with hi | husers
      · exact h.accepted.last?_ne_of_user hmem hi.symm
      · rw [usersOf_of_get? hn, husers] at hmem
        cases hmem
    · rename_i hskip
      have hother : m.last? ≠ some i := fun he => hskip (by simp [he])
      rw [leaves_bind]
      exact h.skip hn hop hother hin
  · rename_i hno
    refine h.pass ?_
    rintro ⟨j, n₀, hn₀, hop₀, -⟩
    obtain ⟨a, ha, hsame⟩ := h.exists_core? hn
    cases hn₀.symm.trans ha
    have hop : n.op = .identity := hsame.symm.trans hop₀
    obtain ⟨input, -, hin, -⟩ := copies_of_accepted h.accepted hn hop
    exact absurd hin (hno input hop)

private theorem collapsing_run (h : Accepted m) :
    identity.run.Leaves m (fun _ => Collapsing m m.order) fun _ _ => False := by
  simp only [identity, leaves_bind, leaves_get]
  refine leaves_anyOf_split m.order (fun done i rest hsplit m' hm' => ?_) m (collapsing_start h)
  exact hm'.visit (by simp [hsplit])

/-- Every identity has been visited in the end. -/
theorem Collapsing.collapsed (h : Collapsing m₀ m₀.order m) (h₀ : Accepted m₀) : Collapsed m := by
  intro i n j k hn hj hk hop
  obtain ⟨k₀, hk₀, hsame⟩ := h.exists_core? hk
  have hop₀ : k₀.op = .identity := hsame.trans hop
  obtain ⟨a, ha, rfl⟩ := exists_get?_of_core? hk₀
  obtain ⟨input, -, hin, -⟩ := copies_of_accepted h₀ ha hop₀
  refine h.unused j (mem_order_of_core? h₀.linked hk₀) ⟨input, a.core, hk₀, hop₀, hin⟩ i ?_
  rwa [inputsOf_of_get? hn]

theorem Collapsing.kept (h : Collapsing m₀ done m) (h₀ : Accepted m₀) (hn : m₀.get? i = some n) :
    ∃ n', m.get? i = some n' ∧ n' = { n with inputs := n'.inputs, users := n'.users } ∧
      List.Forall₂ (ReflTransGen (Copies m₀)) n.inputs n'.inputs := by
  have hmem : i ∈ m₀.order := mem_order_of_core? h₀.linked (core?_of_get? hn)
  obtain ⟨n', hn'⟩ := Option.isSome_iff_exists.1 ((h.accepted.linked.mem_order i).1 (h.order ▸ hmem))
  obtain ⟨a, ha, hcore⟩ := h.core i n'.core (core?_of_get? hn')
  cases (core?_of_get? hn).symm.trans ha
  have hinputs := h.inputs i
  rw [inputsOf_of_get? hn, inputsOf_of_get? hn'] at hinputs
  exact ⟨n', hn', congrArg (fun a : Instruction => { a with users := n'.users }) hcore, hinputs⟩

end Identity

/-- On every module that edits build and that passes its check, one sweep over the identities ends well.
It leaves the order as it was and a module that passes its check. Instructions keep all but their inputs
and users, so also their shapes, each input has moved along a chain of identities, and none of them is an
identity any more. -/
theorem identity_collapses (hb : Built m) (hv : m.validate = .ok ()) :
    ∃ changed, (identity.run m).result = .ok changed ∧
      (identity.run m).state.order = m.order ∧
      (identity.run m).state.validate = .ok () ∧
      (∀ i n, m.get? i = some n → ∃ n', (identity.run m).state.get? i = some n' ∧
        n' = { n with inputs := n'.inputs, users := n'.users } ∧
        List.Forall₂ (ReflTransGen (Identity.Copies m)) n.inputs n'.inputs) ∧
      Identity.Collapsed (identity.run m).state := by
  have h₀ := hb.accepted hv
  obtain ⟨changed, hr, h⟩ := (Identity.collapsing_run h₀).exists_ok
  exact ⟨changed, hr, h.order, h.accepted.validate, fun i n hn => h.kept h₀ hn, h.collapsed h₀⟩

/-- A chain of identities that branches, with users along it and one identity that nothing uses; the last
instruction is an identity as well. -/
private def chainedCopies : Module :=
  Mutation.applyAll (Module.empty "main")
    [.addParameter "x" ⟨.float, [2, 3], [1, 2], [], []⟩, .add .identity [⟨0⟩], .add .identity [⟨1⟩],
      .add .identity [⟨2⟩], .add (.unary .relu) [⟨2⟩], .add (.binary .mul) [⟨1⟩, ⟨4⟩],
      .add .identity [⟨5⟩], .add .identity [⟨6⟩]]

theorem identity_collapses_chained :
    Built chainedCopies ∧ chainedCopies.validate = .ok () ∧ ¬ Identity.Collapsed chainedCopies ∧
    ∃ changed, (identity.run chainedCopies).result = .ok changed ∧
      (identity.run chainedCopies).state.order = chainedCopies.order ∧
      (identity.run chainedCopies).state.validate = .ok () ∧
      (∀ i n, chainedCopies.get? i = some n → ∃ n', (identity.run chainedCopies).state.get? i = some n' ∧
        n' = { n with inputs := n'.inputs, users := n'.users } ∧
        List.Forall₂ (ReflTransGen (Identity.Copies chainedCopies)) n.inputs n'.inputs) ∧
      Identity.Collapsed (identity.run chainedCopies).state := by
  have hb : Built chainedCopies := (Built.empty "main").applyAll _
  have hv : chainedCopies.validate = .ok () := by decide +kernel
  have hfirst : chainedCopies.get? ⟨1⟩ = some
      { op := .identity, inputs := [⟨0⟩], users := [⟨2⟩, ⟨5⟩], shape := ⟨.float, [2, 3], [1, 2], [], []⟩ } := by
    decide +kernel
  have hsecond : chainedCopies.get? ⟨2⟩ = some
      { op := .identity, inputs := [⟨1⟩], users := [⟨3⟩, ⟨4⟩], shape := ⟨.float, [2, 3], [1, 2], [], []⟩ } := by
    decide +kernel
  exact ⟨hb, hv, fun hno => hno ⟨2⟩ _ ⟨1⟩ _ hsecond (by simp) hfirst rfl, identity_collapses hb hv⟩

end TensorGraph.Pass
