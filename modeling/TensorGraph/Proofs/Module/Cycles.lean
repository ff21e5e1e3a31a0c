import TensorGraph.Proofs.Module.Accepted
import TensorGraph.Proofs.Operator.Refusals

/-! Cycles are found where they would arise. An edit that gives instructions other inputs is checked
against the module as it was, one instruction at a time; nevertheless it is refused for a cycle only
if one would come about, and never made if one would. -/
namespace TensorGraph.Reach
open Relation
variable {α : Type} [DecidableEq α] {next next' : α → List α}

/-- Some node leads back to itself. -/
def Cyclic (next : α → List α) : Prop :=
  ∃ a, TransGen (fun x y => y ∈ next x) a a

omit [DecidableEq α] in
/-- A path that is closed consists of steps that are. -/
theorem transGen_of_closed {r r' : α → α → Prop}
    (h : ∀ a b, r' a b → ReflTransGen r' b a → r a b) {a b : α} (hab : TransGen r' a b)
    (hba : ReflTransGen r' b a) : TransGen r a b := by
  induction hab with
  | single hstep => exact .single (h _ _ hstep hba)
  | tail hpath hstep ih =>
    have hback := hba.trans hpath.to_reflTransGen
    exact (ih (.head hstep hba)).tail (h _ _ hstep hback)

/-- Where some nodes get edges to all of `targets`, and no other new ones, a cycle arises exactly if
one of the targets has led to one of them before. -/
theorem cyclic_iff_of_changed (changed targets : List α) (hacyclic : ¬ Cyclic next)
    (hkept : ∀ a, a ∉ changed → next' a = next a)
    (hnew : ∀ a ∈ changed, ∀ b ∈ next' a, b ∈ next a ∨ b ∈ targets)
    (hall : ∀ a ∈ changed, ∀ t ∈ targets, t ∈ next' a) :
    Cyclic next' ↔
      ∃ t ∈ targets, ∃ a ∈ changed, ReflTransGen (fun x y => y ∈ next x) t a := by
  constructor
  · rintro ⟨a, hcycle⟩
    by_contra hnone
    have hapart : ∀ t ∈ targets, ∀ a ∈ changed, ¬ ReflTransGen (fun x y => y ∈ next' x) t a := by
      intro t ht a ha hpath
      obtain ⟨r, hr, hpath⟩ := exists_path_of_edges_eq hkept ha hpath
      exact hnone ⟨t, ht, r, hr, hpath⟩
    refine hacyclic ⟨a, transGen_of_closed (fun x y hxy hyx => ?_) hcycle .refl⟩
    by_cases hx : x ∈ changed
    · exact (hnew x hx y hxy).resolve_right fun hy => hapart y hy x hx hyx
    · rwa [hkept x hx] at hxy
  · rintro ⟨t, ht, a, ha, hpath⟩
    obtain ⟨r, hr, hpath⟩ :=
      exists_path_of_edges_eq (fun x hx => (hkept x hx).symm) ha hpath
    exact ⟨r, .head' (hall r hr t ht) hpath⟩

end TensorGraph.Reach

namespace TensorGraph.Module
open Relation TensorGraph.Reach
variable {m : Module} {i j old new : InstructionId} {op : Operator} {inputs : List InstructionId}

theorem Ordered.acyclic (ho : Ordered m) (hl : Linked m) : ¬ Cyclic m.inputsOf := by
  rintro ⟨i, hcycle⟩
  have hlt : ∀ j, TransGen (fun a b => b ∈ m.inputsOf a) i j →
      m.order.idxOf j < m.order.idxOf i := by
    intro j hpath
    induction hpath with
    | single hstep => exact ho.idxOf_lt hl hstep
    | tail _ hstep ih => exact Nat.lt_trans (ho.idxOf_lt hl hstep) ih
  exact Nat.lt_irrefl _ (hlt i hcycle)

/-- The inputs after every use of `old`, except by `new` itself, has become a use of `new`. -/
def redirectedInputs (m : Module) (old new i : InstructionId) : List InstructionId :=
  if i = new then m.inputsOf i else (m.inputsOf i).map fun j => if j = old then new else j

/-- Other inputs close a cycle exactly if one of them depends on the instruction. -/
theorem cyclic_update_iff (hl : Linked m) (ho : Ordered m) :
    Cyclic (Function.update m.inputsOf old inputs) ↔ ∃ i ∈ inputs, m.Depends i old := by
  have hkept : ∀ a, a ∉ [old] → Function.update m.inputsOf old inputs a = m.inputsOf a :=
    fun a ha => Function.update_of_ne (by simpa using ha) _ _
  rw [cyclic_iff_of_changed [old] inputs (ho.acyclic hl) hkept (by simp +contextual) (by simp)]
  simp [Depends]

/-- Redirecting closes a cycle exactly if the new instruction depends on a user. -/
theorem cyclic_redirected_iff (hl : Linked m) (ho : Ordered m) :
    Cyclic (m.redirectedInputs old new) ↔ ∃ u ∈ m.usersOf old, u ≠ new ∧ m.Depends new u := by
  have husers : ∀ u, u ∈ (m.usersOf old).filter (· ≠ new) ↔ old ∈ m.inputsOf u ∧ u ≠ new := by
    simp [hl.mem_users]
  rw [cyclic_iff_of_changed ((m.usersOf old).filter (· ≠ new)) [new] (ho.acyclic hl)
    (fun a ha => ?_) (fun a ha b hb => ?_) (fun a ha t ht => ?_)]
  · simp [Depends, and_assoc]
  · rw [redirectedInputs]
    split
    · rfl
    rename_i hne
    exact map_forward_of_notMem fun hold => ha ((husers a).2 ⟨hold, hne⟩)
  · rw [redirectedInputs, if_neg ((husers a).1 ha).2] at hb
    obtain ⟨c, hc, rfl⟩ := List.mem_map.1 hb
    split
    · exact .inr (by simp)
    · exact .inl hc
  · obtain ⟨hold, hne⟩ := (husers a).1 ha
    rw [redirectedInputs, if_neg hne, List.mem_singleton.1 ht]
    exact List.mem_map.2 ⟨old, hold, if_pos rfl⟩

private theorem requireFreeName_eq_error {except : Option InstructionId} {e : Failure}
    (h : m.requireFreeName except op = .error e) :
    ∃ name, e = .refused (.duplicateParameter name) := by
  unfold requireFreeName at h
  split at h
  · split at h
    · split at h <;> cases h
      exact ⟨_, rfl⟩
    · cases h
  · cases h

/-- Inferring a shape is not refused for a cycle. -/
theorem infer_ne_cycle {α : Type} {outs : List (List Shape)} {f : Shape → α} :
    (do
      let shape ← op.inferShape (← m.shapesOf inputs) outs
      return f shape : Except Failure α) ≠ .error (.refused (.cycle j)) := by
  intro h
  rcases Except.bind_eq_error.1 h with h | ⟨_, -, h⟩
  · exact Except.lift_ne_refused h
  rcases Except.bind_eq_error.1 h with h | ⟨_, -, h⟩
  · obtain ⟨_, he⟩ := Operator.inferShape_refused h
    cases he
  · cases h

/-- Where the inputs are there, their check fails for a cycle only. -/
theorem checkInputs_eq_error (hin : ∀ i ∈ inputs, (m.get? i).isSome) {e : Failure}
    (h : (inputs.forM fun i => do
      m.require i
      if m.dependsOn i old then refuse (.cycle old) else return : Except Failure Unit) = .error e) :
    e = .refused (.cycle old) ∧ ∃ i ∈ inputs, m.Depends i old := by
  obtain ⟨i, hi, h⟩ := Except.exists_of_forM_eq_error h
  rw [Except.bind_of_ok (require_eq_ok.2 (hin i hi))] at h
  split at h
  · rename_i hd
    cases h
    exact ⟨rfl, i, hi, dependsOn_iff.1 hd⟩
  · cases h

/-- Where the instructions are there, replacing in place is refused for a cycle exactly if an input
depends on what is replaced. -/
theorem checkReplace_eq_cycle (hold : (m.get? old).isSome) (hin : ∀ i ∈ inputs, (m.get? i).isSome) :
    m.checkReplace old op inputs = .error (.refused (.cycle j)) ↔
      j = old ∧ ∃ i ∈ inputs, m.Depends i old := by
  rw [checkReplace, Except.bind_of_ok (require_eq_ok.2 hold), Except.bind_eq_error]
  constructor
  · rintro (h | ⟨_, -, h⟩)
    · obtain ⟨he, hd⟩ := checkInputs_eq_error hin h
      cases he
      exact ⟨rfl, hd⟩
    rcases Except.bind_eq_error.1 h with h | ⟨n, -, h⟩
    · exact absurd h Except.lift_ne_refused
    split at h
    · cases h
    rcases Except.bind_eq_error.1 h with h | ⟨_, -, h⟩
    · obtain ⟨_, he⟩ := requireFreeName_eq_error h
      cases he
    · exact absurd h infer_ne_cycle
  · rintro ⟨rfl, i, hi, hd⟩
    cases h : (inputs.forM fun i => do
        m.require i
        if m.dependsOn i j then refuse (.cycle j) else return : Except Failure Unit) with
    | ok _ => exact absurd hd (checkInput_eq_ok.1 (Except.forM_eq_ok.1 h i hi)).2
    | error e =>
      obtain ⟨rfl, -⟩ := checkInputs_eq_error hin h
      exact .inl rfl

/-- Redirecting is refused for a cycle only if the new instruction depends on a user. -/
theorem checkRedirect_eq_cycle (h : m.checkRedirect old new = .error (.refused (.cycle j))) :
    ∃ u ∈ m.usersOf old, u ≠ new ∧ m.Depends new u := by
  obtain ⟨u, hu, h⟩ := Except.exists_of_mapM_eq_error h
  split at h
  · rename_i hd
    obtain ⟨hu, hne⟩ := List.mem_filter.1 hu
    exact ⟨u, hu, by simpa using hne, dependsOn_iff.1 hd⟩
  rcases Except.bind_eq_error.1 h with h | ⟨n, -, h⟩
  · exact absurd h Except.lift_ne_refused
  · exact absurd h infer_ne_cycle

/-- Users that are redirected are not among what the new instruction depends on. -/
theorem Redirection.acyclic {rs : List Redirected} (hr : Redirection m old new rs)
    {u : InstructionId} (hu : u ∈ m.usersOf old) (hne : u ≠ new) : ¬ m.Depends new u := by
  obtain ⟨r, hrs, rfl⟩ := List.mem_map.1 (hr.mem_users.2 ⟨hu, hne⟩)
  obtain ⟨_, -, hd, -⟩ := hr.fits r hrs
  exact hd

/-- Nothing else depends on the last instruction. -/
theorem Ordered.not_depends_last (ho : Ordered m) (hl : Linked m) (hlast : m.last? = some old)
    (hne : i ≠ old) : ¬ m.Depends i old := by
  intro hd
  rcases ReflTransGen.cases_tail hd with he | ⟨k, -, hk⟩
  · exact hne he.symm
  · exact ho.last_notMem_inputsOf hl hlast hk

private theorem replace_eq_error {e : Failure} :
    (replace old op inputs m).result = .error e ↔ m.checkReplace old op inputs = .error e := by
  have hleaves := replace_leaves old op inputs m
  refine ⟨fun h => (hleaves.error h).1, fun h => ?_⟩
  cases hr : (replace old op inputs m).result with
  | ok i =>
    obtain ⟨-, before, after, hr, -⟩ := hleaves.ok hr
    rw [checkReplace_eq_ok.2 ⟨before, hr⟩] at h
    cases h
  | error e' =>
    cases (hleaves.error hr).1.symm.trans h
    rfl

private theorem replace_cycle_iff (hl : Linked m) (ho : Ordered m) (hold : (m.get? old).isSome)
    (hin : ∀ i ∈ inputs, (m.get? i).isSome) :
    (∃ j, (replace old op inputs m).result = .error (.refused (.cycle j))) ↔
      Cyclic (Function.update m.inputsOf old inputs) := by
  simp only [replace_eq_error, checkReplace_eq_cycle hold hin, cyclic_update_iff hl ho]
  exact ⟨fun ⟨_, _, h⟩ => h, fun h => ⟨old, rfl, h⟩⟩

private theorem replaceWith_ne_ok_of_cyclic (hl : Linked m) (ho : Ordered m)
    (h : Cyclic (m.redirectedInputs old new)) (r : InstructionId) :
    (replaceWith old new m).result ≠ .ok r := by
  intro hr
  obtain ⟨u, hu, hne, hd⟩ := (cyclic_redirected_iff hl ho).1 h
  have hold : old ∈ m.inputsOf u := (hl.mem_users old u).1 hu
  rcases (replaceWith_leaves old new m).ok hr with ⟨rfl, -⟩ | ⟨-, hf⟩
  · exact Nat.not_le_of_gt (ho.idxOf_lt hl hold) (ho.idxOf_le_of_depends hl hd)
  generalize (replaceWith old new m).state = m' at hf
  cases hf with
  | replaced hlast => exact ho.last_notMem_inputsOf hl hlast hold
  | redirected _ _ _ _ hr => exact hr.acyclic hu hne hd

private theorem cyclic_of_replaceWith_refused (hl : Linked m) (ho : Ordered m)
    (hold : (m.get? old).isSome) (hnew : (m.get? new).isSome)
    (h : (replaceWith old new m).result = .error (.refused (.cycle j))) :
    Cyclic (m.redirectedInputs old new) := by
  cases ((replaceWith_leaves old new m).error h).2 with
  | unknown h => rcases h with h | h <;> simp [h] at hold hnew
  | output _ _ he => cases he
  | replace hne hlast h =>
    obtain ⟨-, i, hi, hd⟩ := (checkReplace_eq_cycle hold (by simpa using hnew)).1 h
    rw [List.mem_singleton.1 hi] at hd
    exact absurd hd (ho.not_depends_last hl hlast hne.symm)
  | redirect h => exact (cyclic_redirected_iff hl ho).2 (checkRedirect_eq_cycle h)

/-- Cycles are found exactly. In every module, dependence is reachability along inputs. Where users
mirror inputs and the order is topological, replacing an instruction in place is refused for a cycle
exactly if its new inputs would close one; and its users are not made to use another instruction if
that would close one, nor refused for one if it would not. -/
theorem cycles_detected (m : Module) :
    (∀ i target, m.dependsOn i target = true ↔
      ReflTransGen (fun a b => b ∈ m.inputsOf a) i target) ∧
    (Linked m → Ordered m → ∀ old, (m.get? old).isSome →
      (∀ op inputs, (∀ i ∈ inputs, (m.get? i).isSome) →
        ((∃ j, (replace old op inputs m).result = .error (.refused (.cycle j))) ↔
          Cyclic (Function.update m.inputsOf old inputs))) ∧
      (∀ new, (m.get? new).isSome →
        (Cyclic (m.redirectedInputs old new) → ∀ r, (replaceWith old new m).result ≠ .ok r) ∧
        (∀ j, (replaceWith old new m).result = .error (.refused (.cycle j)) →
          Cyclic (m.redirectedInputs old new)))) := by
  refine ⟨fun i target => dependsOn_iff, fun hl ho old hold => ⟨fun op inputs hin => ?_, ?_⟩⟩
  · exact replace_cycle_iff hl ho hold hin
  · intro new hnew
    refine ⟨replaceWith_ne_ok_of_cyclic hl ho, fun j hj => ?_⟩
    exact cyclic_of_replaceWith_refused hl ho hold hnew hj

/-- Two branches from one parameter, one of them a chain. -/
private def forked : Module :=
  Mutation.applyAll (Module.empty "main")
    [.addParameter "x" (.packedOf .float [2]), .add (.unary .neg) [⟨0⟩], .add (.unary .exp) [⟨1⟩],
      .add (.unary .tanh) [⟨0⟩], .add (.binary .add) [⟨2⟩, ⟨3⟩]]

/-- The head of the chain may use the other branch but not the end of the chain, which in turn may
not take the place of the parameter. -/
theorem cycles_detected_forked :
    Linked forked ∧ Ordered forked ∧ (∀ i ∈ [⟨0⟩, ⟨1⟩, ⟨2⟩, ⟨3⟩], (forked.get? i).isSome) ∧
      ¬ Cyclic (Function.update forked.inputsOf ⟨1⟩ [⟨3⟩]) ∧
      Cyclic (Function.update forked.inputsOf ⟨1⟩ [⟨3⟩, ⟨2⟩]) ∧
      Cyclic (forked.redirectedInputs ⟨0⟩ ⟨2⟩) := by
  have hb : Built forked := (Built.empty "main").applyAll _
  have hv : forked.validate = .ok () := by decide +kernel
  have ho : Ordered forked := (hb.accepted hv).ordered
  have hlive : ∀ i ∈ [⟨0⟩, ⟨1⟩, ⟨2⟩, ⟨3⟩], (forked.get? i).isSome := by decide +kernel
  obtain ⟨hhead, -⟩ := (cycles_detected forked).2 hb.linked ho ⟨1⟩ (hlive _ (by simp))
  refine ⟨hb.linked, ho, hlive, fun h => ?_, ?_, ?_⟩
  · obtain ⟨j, h⟩ := (hhead (.unary .neg) [⟨3⟩] fun i hi => hlive i (by grind)).2 h
    have hok : (replace ⟨1⟩ (.unary .neg) [⟨3⟩] forked).result = .ok ⟨1⟩ := by
      unfold replace checkReplace
      simp only [dependsOn_eq_getD 16]
      decide +kernel
    rw [hok] at h
    cases h
  · refine (hhead (.unary .neg) _ fun i hi => hlive i (by grind)).1 ⟨⟨1⟩, ?_⟩
    unfold replace checkReplace
    simp only [dependsOn_eq_getD 16]
    decide +kernel
  · have hparameter := (cycles_detected forked).2 hb.linked ho ⟨0⟩ (hlive _ (by simp))
    refine (hparameter.2 ⟨2⟩ (hlive _ (by simp))).2 ⟨1⟩ ?_
    unfold replaceWith replace checkReplace checkRedirect
    simp only [dependsOn_eq_getD 16]
    decide +kernel

end TensorGraph.Module
