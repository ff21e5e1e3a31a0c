import TensorGraph.Pipeline.Basic
import TensorGraph.Proofs.Pass.Simplification
import TensorGraph.Proofs.Program.Reload

/-! What a pipeline does to a program: it changes modules one at a time and nothing else, so what
every pass keeps of a module is kept of all of them. -/
namespace TensorGraph.Program
variable {R : Module → Module → Prop} {p q : Program} {m : ModuleId} {module module' : Module}

/-- Each module has become one that is related to it, and nothing else has changed. -/
structure Related (R : Module → Module → Prop) (p q : Program) : Prop where
  main : q.main = p.main
  names : q.names = p.names
  size : q.modules.size = p.modules.size
  modules : ∀ m, Option.Rel R (p.get? m) (q.get? m)

theorem Related.get? (h : Related R p q) (hm : p.get? m = some module) :
    ∃ module', q.get? m = some module' ∧ R module module' := by
  have hrel := h.modules m
  rw [hm] at hrel
  cases hq : q.get? m with
  | none => rw [hq] at hrel; cases hrel
  | some module' =>
    rw [hq] at hrel
    cases hrel with
    | some hr => exact ⟨module', rfl, hr⟩

theorem Related.get?_of_get? (h : Related R p q) (hm : q.get? m = some module') :
    ∃ module, p.get? m = some module ∧ R module module' := by
  have hrel := h.modules m
  rw [hm] at hrel
  cases hp : p.get? m with
  | none => rw [hp] at hrel; cases hrel
  | some module =>
    rw [hp] at hrel
    cases hrel with
    | some hr => exact ⟨module, rfl, hr⟩

private theorem related_refl (h : ∀ m module, p.get? m = some module → R module module) :
    Related R p p := by
  refine ⟨rfl, rfl, rfl, fun m => ?_⟩
  cases hm : p.get? m with
  | none => exact .none
  | some module => exact .some (h m module hm)

theorem Related.put (h : Related R p q) (hm : p.get? m = some module) (hr : R module module') :
    Related R p (q.put m module') := by
  obtain ⟨_, hq, -⟩ := h.get? hm
  refine ⟨h.main, h.names, h.size, fun k => ?_⟩
  by_cases hk : k = m
  · subst hk
    rw [hm, get?_put_self hq]
    exact .some hr
  · rw [get?_put_of_ne hk]
    exact h.modules k

theorem Related.mono {R' : Module → Module → Prop} (h : Related R p q)
    (hr : ∀ a b, R a b → R' a b) : Related R' p q := by
  refine ⟨h.main, h.names, h.size, fun m => ?_⟩
  have hrel := h.modules m
  revert hrel
  generalize p.get? m = a
  generalize q.get? m = b
  rintro (hab | -)
  · exact .some (hr _ _ hab)
  · exact .none

variable {sub : ModuleId} {i : InstructionId} {n : Instruction}

/-- What an instruction refers to, one of the same module referred to at first. -/
theorem Related.origin (h : Related Stems p q) (hget : q.get? m = some module')
    (hn : module'.core? i = some n) :
    (n.moduleArgs = [] ∧ n.moduleOutputs = []) ∨ ∃ module j k, p.get? m = some module ∧
      module.core? j = some k ∧ n.moduleArgs = k.moduleArgs ∧ n.moduleOutputs = k.moduleOutputs := by
  obtain ⟨module, hget, hr⟩ := h.get?_of_get? hget
  rcases hr.modules i n hn with hnone | ⟨j, k, hk, he⟩
  · exact .inl (Prod.mk.inj hnone)
  · exact .inr ⟨module, j, k, hget, hk, Prod.mk.inj he⟩

private theorem Related.refers (h : Related Stems p q) (hp : Loaded p) (hr : q.Refers m sub) :
    p.Refers m sub := by
  obtain ⟨module', hget'⟩ := live_of_refers hr
  obtain ⟨module, hget, hstems⟩ := h.get?_of_get? hget'
  have hsub := hstems.mem_subModules (hp.valid m module hget).linked ((refers_of_get? hget').1 hr)
  exact (refers_of_get? hget).2 hsub

/-- A reachable instruction holds the output shapes that its sub-modules had at first. -/
theorem Related.moduleOutputs_eq (h : Related Stems p q) (hp : Loaded p) (hm : m ∈ p.reachable)
    (hget : q.get? m = some module') (hn : module'.core? i = some n) :
    n.moduleOutputs = n.moduleArgs.map p.outputsOf := by
  rcases h.origin hget hn with ⟨hargs, houts⟩ | ⟨module, j, k, hget, hk, hargs, houts⟩
  · rw [hargs, houts, List.map_nil]
  · rw [hargs, houts]
    refine hp.current m module j k hget hk fun hmain => ?_
    exact not_refers_main hp.toArranged hm
      (refers_of_core? hget (hp.valid m module hget).linked hk hmain)

theorem Related.arranged (h : Related Stems p q) (hp : Loaded p) : Arranged q := by
  have hlive : ∀ m, (q.get? m).isSome ↔ (p.get? m).isSome := fun m => by
    simp only [Option.isSome_iff_exists]
    exact ⟨fun ⟨_, hm⟩ => (h.get?_of_get? hm).imp fun _ hm => hm.1,
      fun ⟨_, hm⟩ => (h.get? hm).imp fun _ hm => hm.1⟩
  have hfind : ∀ name, q.find? name = p.find? name := fun name => by rw [find?, h.names, find?]
  refine ⟨?_, fun name m => ?_, ?_, fun a b hab => ?_, fun a ha => ?_⟩
  · rw [Arena.Counted, h.size, ← hp.counted]
    exact Arena.length_entries_congr fun i => hlive ⟨i⟩
  · rw [hfind, hp.find]
    constructor
    · rintro ⟨module, hm, rfl⟩
      obtain ⟨module', hm', hr⟩ := h.get? hm
      exact ⟨module', hm', hr.name⟩
    · rintro ⟨module', hm', rfl⟩
      obtain ⟨module, hm, hr⟩ := h.get?_of_get? hm'
      exact ⟨module, hm, hr.name.symm⟩
  · rw [hfind, h.main]
    exact hp.main
  · exact (hlive b).2 (hp.live a b (h.refers hp hab))
  · exact hp.acyclic a (Relation.TransGen.mono (fun _ _ hab => h.refers hp hab) _ _ ha)

theorem Related.mem_reachable (h : Related Stems p q) (hp : Loaded p) (hm : m ∈ q.reachable) :
    m ∈ p.reachable := by
  refine (Program.mem_reachable hp.toArranged).2 ?_
  rw [← h.main]
  exact Relation.ReflTransGen.mono (fun _ _ hab => h.refers hp hab) _ _
    ((Program.mem_reachable (h.arranged hp)).1 hm)

end TensorGraph.Program

namespace TensorGraph.Pipeline
open TensorGraph.Action Program
variable {pipeline : Pipeline} {pass : Pass} {m m' : Module} {p : Program}

/-- A pass fails where it fails by itself, and where it leaves a module that does not pass the
check. -/
theorem runPass_leaves {Q : Bool → Module → Prop} {E : Failure → Module → Prop}
    (h : pass.run.Leaves m Q E) :
    (pipeline.runPass pass).Leaves m
      (fun changed m' => Q changed m' ∧ (pipeline.validate → m'.validate = .ok ()))
      (fun e m' => (∃ cause, E cause m' ∧ e = cause.within (.passRefused pass.name m.name)) ∨
        (∃ changed, Q changed m') ∧
          ∃ cause, m'.validate = .error cause ∧ e = cause.within (.invalidModule pass.name)) := by
  simp only [runPass, leaves_bind, leaves_get, leaves_mapError]
  refine h.mono (fun changed m' hm' => ?_) fun cause m' hm' => .inl ⟨cause, hm', rfl⟩
  have hcheck : (do
      if pipeline.validate then m'.validate.mapError (Failure.within (.invalidModule pass.name))
      return changed : Action PipelineFailure Module Bool).Leaves m'
      (fun changed m' => Q changed m' ∧ (pipeline.validate → m'.validate = .ok ()))
      (fun e m' => (∃ cause, E cause m' ∧ e = cause.within (.passRefused pass.name m.name)) ∨
        (∃ changed, Q changed m') ∧
          ∃ cause, m'.validate = .error cause ∧ e = cause.within (.invalidModule pass.name)) := by
    split
    · cases hv : m'.validate with
      | ok => exact ⟨hm', fun _ => hv⟩
      | error cause => exact .inr ⟨⟨changed, hm'⟩, cause, hv, rfl⟩
    · rename_i hv
      exact ⟨hm', fun h => absurd h hv⟩
  split <;> split <;> exact hcheck

/-- What every pass of the schedule keeps of the modules that the entry reaches is kept by the
whole run. -/
theorem run_leaves {R : Module → Module → Prop} {E : PipelineFailure → Module → Prop}
    (hp : Arranged p) (hrefl : ∀ m module, p.get? m = some module → R module module)
    (hstep : ∀ pass ∈ pipeline.schedule, ∀ m ∈ p.reachable, ∀ module module',
      p.get? m = some module → R module module' →
        (pipeline.runPass pass).Leaves module' (fun _ => R module) E) :
    pipeline.run.Leaves p (fun _ q => Related R p q)
      (fun e q => ∃ m ∈ p.reachable, ∃ module', q.get? m = some module' ∧ E e module') := by
  rw [run, leaves_bind, leaves_get]
  refine leaves_anyOf _ (fun pass hpass q hq => ?_) p (related_refl hrefl)
  refine leaves_anyOf _ (fun m hm q hq => ?_) q hq
  obtain ⟨module, hget⟩ :=
    Option.isSome_iff_exists.1 ((reachable_extended hp).listed.live hm)
  obtain ⟨module', hget', hr⟩ := hq.get? hget
  rw [runPassOn, leaves_onModule hget']
  refine (hstep pass hpass m hm module module' hget hr).mono (fun _ _ hr' => hq.put hget hr')
    fun e left he => ⟨m, hm, left, get?_put_self hget', he⟩

end TensorGraph.Pipeline
