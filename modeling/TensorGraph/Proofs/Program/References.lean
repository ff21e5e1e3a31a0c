import Mathlib.Data.List.Nodup
import Mathlib.Data.List.Perm.Subperm
import TensorGraph.Program.Basic
import TensorGraph.Proofs.Module.Typed

/-! References between the modules of a program, which never run in a circle, and the order in which
the modules that the entry reaches are listed: each one once, after those it refers to. -/
namespace TensorGraph
open Relation

theorem ModuleId.index_inj {a b : ModuleId} : a.index = b.index ↔ a = b := by
  cases a; cases b; simp

namespace Module
variable {m : Module} {sub : ModuleId}

private theorem mem_foldl_distinct {l seen : List ModuleId} :
    sub ∈ l.foldl (fun seen s => if s ∈ seen then seen else seen ++ [s]) seen ↔
      sub ∈ seen ∨ sub ∈ l := by
  induction l generalizing seen with
  | nil => simp
  | cons s l ih =>
    rw [List.foldl_cons, ih, List.mem_cons]
    split
    · rename_i hs
      refine ⟨Or.imp_right .inr, fun h => ?_⟩
      rcases h with h | rfl | h
      · exact .inl h
      · exact .inl hs
      · exact .inr h
    · rw [List.mem_append, List.mem_singleton, or_assoc]

theorem mem_subModules :
    sub ∈ m.subModules ↔ ∃ i ∈ m.order, ∃ n, m.core? i = some n ∧ sub ∈ n.moduleArgs := by
  have hfold : ∀ (l : List InstructionId) seen, sub ∈ l.foldl (fun seen i =>
      (((m.get? i).map Instruction.moduleArgs).getD []).foldl
        (fun seen s => if s ∈ seen then seen else seen ++ [s]) seen) seen ↔
      sub ∈ seen ∨ ∃ i ∈ l, sub ∈ ((m.get? i).map Instruction.moduleArgs).getD [] := by
    intro l
    induction l with
    | nil => simp
    | cons i l ih => exact fun seen => by simp [ih, mem_foldl_distinct, or_assoc]
  rw [subModules, hfold]
  simp only [List.not_mem_nil, false_or]
  refine exists_congr fun i => and_congr_right fun _ => ?_
  rw [core?]
  cases m.get? i with
  | none => simp
  | some n =>
    constructor
    · exact fun h => ⟨_, rfl, h⟩
    · rintro ⟨_, he, h⟩
      cases he
      exact h

theorem mem_subModules_place {p : Nat} {n : Instruction} (hl : Linked m)
    (h : sub ∈ (m.place p n).subModules) : sub ∈ m.subModules ∨ sub ∈ n.moduleArgs := by
  obtain ⟨i, -, k, hk, hsub⟩ := mem_subModules.1 h
  rw [core?_place] at hk
  split at hk
  · cases hk
    exact .inr hsub
  · exact .inl (mem_subModules.2 ⟨i, mem_order_of_core? hl hk, k, hk, hsub⟩)

end Module

namespace Program
variable {p : Program} {m sub : ModuleId}

theorem get_eq_ok_iff {module : Module} : p.get m = .ok module ↔ p.get? m = some module :=
  Arena.get_eq_ok_iff

/-- One module refers to another as a sub-module. -/
def Refers (p : Program) (m sub : ModuleId) : Prop :=
  sub ∈ p.subModulesOf m

theorem refers_of_get? {module : Module} (h : p.get? m = some module) :
    p.Refers m sub ↔ sub ∈ module.subModules := by
  simp [Refers, subModulesOf, h]

theorem refers_of_core? {module : Module} {i : InstructionId} {n : Instruction}
    (hm : p.get? m = some module) (hl : module.Linked) (hn : module.core? i = some n)
    (hsub : sub ∈ n.moduleArgs) : p.Refers m sub :=
  (refers_of_get? hm).2 (Module.mem_subModules.2 ⟨i, Module.mem_order_of_core? hl hn, n, hn, hsub⟩)

/-- A module that has kept its name and refers to no sub-modules in a new way. -/
structure Stems (module module' : Module) : Prop where
  name : module'.name = module.name
  modules : Module.NoNewModules module module'

theorem Stems.mem_subModules {module module' : Module} (h : Stems module module')
    (hl : module.Linked) (hsub : sub ∈ module'.subModules) : sub ∈ module.subModules := by
  obtain ⟨i, -, n', hn', hsub⟩ := Module.mem_subModules.1 hsub
  rcases h.modules i n' hn' with hnone | ⟨j, n, hn, he⟩
  · rw [(Prod.mk.inj hnone).1] at hsub
    cases hsub
  · have hmem := Module.mem_order_of_core? hl hn
    exact Module.mem_subModules.2 ⟨j, hmem, n, hn, (Prod.mk.inj he).1 ▸ hsub⟩

theorem live_of_refers (h : p.Refers m sub) : ∃ module, p.get? m = some module := by
  rw [Refers, subModulesOf] at h
  cases hm : p.get? m with
  | none => simp [hm] at h
  | some module => exact ⟨module, rfl⟩

theorem mem_ids : m ∈ p.ids ↔ (p.get? m).isSome := by
  simp only [ids, List.mem_map, Prod.exists, Option.isSome_iff_exists, get?]
  constructor
  · rintro ⟨k, module, h, rfl⟩
    exact ⟨module, Arena.mem_entries.1 h⟩
  · rintro ⟨module, h⟩
    exact ⟨m.index, module, Arena.mem_entries.2 h, rfl⟩

/-- The walk that looks for recursion finds exactly what references lead to. -/
theorem reaches_iff {target : ModuleId} :
    p.reaches m target ↔ ReflTransGen p.Refers m target := by
  have hf : ∀ a, p.subModulesOf a ≠ [] → a ∈ p.ids := fun a ha => by
    obtain ⟨b, hb⟩ := List.exists_mem_of_ne_nil _ ha
    obtain ⟨module, hm⟩ := live_of_refers (p := p) (m := a) hb
    exact mem_ids.2 (by simp [hm])
  have h : target ∈ Reach.visit p.subModulesOf p.ids [m] ↔
      ∃ a ∈ [m], ReflTransGen p.Refers a target := Reach.mem_visit_iff hf
  simpa [reaches] using h

theorem reaches_eq_getD (steps : Nat) (p : Program) (m target : ModuleId) :
    p.reaches m target = decide (target ∈ (Reach.visitWithin p.subModulesOf steps p.ids [m]).getD
      (Reach.visit p.subModulesOf p.ids [m])) := by
  rw [reaches, ← Reach.visit_eq_getD]

/-- Modules are counted and found by their names, and references lead to modules that are there and
never run in a circle. -/
structure Arranged (p : Program) : Prop where
  counted : p.modules.Counted
  find : ∀ name m, p.find? name = some m ↔ ∃ module, p.get? m = some module ∧ module.name = name
  main : p.find? mainName = some p.main
  live : ∀ m sub, p.Refers m sub → (p.get? sub).isSome
  acyclic : ∀ m, ¬ TransGen p.Refers m m

theorem Arranged.main_live (h : Arranged p) : ∃ module, p.get? p.main = some module := by
  obtain ⟨module, hm, -⟩ := (h.find _ _).1 h.main
  exact ⟨module, hm⟩

/-- Different modules have different names. -/
theorem Arranged.name_inj (h : Arranged p) {a b : ModuleId} {x y : Module} (ha : p.get? a = some x)
    (hb : p.get? b = some y) (he : x.name = y.name) : a = b := by
  have hx := (h.find x.name a).2 ⟨x, ha, rfl⟩
  have hy := (h.find x.name b).2 ⟨y, hb, he.symm⟩
  exact Option.some.inj (hx.symm.trans hy)

/-- The name of the entry is its own. -/
theorem Arranged.eq_main (h : Arranged p) {module : Module} (hm : p.get? m = some module)
    (hname : module.name = mainName) : m = p.main :=
  Option.some.inj (((h.find mainName m).2 ⟨module, hm, hname⟩).symm.trans h.main)

/-- Modules listed once, each after those it refers to. -/
inductive Listed (p : Program) : List ModuleId → Prop
  | nil : Listed p []
  | snoc {done : List ModuleId} {m : ModuleId} (h : Listed p done) (hm : m ∉ done)
      (hlive : (p.get? m).isSome) (hsubs : ∀ sub, p.Refers m sub → sub ∈ done) :
      Listed p (done ++ [m])

theorem Listed.closed {l : List ModuleId} (h : Listed p l) (hm : m ∈ l) (hs : p.Refers m sub) :
    sub ∈ l := by
  induction h with
  | nil => cases hm
  | @snoc done k _ _ _ hsubs ih =>
    refine List.mem_append_left _ ?_
    rcases List.mem_append.1 hm with hm | hm
    · exact ih hm
    · cases List.mem_singleton.1 hm
      exact hsubs sub hs

theorem Listed.live {l : List ModuleId} (h : Listed p l) (hm : m ∈ l) : (p.get? m).isSome := by
  induction h with
  | nil => cases hm
  | @snoc done k _ _ hlive _ ih =>
    rcases List.mem_append.1 hm with hm | hm
    · exact ih hm
    · cases List.mem_singleton.1 hm
      exact hlive

theorem Listed.nodup {l : List ModuleId} (h : Listed p l) : l.Nodup := by
  induction h with
  | nil => exact .nil
  | snoc _ hm _ _ ih => exact List.nodup_append_comm.1 (List.nodup_cons.2 ⟨hm, ih⟩)

/-- A module is listed after those it refers to. -/
theorem Listed.idxOf_lt {l : List ModuleId} (h : Listed p l) (hm : m ∈ l) (hs : p.Refers m sub) :
    l.idxOf sub < l.idxOf m := by
  induction h with
  | nil => cases hm
  | @snoc done k hd hk _ hsubs ih =>
    have hin : sub ∈ done := by
      rcases List.mem_append.1 hm with hm | hm
      · exact hd.closed hm hs
      · exact hsubs sub (List.mem_singleton.1 hm ▸ hs)
    rw [List.idxOf_append_of_mem hin]
    rcases List.mem_append.1 hm with hm | hm
    · rw [List.idxOf_append_of_mem hm]
      exact ih hm
    · cases List.mem_singleton.1 hm
      rw [List.idxOf_append_of_notMem hk]
      exact Nat.lt_add_right _ (List.idxOf_lt_length_of_mem hin)

/-- What is listed for some modules in addition to what was listed before. -/
structure Extended (p : Program) (done roots result : List ModuleId) : Prop where
  listed : Listed p result
  subset : done ⊆ result
  roots_subset : roots ⊆ result
  from_roots : ∀ x ∈ result, x ∈ done ∨ ∃ r ∈ roots, ReflTransGen p.Refers r x

private theorem extended_foldl {step : List ModuleId → ModuleId → List ModuleId}
    {roots : List ModuleId}
    (hstep : ∀ done, Listed p done → ∀ r ∈ roots, Extended p done [r] (step done r))
    {done : List ModuleId} (h : Listed p done) : Extended p done roots (roots.foldl step done) := by
  induction roots generalizing done with
  | nil => exact ⟨h, List.Subset.refl _, List.nil_subset _, fun x hx => .inl hx⟩
  | cons r roots ih =>
    have hr := hstep done h r (by simp)
    have hrest := ih (fun done hd s hs => hstep done hd s (by simp [hs])) hr.listed
    refine ⟨hrest.listed, List.Subset.trans hr.subset hrest.subset, List.cons_subset.2 ⟨?_, hrest.roots_subset⟩,
      fun x hx => ?_⟩
    · exact hrest.subset (hr.roots_subset (by simp))
    · rcases hrest.from_roots x hx with hx | ⟨s, hs, hpath⟩
      · rcases hr.from_roots x hx with hx | ⟨s, hs, hpath⟩
        · exact .inl hx
        · exact .inr ⟨s, List.mem_cons.2 (.inl (List.mem_singleton.1 hs)), hpath⟩
      · exact .inr ⟨s, by simp [hs], hpath⟩

private theorem length_le_size (h : Arranged p) {path : List ModuleId} (hn : path.Nodup)
    (hlive : ∀ a ∈ path, (p.get? a).isSome) : path.length ≤ p.modules.size := by
  have hsub : path ⊆ p.ids := fun a ha => mem_ids.2 (hlive a ha)
  have hle := (hn.subperm hsub).length_le
  rwa [ids, List.length_map, h.counted] at hle

/-- Chains of references from `m` have fewer modules than `depth`. -/
def Within (p : Program) : Nat → ModuleId → Prop
  | 0, _ => False
  | depth + 1, m => ∀ sub, p.Refers m sub → p.Within depth sub

/-- The modules on the way to `m` are all different, since references never run in a circle, so they
are no more than the modules there are. -/
private theorem within_of_path (h : Arranged p) (depth : Nat) (path : List ModuleId)
    (hn : path.Nodup) (hlive : ∀ a ∈ path, (p.get? a).isSome)
    (hpath : ∀ a ∈ path, TransGen p.Refers a m) (hm : (p.get? m).isSome)
    (hdepth : p.modules.size < depth + path.length) : p.Within depth m := by
  induction depth generalizing m path with
  | zero => exact absurd (length_le_size h hn hlive) (by omega)
  | succ depth ih =>
    intro sub hsub
    refine ih (m :: path) (List.nodup_cons.2 ⟨fun hmem => h.acyclic m (hpath m hmem), hn⟩)
      (List.forall_mem_cons.2 ⟨hm, hlive⟩) (List.forall_mem_cons.2 ⟨.single hsub, fun a ha => ?_⟩)
      (h.live m sub hsub) ?_
    · exact (hpath a ha).tail hsub
    · rw [List.length_cons]
      omega

/-- Chains of references are no longer than there are modules. -/
theorem Arranged.within (h : Arranged p) (hm : (p.get? m).isSome) {depth : Nat}
    (hdepth : p.modules.size < depth) : p.Within depth m :=
  within_of_path h depth [] .nil (by simp) (by simp) hm (by simpa using hdepth)

/-- Following references comes to an end. -/
theorem Arranged.wellFounded (h : Arranged p) : WellFounded fun sub m => p.Refers m sub := by
  have hacc : ∀ depth m, p.Within depth m → Acc (fun sub m => p.Refers m sub) m := by
    intro depth
    induction depth with
    | zero => exact fun m hm => hm.elim
    | succ depth ih => exact fun m hm => ⟨m, fun sub hsub => ih sub (hm sub hsub)⟩
  refine ⟨fun m => ⟨m, fun sub hsub => ?_⟩⟩
  exact hacc _ sub (h.within (h.live m sub hsub) (Nat.lt_succ_self _))

/-- Listing follows references deep enough. -/
private theorem postOrder_extended (h : Arranged p) (depth : Nat) (m : ModuleId)
    (done : List ModuleId) (hw : p.Within depth m) (hm : (p.get? m).isSome) (hd : Listed p done) :
    Extended p done [m] (p.postOrder depth m done) := by
  induction depth generalizing m done with
  | zero => exact hw.elim
  | succ depth ih =>
    rw [postOrder]
    split
    · rename_i hmem
      exact ⟨hd, List.Subset.refl _, by simpa using hmem, fun x hx => .inl hx⟩
    rename_i hnot
    obtain ⟨module, hget⟩ := Option.isSome_iff_exists.1 hm
    rw [hget]
    have hstep : ∀ done, Listed p done → ∀ sub ∈ module.subModules,
        Extended p done [sub] (p.postOrder depth sub done) := by
      intro done hd sub hsub
      have hsub : p.Refers m sub := (refers_of_get? hget).2 hsub
      exact ih sub done (hw sub hsub) (h.live m sub hsub) hd
    have hsubs := extended_foldl hstep hd
    have hnew : m ∉ module.subModules.foldl (fun done sub => p.postOrder depth sub done) done := by
      intro hmem
      rcases hsubs.from_roots m hmem with hmem | ⟨sub, hsub, hback⟩
      · exact hnot hmem
      · exact h.acyclic m (.head' ((refers_of_get? hget).2 hsub) hback)
    refine ⟨.snoc hsubs.listed hnew hm fun sub hsub => hsubs.roots_subset ((refers_of_get? hget).1 hsub),
      fun x hx => List.mem_append_left _ (hsubs.subset hx), by simp, fun x hx => ?_⟩
    rcases List.mem_append.1 hx with hx | hx
    · rcases hsubs.from_roots x hx with hx | ⟨sub, hsub, hpath⟩
      · exact .inl hx
      · exact .inr ⟨m, by simp, .head ((refers_of_get? hget).2 hsub) hpath⟩
    · exact .inr ⟨m, by simp, List.mem_singleton.1 hx ▸ .refl⟩

/-- Depths that references do not exceed give the same list. -/
theorem postOrder_congr {depth depth' : Nat} (hw : p.Within depth m) (hw' : p.Within depth' m)
    (done : List ModuleId) : p.postOrder depth m done = p.postOrder depth' m done := by
  induction depth generalizing depth' m done with
  | zero => exact hw.elim
  | succ depth ih =>
    cases depth' with
    | zero => exact hw'.elim
    | succ depth' =>
      rw [postOrder, postOrder]
      split
      · rfl
      split
      · rfl
      rename_i module hget
      rw [List.foldl_ext _ _ _ fun done sub hsub => ?_]
      have hsub : p.Refers m sub := (refers_of_get? hget).2 hsub
      exact ih (hw sub hsub) (hw' sub hsub) done

theorem postOrder_eq_reachable (h : Arranged p) {depth : Nat} (hdepth : p.modules.size < depth) :
    p.postOrder depth p.main [] = p.reachable := by
  obtain ⟨module, hm⟩ := h.main_live
  have hlive : (p.get? p.main).isSome := by simp [hm]
  exact postOrder_congr (h.within hlive hdepth) (h.within hlive (Nat.lt_succ_self _)) []

theorem reachable_extended (h : Arranged p) : Extended p [] [p.main] p.reachable := by
  obtain ⟨module, hm⟩ := h.main_live
  have hlive : (p.get? p.main).isSome := by simp [hm]
  exact postOrder_extended h _ p.main [] (h.within hlive (Nat.lt_succ_self _)) hlive .nil

/-- The modules listed are those that references lead to from the entry. -/
theorem mem_reachable (h : Arranged p) : m ∈ p.reachable ↔ ReflTransGen p.Refers p.main m := by
  have he := reachable_extended h
  constructor
  · intro hm
    rcases he.from_roots m hm with hm | ⟨r, hr, hpath⟩
    · cases hm
    · exact List.mem_singleton.1 hr ▸ hpath
  · intro hpath
    induction hpath with
    | refl => exact he.roots_subset (by simp)
    | tail _ hs ih => exact he.listed.closed ih hs

theorem not_refers_main (h : Arranged p) (hm : m ∈ p.reachable) : ¬ p.Refers m p.main := fun hr =>
  h.acyclic p.main (.tail' ((mem_reachable h).1 hm) hr)

/-- The entry comes last. -/
theorem reachable_eq (h : Arranged p) :
    ∃ front, p.reachable = front ++ [p.main] ∧ Listed p front ∧ p.main ∉ front := by
  have he := reachable_extended h
  have hmain : p.main ∈ p.reachable := he.roots_subset (by simp)
  have hpath := fun x (hx : x ∈ p.reachable) => (mem_reachable h).1 hx
  have hlisted := he.listed
  generalize p.reachable = l at hmain hpath hlisted ⊢
  cases hlisted with
  | nil => cases hmain
  | @snoc done m hd hm hlive hsubs =>
    have heq : m = p.main := by
      by_contra hne
      have hin : p.main ∈ done := by simpa [Ne.symm hne] using hmain
      have hclosed : ∀ x, ReflTransGen p.Refers p.main x → x ∈ done := fun x hx => by
        induction hx with
        | refl => exact hin
        | tail _ hs ih => exact hd.closed ih hs
      exact hm (hclosed m (hpath m (by simp)))
    exact ⟨done, by rw [heq], hd, heq ▸ hm⟩

end Program
end TensorGraph
