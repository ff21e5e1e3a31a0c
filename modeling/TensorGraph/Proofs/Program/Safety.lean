import TensorGraph.Proofs.Literal
import TensorGraph.Proofs.Operator.Safety
import TensorGraph.Proofs.Program.Reload

/-! Loading never breaks down. A record whose shapes and literals have been checked is built or
refused; whatever has been built when it ends has addressable shapes with a stride for each length. -/
namespace TensorGraph

/-- The shape passed the check of shapes that are read, and so did its sub-shapes. -/
inductive Shape.Checked : Shape → Prop
  | mk {s : Shape} (passed : s.check = .ok s) (all : ∀ t ∈ s.subShapes, Checked t) : Checked s

theorem Shape.Checked.aligned {s : Shape} (h : s.Checked) : s.Aligned := by
  induction h with
  | mk passed _ ih => exact ⟨(of_check_eq_ok passed).2.strides.symm, ih⟩

theorem Shape.Checked.made {s : Shape} (h : s.Checked) : s.Made := by
  induction h with
  | @mk s passed _ ih =>
    obtain ⟨-, hs⟩ := of_check_eq_ok passed
    cases ht : s.isTuple with
    | false => exact Plain.made ⟨fun hd => hs.lens (.inr hd), hs.strides.symm, hs.subs ht⟩
    | true =>
      have hl := hs.lens (.inl ht)
      have hstrides : s.strides = [] := List.length_eq_zero_iff.1 (by rw [← hs.strides, hl]; rfl)
      have hd := hs.dims ht
      obtain ⟨t, lens, strides, dims, subs⟩ := s
      obtain rfl : t = .tuple := by simpa [isTuple] using ht
      obtain rfl : dims = [] := by simpa [isDynamic] using hd
      obtain rfl : lens = [] := hl
      obtain rfl : strides = [] := hstrides
      exact .tuple ih

/-- A shape among the attributes was read, and a literal was made of a shape that was read. -/
def Operator.Checked : Operator → Prop
  | .literal value => ∃ s data, s.Checked ∧ Literal.ofData s data = .ok value
  | .parameter _ shape | .allocate shape => shape.Checked
  | _ => True

theorem Operator.Checked.aligned {op : Operator} (h : op.Checked) : op.Aligned := by
  cases op with
  | literal value =>
    obtain ⟨s, data, hs, hv⟩ := h
    rw [Operator.Aligned, (Literal.of_ofData_eq_ok hv).1]
    exact hs.aligned.asStandard
  | parameter name shape => exact Shape.Checked.aligned h
  | allocate shape => exact Shape.Checked.aligned h
  | _ => trivial

theorem Operator.Checked.made {op : Operator} (h : op.Checked) : op.Made := by
  cases op with
  | literal value =>
    obtain ⟨s, data, hs, hv⟩ := h
    exact ⟨s, data, hs.made, hv⟩
  | parameter name shape => exact Shape.Checked.made h
  | allocate shape => exact Shape.Checked.made h
  | _ => trivial

def ProgramRecord.Checked (r : ProgramRecord) : Prop :=
  ∀ op ∈ r.operators, op.Checked

/-- Whatever passes the checks of reading can be made. -/
theorem ProgramRecord.Checked.made {r : ProgramRecord} (h : r.Checked) : r.Made :=
  fun op hop => (h op hop).made

namespace Module
open TensorGraph.Except
variable {m : Module}

private theorem safe_requirePosition (i : InstructionId) :
    Safe (m.requirePosition i) fun p => m.position? i = some p := by
  rw [requirePosition]
  split
  · exact ‹_›
  · exact safe_refuse _ _

private theorem safe_requireFreeName (except : Option InstructionId) (op : Operator) :
    Safe (m.requireFreeName except op) fun _ => True := by
  rw [requireFreeName.eq_def]
  split
  · split
    · exact safe_if (fun _ => trivial) fun _ => safe_refuse _ _
    · trivial
  · trivial

private theorem safe_requirePlace (p : Nat) (op : Operator) :
    Safe (m.requirePlace p op) fun _ => True := by
  rw [requirePlace.eq_def]
  dsimp only
  split
  · exact safe_if (fun _ => safe_refuse _ _) fun _ => trivial
  · refine safe_seq (safe_requireFreeName none _) fun _ => ?_
    exact safe_if (fun _ => safe_refuse _ _) fun _ => trivial
  · exact safe_if (fun _ => safe_refuse _ _) fun _ => trivial

/-- An instruction is placed or refused. -/
theorem safe_checkInsert (hl : Linked m) (p : Nat) {op : Operator} (inputs : List InstructionId)
    {outs : List (List Shape)} (hop : op.Aligned)
    (hshapes : ∀ i n, m.core? i = some n → n.shape.Sound)
    (houts : ∀ shapes ∈ outs, ∀ s ∈ shapes, s.Sound) :
    Safe (m.checkInsert p op inputs outs) fun _ => True := by
  rw [checkInsert]
  refine safe_seq (safe_requirePlace p op) fun _ => safe_seq (safe_forM (P := fun i => (m.get? i).isSome)
    fun i _ => ?_) fun hlive => ?_
  · rw [safe_bind]
    refine (safe_requirePosition i).mono fun q hq => safe_if (fun _ => safe_refuse _ _) fun _ => ?_
    exact (hl.mem_order i).1 (mem_order_of_position? hq)
  · rw [safe_bind, safe_lift]
    refine ⟨_, shapesOf_eq_ok_iff.2 ⟨hlive, rfl⟩, ?_⟩
    refine (op.safe_inferShape hop (fun s hs => ?_) houts).mono fun _ _ => trivial
    obtain ⟨i, hi, rfl⟩ := List.mem_map.1 hs
    obtain ⟨n, hn⟩ := exists_core?_of_live (hlive i hi)
    rw [shapeOf_of_core? hn]
    exact hshapes i n hn

end Module

namespace Program
variable {ops : Set Operator} {p : Program} {owner : ModuleId}

theorem Built.sound (h : Built ops owner p) (hops : ∀ op ∈ ops, op.Aligned) :
    ∀ m module i n, p.get? m = some module → module.core? i = some n → n.shape.Sound :=
  h.shapes fun op hop _ _ _ hins hmods hs => (op.safe_inferShape (hops op hop) hins hmods).ok hs

private theorem safe_checkReferences (p : Program) (owner : ModuleId) (subs : List ModuleId) :
    Except.Safe (p.checkReferences owner subs) fun _ => True := by
  rw [checkReferences]
  split
  · exact Except.safe_refuse _ _
  · refine (Except.safe_mapM (R := fun _ _ => True) fun sub _ => ?_).mono fun _ _ => trivial
    split
    · exact Except.safe_refuse _ _
    · exact Except.safe_if (fun _ => Except.safe_refuse _ _) fun _ => trivial

/-- Whatever building stops at, it is told as an error. -/
theorem Stops.refused_of_aligned {e : Failure} (h : Stops ops p e) (hops : ∀ op ∈ ops, op.Aligned) :
    ∃ error, e = .refused error := by
  cases h with
  | refused error => exact ⟨error, rfl⟩
  | @rejected owner op inputs subs _ hb hop hr =>
    rcases hr with he | ⟨module, outs, hm, houts, he⟩
    · exact (safe_checkReferences p owner subs).refused he
    · have hsound := hb.sound hops
      have hl := fun m module hm => (hb.valid m module hm).linked
      exact (Module.safe_checkInsert (hl owner module hm) _ inputs (hops op hop)
        (fun i n hn => hsound owner module i n hm hn) (forall_outputs hl hsound houts)).refused he

end Program

open Program in
/-- A checked record is built or refused, never anything else, and all shapes that were inferred are
addressable with a stride for each length. What is built has valid modules, references that never run
in a circle, and instructions that hold the output shapes of their sub-modules. -/
theorem ProgramRecord.load_safe_and_sound {r : ProgramRecord} (hr : r.Checked) :
    (r.load.result = .ok () ∨ ∃ error, r.load.result = .error (.refused error)) ∧
      (∀ m module i n, r.load.state.get? m = some module → module.get? i = some n →
        n.shape.Sound) ∧
      (r.load.result = .ok () →
        (∀ m module, r.load.state.get? m = some module → module.validate = .ok ()) ∧
          (∀ m, ¬ Relation.TransGen r.load.state.Refers m m) ∧
            ∀ m ∈ r.load.state.reachable, ∀ module i n, r.load.state.get? m = some module →
              module.get? i = some n → n.moduleOutputs = n.moduleArgs.map r.load.state.outputsOf) := by
  have hops : ∀ op ∈ r.operators, op.Aligned := fun op hop => (hr op hop).aligned
  refine ⟨?_, fun m module i n hm hn => ?_, fun hload => ?_⟩
  · cases hres : r.load.result with
    | ok u => exact .inl rfl
    | error e =>
      obtain ⟨error, rfl⟩ := (stops_of_load hres).refused_of_aligned hops
      exact .inr ⟨error, rfl⟩
  · obtain ⟨owner, hb⟩ := r.built_load
    exact hb.sound hops m module i n.core hm (Module.core?_of_get? hn)
  · have hp := loaded_of_load hload
    refine ⟨fun m module hm => (hp.valid m module hm).validate, hp.acyclic, ?_⟩
    intro m hm module i n hget hn
    have hcore := Module.core?_of_get? hn
    refine hp.current m module i n.core hget hcore fun hmain => ?_
    exact not_refers_main hp.toArranged hm
      (refers_of_core? hget (hp.valid m module hget).linked hcore hmain)

/-- A constant, and a branch whose two sub-modules give outputs of the same layout. -/
def guarded : ProgramRecord :=
  { modules :=
      [{ name := "yes"
         instructions := [{ op := .parameter "x" (.packedOf .float [2, 3]) },
           { op := .transpose [1, 0], inputs := [0] }] },
        { name := "no"
          instructions := [{ op := .literal ⟨.packedOf .double [1], #[1], by decide⟩ },
            { op := .allocate ⟨.float, [3, 2], [1, 3], [], []⟩ }] },
        { name := "main"
          instructions := [{ op := .parameter "c" (.scalar .bool) },
            { op := .branch, inputs := [0], modules := ["yes", "no"] },
            { op := .getTupleElem 0, inputs := [1] }] }] }

private theorem guarded_checked : guarded.Checked := by
  intro op hop
  obtain ⟨m, hm, i, hi, rfl⟩ := hop
  simp only [guarded, List.mem_cons, List.not_mem_nil, or_false] at hm
  rcases hm with rfl | rfl | rfl <;> simp only [List.mem_cons, List.not_mem_nil, or_false] at hi
  · rcases hi with rfl | rfl
    · exact .mk rfl nofun
    · trivial
  · rcases hi with rfl | rfl
    · refine ⟨.packedOf .double [1], #[1], .mk rfl nofun, ?_⟩
      decide +kernel
    · exact .mk rfl nofun
  · rcases hi with rfl | rfl | rfl
    · exact .mk rfl nofun
    · trivial
    · trivial

private theorem load_guarded : guarded.load.result = .ok () := by
  unfold ProgramRecord.load ProgramRecord.build ModuleRecord.buildInto Program.insertWithModules
    Program.checkReferences
  simp only [Program.reaches_eq_getD 8]
  decide +kernel

theorem ProgramRecord.load_safe_and_sound_guarded :
    guarded.Checked ∧ guarded.load.result = .ok () ∧
      (∀ m module i n, guarded.load.state.get? m = some module → module.get? i = some n →
        n.shape.Sound) ∧
      (∀ m module, guarded.load.state.get? m = some module → module.validate = .ok ()) ∧
        (∀ m, ¬ Relation.TransGen guarded.load.state.Refers m m) ∧
          ∀ m ∈ guarded.load.state.reachable, ∀ module i n, guarded.load.state.get? m = some module →
            module.get? i = some n →
              n.moduleOutputs = n.moduleArgs.map guarded.load.state.outputsOf := by
  obtain ⟨-, hshapes, hsound⟩ := ProgramRecord.load_safe_and_sound guarded_checked
  exact ⟨guarded_checked, load_guarded, hshapes, hsound load_guarded⟩

end TensorGraph
