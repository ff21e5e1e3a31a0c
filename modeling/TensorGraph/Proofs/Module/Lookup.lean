import TensorGraph.Module.Edit
import TensorGraph.Proofs.Arena
import TensorGraph.Proofs.Except

/-! What a module holds after each of the changes that edits are made of. Users are looked at apart
from the rest of an instruction, which is its `core`. -/
namespace TensorGraph

theorem InstructionId.index_inj {i j : InstructionId} : i.index = j.index ↔ i = j := by
  cases i; cases j; simp

namespace Instruction

/-- An instruction without its users, which the inputs of the others determine. -/
def core (n : Instruction) : Instruction := { n with users := [] }

theorem op_eq_of_core {n k : Instruction} (h : n.core = k.core) : n.op = k.op := by
  have ho := congrArg Instruction.op h
  exact ho

theorem parameter?_eq_of_core {n k : Instruction} (h : n.core = k.core) :
    n.parameter? = k.parameter? := by
  have hp := congrArg Instruction.parameter? h
  exact hp

@[simp] theorem core_addUser (n : Instruction) (u : InstructionId) : (n.addUser u).core = n.core := by
  unfold addUser
  split <;> rfl

@[simp] theorem core_removeUser (n : Instruction) (u : InstructionId) :
    (n.removeUser u).core = n.core := rfl

theorem mem_users_addUser {n : Instruction} {u v : InstructionId} :
    v ∈ (n.addUser u).users ↔ v = u ∨ v ∈ n.users := by
  unfold addUser
  split
  · rename_i h
    exact ⟨Or.inr, fun hv => hv.elim (fun e => e ▸ h) id⟩
  · simp [or_comm]

theorem mem_users_removeUser {n : Instruction} {u v : InstructionId} :
    v ∈ (n.removeUser u).users ↔ v ∈ n.users ∧ v ≠ u := by
  simp [removeUser]

theorem nodup_users_addUser {n : Instruction} (u : InstructionId) (h : n.users.Nodup) :
    (n.addUser u).users.Nodup := by
  unfold addUser
  split
  · exact h
  · rename_i hu
    simpa [List.nodup_append, h] using fun v hv (e : v = u) => hu (e ▸ hv)

theorem nodup_users_removeUser {n : Instruction} (u : InstructionId) (h : n.users.Nodup) :
    (n.removeUser u).users.Nodup :=
  h.filter _

end Instruction

namespace Module

/-- What is stored under a number, without its users. -/
def core? (m : Module) (i : InstructionId) : Option Instruction :=
  (m.get? i).map Instruction.core

theorem inputsOf_eq_core (m : Module) (i : InstructionId) :
    m.inputsOf i = ((m.core? i).map Instruction.inputs).getD [] := by
  simp only [inputsOf, core?]
  cases m.get? i <;> rfl

theorem inputsOf_of_get? {m : Module} {i : InstructionId} {n : Instruction}
    (h : m.get? i = some n) : m.inputsOf i = n.inputs := by
  simp [inputsOf, h]

theorem usersOf_of_get? {m : Module} {i : InstructionId} {n : Instruction}
    (h : m.get? i = some n) : m.usersOf i = n.users := by
  simp [usersOf, h]

theorem core?_of_get? {m : Module} {i : InstructionId} {n : Instruction}
    (h : m.get? i = some n) : m.core? i = some n.core := by
  simp [core?, h]

theorem isSome_core? (m : Module) (i : InstructionId) : (m.core? i).isSome = (m.get? i).isSome := by
  simp [core?]

theorem contains_eq_isSome (m : Module) (i : InstructionId) : m.contains i = (m.get? i).isSome := rfl

theorem get_eq_ok_iff {m : Module} {i : InstructionId} {n : Instruction} :
    m.get i = .ok n ↔ m.get? i = some n :=
  Arena.get_eq_ok_iff

theorem mem_ids {m : Module} {i : InstructionId} : i ∈ m.ids ↔ (m.get? i).isSome := by
  simp only [ids, List.mem_map, Prod.exists, Option.isSome_iff_exists, get?]
  constructor
  · rintro ⟨k, n, h, rfl⟩
    exact ⟨n, Arena.mem_entries.1 h⟩
  · rintro ⟨n, h⟩
    exact ⟨i.index, n, Arena.mem_entries.2 h, rfl⟩

theorem nodup_ids (m : Module) : m.ids.Nodup := by
  have h := Arena.nodup_entries m.instructions
  rw [List.Nodup, List.pairwise_map] at h
  rw [ids, List.Nodup, List.pairwise_map]
  exact h.imp fun hne he => hne (InstructionId.index_inj.2 he)

theorem get?_nextId (m : Module) : m.get? m.nextId = none :=
  Arena.get?_eq_none_of_le (Nat.le_refl _)

/-- The shape of an instruction, for those that are there. -/
def shapeOf (m : Module) (i : InstructionId) : Shape :=
  ((m.core? i).map Instruction.shape).getD (.tuple [])

theorem shapeOf_of_get? {m : Module} {i : InstructionId} {n : Instruction}
    (h : m.get? i = some n) : m.shapeOf i = n.shape := by
  simp [shapeOf, core?_of_get? h, Instruction.core]

theorem shapesOf_eq_ok_iff {m : Module} {is : List InstructionId} {ss : List Shape} :
    m.shapesOf is = .ok ss ↔ (∀ i ∈ is, (m.get? i).isSome) ∧ ss = is.map m.shapeOf := by
  simp only [shapesOf, Except.mapM_eq_ok, Except.bind_eq_ok, Except.pure_eq_ok, get_eq_ok_iff]
  induction is generalizing ss with
  | nil => simp
  | cons i is ih =>
    simp only [List.forall₂_cons_left_iff, ih, List.forall_mem_cons, List.map_cons]
    constructor
    · rintro ⟨s, ss, ⟨n, hn, rfl⟩, ⟨hl, rfl⟩, rfl⟩
      exact ⟨⟨by simp [hn], hl⟩, by rw [shapeOf_of_get? hn]⟩
    · rintro ⟨⟨hi, hl⟩, rfl⟩
      obtain ⟨n, hn⟩ := Option.isSome_iff_exists.1 hi
      exact ⟨_, _, ⟨n, hn, (shapeOf_of_get? hn).symm⟩, ⟨hl, rfl⟩, rfl⟩

theorem output?_eq_some {m : Module} {i : InstructionId} :
    m.output? = some i ↔ m.last? = some i ∧ ∃ n, m.get? i = some n ∧ n.op.isOutput = true := by
  simp [output?, Option.filter_eq_some_iff, Option.any_eq_true]

theorem get?_update (m : Module) (i : InstructionId) (f : Instruction → Instruction)
    (j : InstructionId) :
    (m.update i f).get? j = if j = i then (m.get? j).map f else m.get? j := by
  simp only [update, get?, Arena.get?_modify, InstructionId.index_inj]

@[simp] theorem order_update (m : Module) (i : InstructionId) (f : Instruction → Instruction) :
    (m.update i f).order = m.order := rfl

@[simp] theorem name_update (m : Module) (i : InstructionId) (f : Instruction → Instruction) :
    (m.update i f).name = m.name := rfl

@[simp] theorem size_update (m : Module) (i : InstructionId) (f : Instruction → Instruction) :
    (m.update i f).instructions.size = m.instructions.size := rfl

@[simp] theorem nextId_update (m : Module) (i : InstructionId) (f : Instruction → Instruction) :
    (m.update i f).nextId = m.nextId := by
  simp [nextId, update]

/-- Changes that agree with `m` except for what is stored under numbers in use. -/
structure SameFrame (m m' : Module) : Prop where
  order : m'.order = m.order
  name : m'.name = m.name
  size : m'.instructions.size = m.instructions.size
  nextId : m'.nextId = m.nextId

theorem SameFrame.refl (m : Module) : SameFrame m m := ⟨rfl, rfl, rfl, rfl⟩

theorem SameFrame.trans {m m' m'' : Module} (h : SameFrame m m') (h' : SameFrame m' m'') :
    SameFrame m m'' :=
  ⟨h'.order.trans h.order, h'.name.trans h.name, h'.size.trans h.size, h'.nextId.trans h.nextId⟩

theorem sameFrame_update (m : Module) (i : InstructionId) (f : Instruction → Instruction) :
    SameFrame m (m.update i f) :=
  ⟨rfl, rfl, rfl, nextId_update m i f⟩

theorem sameFrame_foldl_update (f : InstructionId → Instruction → Instruction)
    (is : List InstructionId) (m : Module) :
    SameFrame m (is.foldl (fun m i => m.update i (f i)) m) := by
  induction is generalizing m with
  | nil => exact .refl m
  | cons i is ih => exact (sameFrame_update m i (f i)).trans (ih _)

theorem sameFrame_link (m : Module) (u : InstructionId) (is : List InstructionId) :
    SameFrame m (m.link u is) :=
  sameFrame_foldl_update (fun _ n => n.addUser u) is m

theorem sameFrame_unlink (m : Module) (u : InstructionId) (is : List InstructionId) :
    SameFrame m (m.unlink u is) :=
  sameFrame_foldl_update (fun _ n => n.removeUser u) is m

/-- A change that gives the same twice is made once to each member of a list. -/
theorem get?_foldl_update (f : Instruction → Instruction) (hf : ∀ n, f (f n) = f n)
    (is : List InstructionId) (m : Module) (j : InstructionId) :
    (is.foldl (fun m i => m.update i f) m).get? j =
      if j ∈ is then (m.get? j).map f else m.get? j := by
  induction is generalizing m with
  | nil => simp
  | cons i is ih =>
    simp only [List.foldl_cons, ih, get?_update]
    by_cases hj : j = i
    · subst hj
      by_cases hm : j ∈ is <;> simp [hm, Function.comp_def, hf]
    · simp [hj]

theorem get?_link (m : Module) (u : InstructionId) (is : List InstructionId) (j : InstructionId) :
    (m.link u is).get? j = if j ∈ is then (m.get? j).map (·.addUser u) else m.get? j := by
  refine get?_foldl_update _ (fun n => ?_) is m j
  have h : u ∈ (n.addUser u).users := Instruction.mem_users_addUser.2 (Or.inl rfl)
  rw [Instruction.addUser, if_pos h]

theorem get?_unlink (m : Module) (u : InstructionId) (is : List InstructionId) (j : InstructionId) :
    (m.unlink u is).get? j = if j ∈ is then (m.get? j).map (·.removeUser u) else m.get? j := by
  refine get?_foldl_update _ (fun n => ?_) is m j
  simp [Instruction.removeUser]

@[simp] theorem core?_link (m : Module) (u : InstructionId) (is : List InstructionId)
    (j : InstructionId) : (m.link u is).core? j = m.core? j := by
  simp only [core?, get?_link]
  split <;> simp [Function.comp_def]

@[simp] theorem core?_unlink (m : Module) (u : InstructionId) (is : List InstructionId)
    (j : InstructionId) : (m.unlink u is).core? j = m.core? j := by
  simp only [core?, get?_unlink]
  split <;> simp [Function.comp_def]

theorem isSome_get?_unlink (m : Module) (u : InstructionId) (is : List InstructionId)
    (j : InstructionId) : ((m.unlink u is).get? j).isSome = (m.get? j).isSome := by
  rw [← isSome_core?, core?_unlink, isSome_core?]

theorem mem_usersOf_link {m : Module} {u : InstructionId} {is : List InstructionId}
    {i v : InstructionId} :
    v ∈ (m.link u is).usersOf i ↔ v ∈ m.usersOf i ∨ v = u ∧ i ∈ is ∧ (m.get? i).isSome := by
  simp only [usersOf, get?_link]
  by_cases hi : i ∈ is
  · cases h : m.get? i with
    | none => simp [hi]
    | some n => simp [hi, Instruction.mem_users_addUser, or_comm]
  · simp [hi]

theorem mem_usersOf_unlink {m : Module} {u : InstructionId} {is : List InstructionId}
    {i v : InstructionId} :
    v ∈ (m.unlink u is).usersOf i ↔ v ∈ m.usersOf i ∧ ¬ (v = u ∧ i ∈ is) := by
  simp only [usersOf, get?_unlink]
  by_cases hi : i ∈ is
  · cases h : m.get? i with
    | none => simp
    | some n => simp [hi, Instruction.mem_users_removeUser]
  · simp [hi]

theorem nodup_usersOf_update {m : Module} {f : Instruction → Instruction} (i : InstructionId)
    (hf : ∀ n, n.users.Nodup → (f n).users.Nodup) (h : ∀ j, (m.usersOf j).Nodup)
    (j : InstructionId) : ((m.update i f).usersOf j).Nodup := by
  have hj := h j
  simp only [usersOf, get?_update] at hj ⊢
  split
  · cases hg : m.get? j with
    | none => simp
    | some n => simpa using hf n (by simpa [hg] using hj)
  · exact hj

private theorem nodup_usersOf_foldl_update {f : Instruction → Instruction}
    (hf : ∀ n, n.users.Nodup → (f n).users.Nodup) (is : List InstructionId) {m : Module}
    (h : ∀ j, (m.usersOf j).Nodup) :
    ∀ j, ((is.foldl (fun m i => m.update i f) m).usersOf j).Nodup := by
  induction is generalizing m with
  | nil => exact h
  | cons i is ih => exact ih (nodup_usersOf_update i hf h)

theorem nodup_usersOf_link {m : Module} (u : InstructionId) (is : List InstructionId)
    (h : ∀ j, (m.usersOf j).Nodup) : ∀ j, ((m.link u is).usersOf j).Nodup :=
  nodup_usersOf_foldl_update (fun _ => Instruction.nodup_users_addUser u) is h

theorem nodup_usersOf_unlink {m : Module} (u : InstructionId) (is : List InstructionId)
    (h : ∀ j, (m.usersOf j).Nodup) : ∀ j, ((m.unlink u is).usersOf j).Nodup :=
  nodup_usersOf_foldl_update (fun _ => Instruction.nodup_users_removeUser u) is h

end Module
end TensorGraph
