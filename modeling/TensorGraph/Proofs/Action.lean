import TensorGraph.Action

/-! What a computation leaves behind, in terms of the computations it is made of. A failure keeps
the state it had reached, so both ways of ending are described. -/
namespace TensorGraph.Action
variable {ε δ σ τ α β : Type}

/-- Started in `s`, the computation ends with a result and a state that satisfy `Q`, or fails with
a failure and a state that satisfy `E`. -/
def Leaves (x : Action ε σ α) (s : σ) (Q : α → σ → Prop) (E : ε → σ → Prop) : Prop :=
  match (x s).result with
  | .ok a => Q a (x s).state
  | .error e => E e (x s).state

theorem Leaves.mono {x : Action ε σ α} {s : σ} {Q Q' : α → σ → Prop} {E E' : ε → σ → Prop}
    (h : x.Leaves s Q E) (hq : ∀ a t, Q a t → Q' a t) (he : ∀ e t, E e t → E' e t) :
    x.Leaves s Q' E' := by
  unfold Leaves at h ⊢
  split <;> rename_i hr <;> rw [hr] at h
  · exact hq _ _ h
  · exact he _ _ h

theorem Leaves.imp {x : Action ε σ α} {s : σ} {Q Q' : α → σ → Prop} {E : ε → σ → Prop}
    (h : x.Leaves s Q E) (hq : ∀ a t, Q a t → Q' a t) : x.Leaves s Q' E :=
  h.mono hq fun _ _ he => he

theorem leaves_of_forall {x : Action ε σ α} {s : σ} {Q : α → σ → Prop} {E : ε → σ → Prop}
    (hq : ∀ a t, Q a t) (he : ∀ e t, E e t) : x.Leaves s Q E := by
  unfold Leaves
  split
  · exact hq _ _
  · exact he _ _

theorem Leaves.ok {x : Action ε σ α} {s : σ} {Q : α → σ → Prop} {E : ε → σ → Prop}
    (h : x.Leaves s Q E) {a : α} (hr : (x s).result = .ok a) : Q a (x s).state := by
  unfold Leaves at h
  rw [hr] at h
  exact h

theorem Leaves.error {x : Action ε σ α} {s : σ} {Q : α → σ → Prop} {E : ε → σ → Prop}
    (h : x.Leaves s Q E) {e : ε} (hr : (x s).result = .error e) : E e (x s).state := by
  unfold Leaves at h
  rw [hr] at h
  exact h

/-- A computation that cannot fail ends with a result. -/
theorem Leaves.exists_ok {x : Action ε σ α} {s : σ} {Q : α → σ → Prop}
    (h : x.Leaves s Q fun _ _ => False) : ∃ a, (x s).result = .ok a ∧ Q a (x s).state := by
  cases hr : (x s).result with
  | ok a => exact ⟨a, rfl, h.ok hr⟩
  | error e => exact (h.error hr).elim

/-- Where a computation ends well, this is with its result. -/
theorem Leaves.result {x : Action ε σ α} {s : σ} {Q : α → σ → Prop} {E : ε → σ → Prop}
    (h : x.Leaves s Q E) :
    x.Leaves s (fun a t => (x s).result = .ok a ∧ t = (x s).state ∧ Q a t) E := by
  unfold Leaves at h ⊢
  split <;> rename_i hr <;> rw [hr] at h
  · exact ⟨hr, rfl, h⟩
  · exact h

theorem leaves_of_result {x : Action ε σ α} {s : σ} {Q : α → σ → Prop} {E : ε → σ → Prop} {a : α}
    (hr : (x s).result = .ok a) (h : Q a (x s).state) : x.Leaves s Q E := by
  unfold Leaves
  rw [hr]
  exact h

theorem Leaves.state {x : Action ε σ α} {s : σ} {P : σ → Prop}
    (h : x.Leaves s (fun _ => P) fun _ => P) : P (x s).state := by
  cases hr : (x s).result with
  | ok a => exact h.ok hr
  | error e => exact h.error hr

theorem leaves_of_state {x : Action ε σ α} {s : σ} {P : σ → Prop} (h : P (x s).state) :
    x.Leaves s (fun _ => P) fun _ => P := by
  unfold Leaves
  split <;> exact h

@[simp] theorem leaves_pure (a : α) (s : σ) (Q : α → σ → Prop) (E : ε → σ → Prop) :
    (Pure.pure a : Action ε σ α).Leaves s Q E ↔ Q a s := Iff.rfl

@[simp] theorem leaves_bind (x : Action ε σ α) (f : α → Action ε σ β) (s : σ)
    (Q : β → σ → Prop) (E : ε → σ → Prop) :
    (x >>= f).Leaves s Q E ↔ x.Leaves s (fun a t => (f a).Leaves t Q E) E := by
  cases hr : (x s).result <;>
    simp only [Leaves, Bind.bind, Action.bind, hr]

theorem Leaves.bind {x : Action ε σ α} {f : α → Action ε σ β} {s : σ} {Q : α → σ → Prop}
    {R : β → σ → Prop} {E : ε → σ → Prop} (hx : x.Leaves s Q E)
    (hf : ∀ a t, Q a t → (f a).Leaves t R E) : (x >>= f).Leaves s R E :=
  (leaves_bind x f s R E).2 (hx.imp hf)

@[simp] theorem leaves_get (s : σ) (Q : σ → σ → Prop) (E : ε → σ → Prop) :
    (Action.get : Action ε σ σ).Leaves s Q E ↔ Q s s := Iff.rfl

@[simp] theorem leaves_set (t s : σ) (Q : Unit → σ → Prop) (E : ε → σ → Prop) :
    (Action.set t : Action ε σ Unit).Leaves s Q E ↔ Q () t := Iff.rfl

@[simp] theorem leaves_modify (f : σ → σ) (s : σ) (Q : Unit → σ → Prop) (E : ε → σ → Prop) :
    (Action.modify f : Action ε σ Unit).Leaves s Q E ↔ Q () (f s) := Iff.rfl

@[simp] theorem leaves_report (event : Event) (s : σ) (Q : Unit → σ → Prop) (E : ε → σ → Prop) :
    (Action.report event : Action ε σ Unit).Leaves s Q E ↔ Q () s := Iff.rfl

@[simp] theorem leaves_refuse (error : GraphError) (s : σ) (Q : α → σ → Prop)
    (E : Failure → σ → Prop) :
    (Action.refuse error : Action Failure σ α).Leaves s Q E ↔ E (.refused error) s := Iff.rfl

theorem leaves_lift (r : Except ε α) (s : σ) (Q : α → σ → Prop) (E : ε → σ → Prop) :
    (liftM r : Action ε σ α).Leaves s Q E ↔
      (∀ a, r = .ok a → Q a s) ∧ ∀ e, r = .error e → E e s := by
  cases r <;> simp [Leaves, liftM, monadLift, MonadLift.monadLift, ofExcept]

@[simp] theorem leaves_ok (a : α) (s : σ) (Q : α → σ → Prop) (E : ε → σ → Prop) :
    (liftM (.ok a : Except ε α) : Action ε σ α).Leaves s Q E ↔ Q a s := Iff.rfl

theorem leaves_liftFault (r : Except Fault α) (s : σ) (Q : α → σ → Prop)
    (E : Failure → σ → Prop) :
    (liftM r : Action Failure σ α).Leaves s Q E ↔
      (∀ a, r = .ok a → Q a s) ∧ ∀ f, r = .error f → E (.broken f) s := by
  cases r with
  | ok a => exact ⟨fun h => ⟨fun b hb => by cases hb; exact h, by simp⟩, fun h => h.1 a rfl⟩
  | error f => exact ⟨fun h => ⟨by simp, fun g hg => by cases hg; exact h⟩, fun h => h.2 f rfl⟩

/-- A computation that is known to end well goes on with its result. -/
theorem leaves_liftFault_bind {r : Except Fault α} {a : α} (h : r = .ok a)
    (f : α → Action Failure σ β) (s : σ) (Q : β → σ → Prop) (E : Failure → σ → Prop) :
    (liftM r >>= f : Action Failure σ β).Leaves s Q E ↔ (f a).Leaves s Q E := by
  rw [h, leaves_bind]
  exact Iff.rfl

theorem leaves_mapError (f : ε → δ) (x : Action ε σ α) (s : σ) (Q : α → σ → Prop)
    (E : δ → σ → Prop) :
    (x.mapError f).Leaves s Q E ↔ x.Leaves s Q fun e t => E (f e) t := by
  cases hr : (x s).result <;> simp only [Leaves, mapError, hr] <;> exact Iff.rfl

/-- A computation on a part leaves the whole with what it leaves of the part. -/
theorem leaves_onPart {part : σ → Except ε τ} {put : τ → σ → σ} {s : σ} {t : τ} (h : part s = .ok t)
    (x : Action ε τ α) (Q : α → σ → Prop) (E : ε → σ → Prop) :
    (onPart part put x).Leaves s Q E ↔ x.Leaves t (fun a t' => Q a (put t' s)) fun e t' => E e (put t' s) := by
  cases hr : (x t).result <;> simp only [Leaves, onPart, h, hr]

/-- A step for each member, where what holds depends on the members that have had their step. -/
theorem leaves_anyOf_split {step : β → Action ε σ Bool} {P : List β → σ → Prop} {E : ε → σ → Prop}
    (l : List β)
    (h : ∀ done b rest, l = done ++ b :: rest → ∀ s, P done s →
      (step b).Leaves s (fun _ => P (done ++ [b])) E)
    (s : σ) (hs : P [] s) : (anyOf step l).Leaves s (fun _ => P l) E := by
  suffices hrest : ∀ rest done s, l = done ++ rest → P done s →
      (anyOf step rest).Leaves s (fun _ => P l) E from hrest l [] s rfl hs
  intro rest
  induction rest with
  | nil =>
    intro done s hl hs
    simpa [anyOf, hl] using hs
  | cons b rest ih =>
    intro done s hl hs
    simp only [anyOf, leaves_bind, leaves_pure]
    exact (h done b rest hl s hs).imp fun _ t ht => ih (done ++ [b]) t (by simp [hl]) ht

/-- A step for each member keeps what every single step keeps. -/
theorem leaves_anyOf {step : β → Action ε σ Bool} {P : σ → Prop} {E : ε → σ → Prop}
    (l : List β) (h : ∀ b ∈ l, ∀ s, P s → (step b).Leaves s (fun _ => P) E) (s : σ) (hs : P s) :
    (anyOf step l).Leaves s (fun _ => P) E :=
  leaves_anyOf_split l (fun _ b _ hl => h b (by simp [hl])) s hs

/-- Steps that change nothing and say so do so one after another. -/
theorem leaves_anyOf_idle {step : β → Action ε σ Bool} {s : σ} {E : ε → σ → Prop} (l : List β)
    (h : ∀ b ∈ l, (step b).Leaves s (fun changed t => changed = false ∧ t = s) E) :
    (anyOf step l).Leaves s (fun changed t => changed = false ∧ t = s) E := by
  induction l with
  | nil => exact ⟨rfl, rfl⟩
  | cons b rest ih =>
    obtain ⟨hb, hrest⟩ := List.forall_mem_cons.1 h
    simp only [anyOf, leaves_bind, leaves_pure]
    refine hb.imp ?_
    rintro _ s ⟨rfl, rfl⟩
    refine (ih hrest).imp ?_
    rintro _ s ⟨rfl, rfl⟩
    exact ⟨rfl, rfl⟩

theorem leaves_forM_append (f : β → Action ε σ Unit) (l l' : List β) (s : σ) (Q : Unit → σ → Prop)
    (E : ε → σ → Prop) :
    ((l ++ l').forM f).Leaves s Q E ↔
      (l.forM f).Leaves s (fun _ t => (l'.forM f).Leaves t Q E) E := by
  induction l generalizing s with
  | nil => exact Iff.rfl
  | cons b l ih =>
    rw [List.cons_append, List.forM, List.forM, leaves_bind, leaves_bind]
    simp only [ih]

/-- What holds of the state is kept, as long as the computation does not fail. -/
def Maintains (P : σ → Prop) (x : Action ε σ α) : Prop :=
  ∀ s, P s → x.Leaves s (fun _ => P) fun _ _ => True

section Maintains
variable {P : σ → Prop}

theorem Maintains.pure (a : α) : (Pure.pure a : Action ε σ α).Maintains P := fun _ hs => hs

theorem Maintains.get : (Action.get : Action ε σ σ).Maintains P := fun _ hs => hs

theorem Maintains.report (event : Event) : (Action.report event : Action ε σ Unit).Maintains P :=
  fun _ hs => hs

theorem Maintains.liftFault (r : Except Fault α) :
    (liftM r : Action Failure σ α).Maintains P := by
  intro s hs
  rw [leaves_liftFault]
  exact ⟨fun _ _ => hs, fun _ _ => trivial⟩

theorem Maintains.bind {x : Action ε σ α} {f : α → Action ε σ β} (hx : x.Maintains P)
    (hf : ∀ a, (f a).Maintains P) : (x >>= f).Maintains P := by
  intro s hs
  rw [leaves_bind]
  exact (hx s hs).imp fun a t ht => hf a t ht

theorem Maintains.ite {c : Prop} [Decidable c] {x y : Action ε σ α} (hx : x.Maintains P)
    (hy : y.Maintains P) : (if c then x else y).Maintains P := by
  split
  · exact hx
  · exact hy

theorem Maintains.anyOf {step : β → Action ε σ Bool} (h : ∀ b, (step b).Maintains P) (l : List β) :
    (anyOf step l).Maintains P :=
  leaves_anyOf l fun b _ => h b

end Maintains

/-- The computation answers `true`, unless it fails. -/
def Affirms (x : Action ε σ Bool) : Prop :=
  ∀ s, x.Leaves s (fun changed _ => changed = true) fun _ _ => True

theorem Affirms.pure : (Pure.pure true : Action ε σ Bool).Affirms := fun _ => rfl

theorem Affirms.bind {x : Action ε σ α} {f : α → Action ε σ Bool} (hf : ∀ a, (f a).Affirms) :
    (x >>= f).Affirms := by
  intro s
  rw [leaves_bind]
  exact leaves_of_forall hf fun _ _ => trivial

/-- Where the computation answers `false`, it has left the state as it was. -/
def Truthful (x : Action ε σ Bool) : Prop :=
  ∀ s, x.Leaves s (fun changed t => changed = false → t = s) fun _ _ => True

section Truthful

theorem Affirms.truthful {x : Action ε σ Bool} (h : x.Affirms) : x.Truthful := fun s =>
  (h s).imp fun _ _ htrue hfalse => Bool.noConfusion (htrue.symm.trans hfalse)

theorem Truthful.pure (changed : Bool) : (Pure.pure changed : Action ε σ Bool).Truthful :=
  fun _ _ => rfl

/-- What comes after a computation that leaves the state alone. -/
theorem Truthful.bind {x : Action ε σ α} {f : α → Action ε σ Bool} (hx : ∀ s, x.Maintains (· = s))
    (hf : ∀ a, (f a).Truthful) : (x >>= f).Truthful := by
  intro s
  rw [leaves_bind]
  refine (hx s s rfl).imp fun a t ht => ?_
  subst ht
  exact hf a t

theorem Truthful.get {f : σ → Action ε σ Bool} (hf : ∀ s, (f s).Truthful) :
    (Action.get >>= f).Truthful :=
  .bind (fun _ => .get) hf

theorem Truthful.report {event : Event} {f : Unit → Action ε σ Bool} (hf : ∀ u, (f u).Truthful) :
    (Action.report event >>= f).Truthful :=
  .bind (fun _ => .report event) hf

theorem Truthful.liftFault {r : Except Fault α} {f : α → Action Failure σ Bool}
    (hf : ∀ a, (f a).Truthful) : (liftM r >>= f).Truthful :=
  .bind (fun _ => .liftFault r) hf

theorem Truthful.ite {c : Prop} [Decidable c] {x y : Action ε σ Bool} (hx : x.Truthful)
    (hy : y.Truthful) : (if c then x else y).Truthful := by
  split
  · exact hx
  · exact hy

/-- Neither of two computations has changed the state, where both say so. -/
theorem Truthful.or {x y : Action ε σ Bool} (hx : x.Truthful) (hy : y.Truthful) :
    (do let a ← x; let b ← y; return a || b).Truthful := by
  intro s
  simp only [leaves_bind, leaves_pure]
  refine (hx s).imp fun a t ht => (hy t).imp fun b u hu h => ?_
  obtain ⟨ha, hb⟩ := Bool.or_eq_false_iff.1 h
  exact (hu hb).trans (ht ha)

theorem Truthful.anyOf {step : β → Action ε σ Bool} {l : List β}
    (h : ∀ b ∈ l, (step b).Truthful) : (anyOf step l).Truthful := by
  induction l with
  | nil => exact .pure false
  | cons b rest ih => exact .or (h b (by simp)) (ih fun c hc => h c (by simp [hc]))

theorem Truthful.unchanged {x : Action ε σ Bool} (h : x.Truthful) {s : σ}
    (hr : (x s).result = .ok false) : (x s).state = s :=
  (h s).ok hr rfl

end Truthful

/-- Where the computation fails, it leaves the state as it was. -/
def Atomic (x : Action ε σ α) (s : σ) : Prop :=
  ∀ e, (x s).result = .error e → (x s).state = s

theorem Leaves.atomic {x : Action ε σ α} {s : σ} {Q : α → σ → Prop} {E : ε → σ → Prop}
    (h : x.Leaves s Q E) (hE : ∀ e t, E e t → t = s) : x.Atomic s :=
  fun e he => hE e _ (h.error he)

end TensorGraph.Action
