import Mathlib.Data.List.Forall2
import TensorGraph.Error

/-! When a computation that may fail ends with a given result, and when it does not break down. -/
namespace TensorGraph.Except
variable {ε α β γ : Type}

theorem ok_bind (a : α) (f : α → Except ε β) : (.ok a >>= f) = f a := rfl

/-- A computation that is known to end well goes on with its result. -/
theorem bind_of_ok {x : Except ε α} {a : α} (h : x = .ok a) (f : α → Except ε β) : x >>= f = f a := by
  rw [h, ok_bind]

theorem bind_eq_ok {x : Except ε α} {f : α → Except ε β} {b : β} :
    x >>= f = .ok b ↔ ∃ a, x = .ok a ∧ f a = .ok b := by
  cases x <;> simp [bind, Except.bind]

theorem bind_eq_error {x : Except ε α} {f : α → Except ε β} {e : ε} :
    x >>= f = .error e ↔ x = .error e ∨ ∃ a, x = .ok a ∧ f a = .error e := by
  cases x <;> simp [bind, Except.bind]

theorem seq_eq_ok {x : Except ε Unit} {y : Except ε β} {b : β} :
    (x >>= fun _ => y) = .ok b ↔ x = .ok () ∧ y = .ok b := by
  cases x <;> simp [bind, Except.bind]

@[simp] theorem pure_eq_ok {a b : α} : (pure a : Except ε α) = .ok b ↔ a = b := by
  simp [pure, Except.pure]

@[simp] theorem pure_ne_error {a : α} {e : ε} : (pure a : Except ε α) ≠ .error e := by
  simp [pure, Except.pure]

theorem lift_eq_ok {x : Except Fault α} {a : α} :
    (liftM x : Except Failure α) = .ok a ↔ x = .ok a := by
  cases x <;> simp [liftM, monadLift, MonadLift.monadLift]

/-- A fault is no refusal. -/
theorem lift_ne_refused {x : Except Fault α} {error : GraphError} :
    (liftM x : Except Failure α) ≠ .error (.refused error) := by
  intro h
  cases x <;> cases h

theorem inRange_eq_ok {o : Option α} {a : α} : Fault.inRange o = .ok a ↔ o = some a := by
  cases o <;> simp [Fault.inRange]

theorem forM_eq_ok {f : α → Except ε Unit} {l : List α} :
    l.forM f = .ok () ↔ ∀ a ∈ l, f a = .ok () := by
  induction l with
  | nil => simp
  | cons a l ih =>
    rw [List.forM, bind_eq_ok, List.forall_mem_cons]
    exact ⟨fun ⟨_, ha, h⟩ => ⟨ha, ih.1 h⟩, fun ⟨ha, h⟩ => ⟨(), ha, ih.2 h⟩⟩

theorem exists_of_forM_eq_error {f : α → Except ε Unit} {l : List α} {e : ε}
    (h : l.forM f = .error e) : ∃ a ∈ l, f a = .error e := by
  induction l with
  | nil => cases h
  | cons a l ih =>
    rw [List.forM, bind_eq_error] at h
    rcases h with h | ⟨_, -, h⟩
    · exact ⟨a, List.mem_cons_self, h⟩
    · obtain ⟨b, hb, he⟩ := ih h
      exact ⟨b, List.mem_cons_of_mem a hb, he⟩

/-- A check of every element ends well if the check of each of them does. -/
theorem exists_allM {f : α → Except ε Bool} {l : List α} (h : ∀ a ∈ l, ∃ b, f a = .ok b) :
    ∃ b, l.allM f = .ok b := by
  induction l with
  | nil => exact ⟨true, rfl⟩
  | cons a l ih =>
    obtain ⟨⟨b, hb⟩, hl⟩ := List.forall_mem_cons.1 h
    rw [List.allM, hb]
    cases b with
    | true => exact ih hl
    | false => exact ⟨false, rfl⟩

theorem mapM_eq_ok {f : α → Except ε β} {l : List α} {bs : List β} :
    l.mapM f = .ok bs ↔ List.Forall₂ (fun a b => f a = .ok b) l bs := by
  induction l generalizing bs with
  | nil => simp [pure, Except.pure, eq_comm]
  | cons a l ih =>
    simp only [List.mapM_cons, bind_eq_ok, pure_eq_ok, ih, List.forall₂_cons_left_iff]
    constructor
    · rintro ⟨b, hb, bs, hbs, rfl⟩
      exact ⟨b, bs, hb, hbs, rfl⟩
    · rintro ⟨b, bs, hb, hbs, rfl⟩
      exact ⟨b, hb, bs, hbs, rfl⟩

theorem exists_of_mem_right {R : α → β → Prop} {l : List α} {l' : List β} (h : List.Forall₂ R l l')
    {b : β} (hb : b ∈ l') : ∃ a ∈ l, R a b := by
  induction h with
  | nil => cases hb
  | @cons a b' l l' hr _ ih =>
    rcases List.mem_cons.1 hb with rfl | hb
    · exact ⟨a, List.mem_cons_self, hr⟩
    · obtain ⟨a, ha, hr⟩ := ih hb
      exact ⟨a, List.mem_cons_of_mem _ ha, hr⟩

theorem exists_of_mem_left {R : α → β → Prop} {l : List α} {l' : List β} (h : List.Forall₂ R l l')
    {a : α} (ha : a ∈ l) : ∃ b ∈ l', R a b :=
  exists_of_mem_right (R := fun b a => R a b) (List.Forall₂.flip h) ha

theorem exists_of_mem_mapM {f : α → Except ε β} {l : List α} {bs : List β} {b : β}
    (h : l.mapM f = .ok bs) (hb : b ∈ bs) : ∃ a ∈ l, f a = .ok b :=
  exists_of_mem_right (mapM_eq_ok.1 h) hb

theorem of_mapM_eq_ok {f : α → Except ε β} {l : List α} {bs : List β} (h : l.mapM f = .ok bs) {a : α}
    (ha : a ∈ l) : ∃ b, f a = .ok b := by
  obtain ⟨b, -, hb⟩ := exists_of_mem_left (mapM_eq_ok.1 h) ha
  exact ⟨b, hb⟩

/-- What every step keeps, the whole run keeps. -/
theorem foldlM_keeps {f : β → α → Except ε β} {P : β → Prop} {l : List α} {b c : β}
    (h : l.foldlM f b = .ok c) (hb : P b) (hstep : ∀ b a b', a ∈ l → P b → f b a = .ok b' → P b') :
    P c := by
  induction l generalizing b with
  | nil =>
    cases h
    exact hb
  | cons a l ih =>
    rw [List.foldlM_cons, bind_eq_ok] at h
    obtain ⟨b', hab, h⟩ := h
    refine ih h (hstep b a b' List.mem_cons_self hb hab) fun b a b' ha => ?_
    exact hstep b a b' (List.mem_cons_of_mem _ ha)

theorem exists_of_mapM_eq_error {f : α → Except ε β} {l : List α} {e : ε}
    (h : l.mapM f = .error e) : ∃ a ∈ l, f a = .error e := by
  induction l with
  | nil => cases h
  | cons a l ih =>
    rw [List.mapM_cons, bind_eq_error] at h
    rcases h with h | ⟨_, -, h⟩
    · exact ⟨a, List.mem_cons_self, h⟩
    · rcases bind_eq_error.1 h with h | ⟨_, -, h⟩
      · obtain ⟨b, hb, he⟩ := ih h
        exact ⟨b, List.mem_cons_of_mem a hb, he⟩
      · cases h

theorem mapM_eq_ok_map {f : α → Except ε β} {g : α → β} {l : List α}
    (h : ∀ a ∈ l, f a = .ok (g a)) : l.mapM f = .ok (l.map g) := by
  rw [mapM_eq_ok, List.forall₂_map_right_iff, List.forall₂_same]
  exact h

/-- The results for the numbers below `n`, each at its place. -/
theorem getElem?_of_mapM_range {f : Nat → Except ε β} {n : Nat} {bs : List β}
    (h : (List.range n).mapM f = .ok bs) :
    bs.length = n ∧ ∀ i b, bs[i]? = some b → f i = .ok b := by
  have hall := mapM_eq_ok.1 h
  have hlen : bs.length = n := by rw [← hall.length_eq, List.length_range]
  refine ⟨hlen, fun i b hb => ?_⟩
  obtain ⟨hi, rfl⟩ := List.getElem?_eq_some_iff.1 hb
  have hget := List.forall₂_iff_get.1 hall |>.2 i (by simpa [hlen] using hi) hi
  simpa using hget

theorem mapM_eq_of_forall₂ {f : α → Except ε γ} {g : β → Except ε γ} {l : List α} {l' : List β}
    (h : List.Forall₂ (fun a b => g b = f a) l l') : l'.mapM g = l.mapM f := by
  induction h with
  | nil => rfl
  | cons hab _ ih => rw [List.mapM_cons, List.mapM_cons, hab, ih]

theorem exists_mapM_forall₂ {f : α → Except ε β} {R : α → β → Prop} {l : List α}
    (h : ∀ a ∈ l, ∃ b, f a = .ok b ∧ R a b) : ∃ bs, l.mapM f = .ok bs ∧ List.Forall₂ R l bs := by
  induction l with
  | nil => exact ⟨[], rfl, .nil⟩
  | cons a l ih =>
    obtain ⟨b, hb, hr⟩ := h a (by simp)
    obtain ⟨bs, hbs, hrs⟩ := ih fun c hc => h c (by simp [hc])
    exact ⟨b :: bs, by rw [List.mapM_cons, hb, hbs]; rfl, .cons hr hrs⟩

theorem exists_mapM_eq_ok {f : α → Except ε β} {l : List α} (h : ∀ a ∈ l, ∃ b, f a = .ok b) :
    ∃ bs, l.mapM f = .ok bs := by
  obtain ⟨bs, hbs, -⟩ := exists_mapM_forall₂ (R := fun _ _ => True) fun a ha =>
    (h a ha).imp fun _ hb => ⟨hb, trivial⟩
  exact ⟨bs, hbs⟩

/-- The computation does not break down, and a value that it gives satisfies `Q`. -/
def Safe (x : Except Failure α) (Q : α → Prop) : Prop :=
  match x with
  | .ok a => Q a
  | .error (.refused _) => True
  | .error (.broken _) => False

@[simp] theorem safe_ok (a : α) (Q : α → Prop) : Safe (.ok a) Q ↔ Q a := Iff.rfl

@[simp] theorem safe_pure (a : α) (Q : α → Prop) : Safe (pure a) Q ↔ Q a := Iff.rfl

@[simp] theorem safe_refuse (error : GraphError) (Q : α → Prop) : Safe (refuse error) Q :=
  trivial

@[simp] theorem safe_bind (x : Except Failure α) (f : α → Except Failure β) (Q : β → Prop) :
    Safe (x >>= f) Q ↔ Safe x fun a => Safe (f a) Q := by
  rcases x with (_ | _) | _ <;> exact Iff.rfl

theorem safe_lift (x : Except Fault α) (Q : α → Prop) :
    Safe (liftM x) Q ↔ ∃ a, x = .ok a ∧ Q a := by
  cases x with
  | ok a => exact ⟨fun h => ⟨a, rfl, h⟩, fun ⟨b, hb, h⟩ => by cases hb; exact h⟩
  | error f => exact ⟨False.elim, fun ⟨b, hb, _⟩ => by cases hb⟩

theorem Safe.mono {x : Except Failure α} {Q R : α → Prop} (h : Safe x Q) (hQ : ∀ a, Q a → R a) :
    Safe x R := by
  rcases x with (_ | _) | a
  · trivial
  · exact h
  · exact hQ a h

theorem Safe.ok {x : Except Failure α} {Q : α → Prop} {a : α} (h : Safe x Q) (hx : x = .ok a) : Q a := by
  subst hx
  exact h

theorem Safe.refused {x : Except Failure α} {Q : α → Prop} {e : Failure} (h : Safe x Q)
    (hx : x = .error e) : ∃ error, e = .refused error := by
  subst hx
  cases e with
  | refused error => exact ⟨error, rfl⟩
  | broken f => exact False.elim h

theorem safe_mapM {f : α → Except Failure β} {R : α → β → Prop} {l : List α}
    (h : ∀ a ∈ l, Safe (f a) (R a)) : Safe (l.mapM f) (List.Forall₂ R l) := by
  induction l with
  | nil => exact .nil
  | cons a l ih =>
    rw [List.mapM_cons, safe_bind]
    refine (h a List.mem_cons_self).mono fun b hb => ?_
    rw [safe_bind]
    exact (ih fun c hc => h c (List.mem_cons_of_mem _ hc)).mono fun bs hbs => .cons hb hbs

theorem safe_if {c : Prop} [Decidable c] {x y : Except Failure α} {Q : α → Prop}
    (hx : c → Safe x Q) (hy : ¬ c → Safe y Q) : Safe (if c then x else y) Q := by
  split
  · exact hx ‹_›
  · exact hy ‹_›

theorem safe_seq {x : Except Failure Unit} {y : Except Failure α} {P : Prop} {Q : α → Prop}
    (hx : Safe x fun _ => P) (hy : P → Safe y Q) : Safe (x >>= fun _ => y) Q := by
  rw [safe_bind]
  exact hx.mono fun _ h => hy h

theorem safe_forM {f : α → Except Failure Unit} {P : α → Prop} {l : List α}
    (h : ∀ a ∈ l, Safe (f a) fun _ => P a) : Safe (l.forM f) fun _ => ∀ a ∈ l, P a := by
  induction l with
  | nil => exact nofun
  | cons a l ih =>
    rw [List.forM]
    refine safe_seq (h a List.mem_cons_self) fun ha => ?_
    refine (ih fun b hb => h b (List.mem_cons_of_mem _ hb)).mono fun _ hl => ?_
    exact List.forall_mem_cons.2 ⟨ha, hl⟩

end TensorGraph.Except
