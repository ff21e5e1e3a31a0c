import TensorGraph.Proofs.Literal
import TensorGraph.Proofs.Module.Accepted
import TensorGraph.Proofs.Operator.Elementwise

/-! Instructions that are placed before another one, to take its place in the end. While they are
placed, everything else stays as it is and the operands they start from remain at hand. When its
users have been made to use the last of them, nothing but their inputs has changed. -/
namespace TensorGraph.Module
open TensorGraph.Action
variable {m m' m'' : Module} {root i j new : InstructionId} {n : Instruction} {op : Operator}
  {kind : Operator → Prop} {env : List (InstructionId × Shape)}

/-- Shapes and constants are as they can be made, and fit in memory. -/
structure Proper (m : Module) : Prop where
  shape : ∀ i n, m.core? i = some n → n.shape.WellFormed ∧ n.shape.addressable = true
  constant : ∀ i n value, m.core? i = some n → n.op = .literal value → value.Made

/-- Static shapes and constants as a module lists them. -/
theorem proper_of_order (hl : Linked m) (h : ∀ i ∈ m.order, ∀ n ∈ m.get? i,
    (n.shape.dynamicDims = [] ∧ n.shape.subShapes = [] ∧ n.shape.addressable = true) ∧
      ∀ value ∈ n.literal?, Literal.ofData value.shape value.data = .ok value) : Proper m := by
  have hget : ∀ i n, m.core? i = some n → ∃ k, n = k.core ∧ i ∈ m.order ∧ k ∈ m.get? i := by
    intro i n hn
    obtain ⟨k, hk, rfl⟩ := exists_get?_of_core? hn
    exact ⟨k, rfl, mem_order_of_core? hl hn, hk⟩
  refine ⟨fun i n hn => ?_, fun i n value hn hop => ?_⟩ <;> obtain ⟨k, rfl, hi, hk⟩ := hget i n hn
  · obtain ⟨⟨hd, hs, ha⟩, -⟩ := h i hi k hk
    exact ⟨Shape.wellFormed_of_static hd hs, ha⟩
  · refine ⟨value.shape, value.data, (h i hi k hk).2 value ?_⟩
    replace hop : k.op = .literal value := hop
    simp [Instruction.literal?, hop]

theorem Proper.over (h : Proper m) (hj : (m.get? j).isSome) (ht : (m.shapeOf j).isTuple = false)
    (hd : (m.shapeOf j).isDynamic = false) :
    Shape.Over (m.shapeOf j).elementType (m.shapeOf j).lens (m.shapeOf j) := by
  obtain ⟨k, hk⟩ := exists_core?_of_live hj
  obtain ⟨hw, ha⟩ := h.shape j k hk
  rw [← shapeOf_of_core? hk] at hw ha
  exact ⟨rfl, rfl, by simpa [Shape.isDynamic] using hd, hw.subs ht, ha⟩

theorem Proper.place (h : Proper m) (p : Nat) (hs : n.shape.WellFormed ∧ n.shape.addressable = true)
    (hv : ∀ value, n.op = .literal value → value.Made) : Proper (m.place p n) := by
  refine ⟨fun i k hk => ?_, fun i k value hk hop => ?_⟩ <;> rw [core?_place] at hk <;> split at hk
  · cases hk
    exact hs
  · exact h.shape i k hk
  · cases hk
    exact hv value hop
  · exact h.constant i k value hk hop

/-- An instruction at hand: it has this shape and stands before `root`. -/
def Ready (m : Module) (root : InstructionId) (p : InstructionId × Shape) : Prop :=
  (∃ k, m.core? p.1 = some k ∧ k.shape = p.2) ∧ m.order.idxOf p.1 < m.order.idxOf root

theorem Ready.live {p : InstructionId × Shape} (h : m.Ready root p) : (m.get? p.1).isSome := by
  obtain ⟨k, hk, -⟩ := h.1
  exact live_of_core? hk

/-- An instruction that is used, other than `root`. -/
def Used (m : Module) (root i : InstructionId) : Prop :=
  i ≠ root ∧ m.usersOf i ≠ []

/-- New instructions of some kind stand before `root`, which use each other and what was used before.
The others are as they were. -/
structure Grown (kind : Operator → Prop) (root : InstructionId) (m m' : Module) : Prop where
  accepted : Accepted m'
  proper : Proper m'
  old : ∀ i n, m.core? i = some n → m'.core? i = some n
  new : ∀ i n, m'.core? i = some n → m.core? i = some n ∨
    m.core? i = none ∧ kind n.op ∧ ∀ j ∈ n.inputs, m.Used root j ∨ m.core? j = none
  last : m'.last? = m.last?

/-- While `root` is expanded, these instructions are at hand: operands and new ones. -/
structure Expanding (kind : Operator → Prop) (root : InstructionId) (m : Module)
    (env : List (InstructionId × Shape)) (m' : Module) : Prop extends Grown kind root m m' where
  live : (m.get? root).isSome
  ready : ∀ p ∈ env, m'.Ready root p
  own : ∀ p ∈ env, m.Used root p.1 ∨ m.core? p.1 = none

theorem Grown.live (h : Grown kind root m m') (hi : (m.get? i).isSome) : (m'.get? i).isSome := by
  obtain ⟨n, hn⟩ := exists_core?_of_live hi
  exact live_of_core? (h.old i n hn)

theorem Accepted.input_before (h : Accepted m) (hn : m.get? i = some n) (hj : j ∈ n.inputs) :
    m.usersOf j ≠ [] ∧ m.order.idxOf j < m.order.idxOf i := by
  obtain ⟨-, -, hlt⟩ := h.input_lt hn hj
  have hu : i ∈ m.usersOf j := (h.linked.mem_users j i).2 (inputsOf_of_get? hn ▸ hj)
  exact ⟨List.ne_nil_of_mem hu, hlt⟩

/-- Before an instruction is expanded, earlier ones that are used are at hand. -/
theorem Accepted.expanding (h : Accepted m) (hp : Proper m) (hroot : (m.get? root).isSome)
    (args : List InstructionId)
    (hargs : ∀ j ∈ args, m.usersOf j ≠ [] ∧ m.order.idxOf j < m.order.idxOf root) :
    Expanding kind root m (args.map fun j => (j, m.shapeOf j)) m := by
  have hready : ∀ p ∈ args.map fun j => (j, m.shapeOf j), m.Ready root p ∧ m.Used root p.1 := by
    intro p hp
    obtain ⟨j, hj, rfl⟩ := List.mem_map.1 hp
    obtain ⟨hused, hlt⟩ := hargs j hj
    obtain ⟨u, hu⟩ := List.exists_mem_of_ne_nil _ hused
    obtain ⟨k, hk⟩ := exists_core?_of_live (h.linked.live_input ((h.linked.mem_users j u).1 hu))
    exact ⟨⟨⟨k, hk, (shapeOf_of_core? hk).symm⟩, hlt⟩, fun he => Nat.lt_irrefl _ (he ▸ hlt), hused⟩
  exact ⟨⟨h, hp, fun _ _ hi => hi, fun _ _ hi => .inl hi, rfl⟩, hroot, fun p hp => (hready p hp).1,
    fun p hp => .inl (hready p hp).2⟩

/-- A new instruction that passes the check joins those at hand. -/
theorem Expanding.place (h : Expanding kind root m env m') {p : Nat} (hp : Placeable m' p n)
    (hle : p ≤ m'.order.idxOf root) (hpass : m'.Passes n) (hown : OwnShape n)
    (hs : n.shape.WellFormed ∧ n.shape.addressable = true)
    (hv : ∀ value, n.op = .literal value → value.Made) (hkind : kind n.op)
    (hin : ∀ j ∈ n.inputs, j ∈ env.map Prod.fst) :
    Expanding kind root m ((m'.nextId, n.shape) :: env) (m'.place p n) := by
  have hl := h.accepted.linked
  have hroot : root ∈ m'.order := (hl.mem_order root).2 (h.toGrown.live h.live)
  have hlt : p < m'.order.length := Nat.lt_of_le_of_lt hle (List.idxOf_lt_length_iff.2 hroot)
  have hfresh : m.core? m'.nextId = none := by
    cases hk : m.core? m'.nextId with
    | none => rfl
    | some k =>
      have hlive := live_of_core? (h.old _ k hk)
      rw [get?_nextId] at hlive
      cases hlive
  have hnew := (core?_place m' p n m'.nextId).trans (if_pos rfl)
  refine ⟨⟨(h.accepted.place hp hpass hown).accepted, h.proper.place p hs hv, fun i k hk => ?_,
    fun i k hk => ?_,
    (last?_place hlt n).trans h.last⟩, h.live, ?_, ?_⟩
  · have hk' := h.old i k hk
    rw [core?_place_of_live (live_of_core? hk'), hk']
  · rw [core?_place] at hk
    split at hk
    · rename_i hi
      cases hk
      refine .inr ⟨hi ▸ hfresh, hkind, fun j hj => ?_⟩
      obtain ⟨q, hq, rfl⟩ := List.mem_map.1 (hin j hj)
      exact h.own q hq
    · exact h.new i k hk
  · refine List.forall_mem_cons.2 ⟨⟨⟨_, hnew, rfl⟩, ?_⟩, fun q hq => ?_⟩
    · rw [idxOf_nextId_place hl (Nat.le_of_lt hlt)]
      exact lt_idxOf_place hl hroot hle n
    · have hlive := (h.ready q hq).live
      obtain ⟨⟨k, hk, hs⟩, hidx⟩ := h.ready q hq
      refine ⟨⟨k, by rw [core?_place_of_live hlive, hk], hs⟩, ?_⟩
      rw [idxOf_place hl (Nat.le_of_lt hlt) ((hl.mem_order q.1).2 hlive),
        idxOf_place hl (Nat.le_of_lt hlt) hroot, if_pos hle]
      split <;> omega
  · exact List.forall_mem_cons.2 ⟨.inr hfresh, h.own⟩

/-- An operator on instructions at hand can be placed before `root`. -/
theorem Expanding.insert (h : Expanding kind root m env m') (hop : Plain op)
    (hlit : ∀ value, op ≠ .literal value) (hkind : kind op) (args : List (InstructionId × Shape))
    (hargs : ∀ p ∈ args, p ∈ env) {shape : Shape} (hw : shape.WellFormed)
    (hs : op.inferShape (args.map Prod.snd) [] = .ok shape) :
    (insert root op (args.map Prod.fst)).Leaves m'
      (fun new => Expanding kind root m ((new, shape) :: env)) fun _ _ => False := by
  have hready : ∀ p ∈ args, m'.Ready root p := fun p hp => h.ready p (hargs p hp)
  have hshapes : (args.map Prod.fst).map m'.shapeOf = args.map Prod.snd := by
    rw [List.map_map]
    refine List.map_congr_left fun p hp => ?_
    obtain ⟨⟨k, hk, hs⟩, -⟩ := hready p hp
    exact (shapeOf_of_core? hk).trans hs
  have hin : ∀ i ∈ args.map Prod.fst,
      (m'.get? i).isSome ∧ m'.order.idxOf i < m'.order.idxOf root := by
    intro i hi
    obtain ⟨p, hp, rfl⟩ := List.mem_map.1 hi
    exact ⟨(hready p hp).live, (hready p hp).2⟩
  have hfits : op.inferShape ((args.map Prod.fst).map m'.shapeOf) [] = .ok shape := hshapes ▸ hs
  obtain ⟨hplace, hinsert⟩ := h.accepted.insert_places (h.toGrown.live h.live) hop hin hfits
  refine hinsert.imp ?_
  rintro _ _ ⟨rfl, rfl⟩
  refine h.place hplace (Nat.le_refl _) (.inr hfits) (ownShape_of_inferShape hfits)
    ⟨hw, (Operator.inferShape_eq_ok.1 hs).2⟩ (fun value he => absurd he (hlit value)) hkind
    fun j hj => ?_
  obtain ⟨p, hp, rfl⟩ := List.mem_map.1 hj
  exact List.mem_map_of_mem (hargs p hp)

private theorem plain_of_elementwise {k : Nat} (h : Operator.Elementwise op k) :
    Plain op ∧ ∀ value, op ≠ .literal value := by
  cases h <;> exact ⟨⟨rfl, by simp, rfl⟩, by simp⟩

/-- An elementwise operator on instructions at hand that are alike can be placed before `root`. -/
theorem Expanding.elementwise {t : ElementType} {lens : List Nat} (h : Expanding kind root m env m')
    (hkind : kind op) (a : InstructionId × Shape) (args : List (InstructionId × Shape))
    (hel : Operator.Elementwise op (a :: args).length)
    (hargs : ∀ p ∈ a :: args, p ∈ env ∧ Shape.Over t lens p.2) (ht : t ≠ .tuple)
    (haddr : (Shape.packedOf t lens).addressable = true) :
    (Module.insert root op ((a :: args).map Prod.fst)).Leaves m'
      (fun new m'' => ∃ r, Shape.Over t lens r ∧
        (r = .packedOf t lens ∨ r = a.2 ∧ Shape.Shared a.2.strides ((a :: args).map Prod.snd)) ∧
          Expanding kind root m ((new, r) :: env) m'')
      fun _ _ => False := by
  have hover : ∀ s ∈ a.2 :: args.map Prod.snd, Shape.Over t lens s := by
    rw [← List.map_cons (f := Prod.snd)]
    intro s hs
    obtain ⟨p, hp, rfl⟩ := List.mem_map.1 hs
    exact (hargs p hp).2
  have hlen : Operator.Elementwise op (a.2 :: args.map Prod.snd).length := by simpa using hel
  obtain ⟨r, hr, hrover, hcases⟩ := hlen.inferShape_over ht hover haddr
  obtain ⟨hop, hlit⟩ := plain_of_elementwise hel
  refine (h.insert hop hlit hkind (a :: args) (fun p hp => (hargs p hp).1) hrover.wellFormed hr).imp ?_
  exact fun new m'' h' => ⟨r, hrover, hcases, h'⟩

theorem Expanding.addLiteral (h : Expanding kind root m env m') {value : Literal}
    (hkind : kind (.literal value)) (hvalue : value.Made) (hw : value.shape.WellFormed)
    (ha : value.shape.addressable = true) :
    (addLiteral value).Leaves m' (fun new => Expanding kind root m ((new, value.shape) :: env))
      fun _ _ => False := by
  simp only [Module.addLiteral, leaves_bind, leaves_get, leaves_set, leaves_pure]
  refine h.place (placeable_literal value m') (Nat.zero_le _) (.inl ⟨rfl, rfl⟩) ?_ ⟨hw, ha⟩ ?_ hkind
    (by simp)
  · exact ⟨fun _ hop => by cases hop; rfl, fun _ _ hop => by cases hop⟩
  · exact fun _ hop => by cases hop; exact hvalue

/-- A single element joins those at hand. -/
theorem Expanding.addScalar {t : ElementType} {x : Float} (h : Expanding kind root m env m')
    (hkind : kind (.literal (.scalar t x))) (ht : t ≠ .tuple) :
    (Module.addLiteral (Literal.scalar t x)).Leaves m'
      (fun new => Expanding kind root m ((new, Shape.scalar t) :: env)) fun _ _ => False :=
  h.addLiteral hkind (Literal.made_scalar ht x) (Shape.wellFormed_packedOf t [1])
    (Literal.addressable_scalar t x)

/-- A single element at hand can be repeated. -/
theorem Expanding.insertRepeated {t : ElementType} {lens : List Nat} {l : InstructionId}
    (h : Expanding kind root m env m') (hkind : kind (.multibroadcast lens))
    (hl : (l, .scalar t) ∈ env) (hlens : lens ≠ []) (ht : t ≠ .tuple)
    (ha : (Shape.packedOf t lens).addressable = true) :
    (Module.insert root (.multibroadcast lens) [l]).Leaves m'
      (fun new m'' => ∃ r, Shape.Over t lens r ∧
        (r.isPacked = .ok true → r.strides = Shape.standardStrides lens) ∧
          Expanding kind root m ((new, r) :: env) m'')
      fun _ _ => False := by
  obtain ⟨r, hr, hover, hpacked⟩ := Operator.inferShape_splat hlens ht ha
  refine (h.insert ⟨rfl, by simp, rfl⟩ (by simp) hkind [(l, .scalar t)] (by simpa using hl)
    hover.wellFormed hr).imp fun new m'' h' => ?_
  exact ⟨r, hover, hpacked, h'⟩

/-- What becomes of a module when an instruction is expanded: nothing but inputs has changed of the
others, and it has no users. As the last instruction it is now an identity. -/
structure Expanded (kind : Operator → Prop) (root : InstructionId) (m m' : Module) : Prop where
  upholds : Upholds m m'
  proper : Proper m'
  came : ∀ i n', m'.core? i = some n' →
    (∃ n, m.core? i = some n ∧ n'.op = n.op ∧
      n'.inputs.map m'.shapeOf = n.inputs.map m.shapeOf) ∨
    m.core? i = none ∧ kind n'.op ∨ i = root ∧ n'.op = .identity
  unused : ∀ i, (m.get? i).isSome → i = root ∨ m.usersOf i = [] → m'.usersOf i = []

theorem Grown.upholds (h : Grown kind root m m') : Upholds m m' := by
  refine ⟨h.accepted, fun i n hn => ?_⟩
  obtain ⟨k, hk, he⟩ := exists_get?_of_core? (h.old i n.core (core?_of_get? hn))
  have hs := congrArg Instruction.shape he
  exact ⟨k, hk, hs.symm⟩

theorem Grown.shapeOf_eq (h : Grown kind root m m') (hi : (m.get? i).isSome) :
    m'.shapeOf i = m.shapeOf i := by
  obtain ⟨n, hn⟩ := exists_core?_of_live hi
  rw [shapeOf_of_core? hn, shapeOf_of_core? (h.old i n hn)]

theorem Grown.came (h : Grown kind root m m') (hl : Linked m) (hn : m'.core? i = some n) :
    (∃ k, m.core? i = some k ∧ n.op = k.op ∧ n.inputs.map m'.shapeOf = k.inputs.map m.shapeOf) ∨
      m.core? i = none ∧ kind n.op := by
  rcases h.new i n hn with hold | ⟨hnone, hkind, -⟩
  · refine .inl ⟨n, hold, rfl, List.map_congr_left fun j hj => ?_⟩
    exact h.shapeOf_eq (hl.live_input (inputsOf_of_core? hold ▸ hj))
  · exact .inr ⟨hnone, hkind⟩

theorem Grown.mem_inputsOf (h : Grown kind root m m') (hi : i ∈ m'.inputsOf j) :
    i ∈ m.inputsOf j ∨ m.Used root i ∨ m.core? i = none := by
  obtain ⟨k, hk⟩ := exists_core?_of_live (live_of_mem_inputsOf hi)
  rw [inputsOf_of_core? hk] at hi
  rcases h.new j k hk with hk | ⟨-, -, hin⟩
  · exact .inl (inputsOf_of_core? hk ▸ hi)
  · exact .inr (hin i hi)

/-- Where an instruction is forwarded to an earlier one, it is used no more. -/
theorem Forwarded.mem_inputsOf {old : InstructionId} (hf : Forwarded m old new m') (h : Accepted m)
    (hlt : m.order.idxOf new < m.order.idxOf old) (hi : i ∈ m'.inputsOf j) :
    i = new ∨ i ≠ old ∧ i ∈ m.inputsOf j := by
  by_cases hlast : m.last? = some old
  · cases hf with
    | @replaced _ after _ hr =>
      rw [inputsOf_eq_core, hr.core?_rewire h.linked] at hi
      split at hi
      · replace hi : i ∈ after.inputs := hi
        rw [hr.inputs_eq] at hi
        exact .inl (List.mem_singleton.1 hi)
      · rw [← inputsOf_eq_core] at hi
        refine .inr ⟨?_, hi⟩
        rintro rfl
        exact h.ordered.last_notMem_inputsOf h.linked hlast hi
    | redirected _ _ _ hne _ => exact absurd hlast hne
  · rw [hf.inputsOf_eq h.linked h.ordered hlast hlt] at hi
    obtain ⟨a, ha, rfl⟩ := List.mem_map.1 hi
    split
    · exact .inl rfl
    · exact .inr ⟨‹_›, ha⟩

theorem Forwarded.proper {old : InstructionId} (hf : Forwarded m old new m') (h : Accepted m)
    (hp : Proper m) (hlt : m.order.idxOf new < m.order.idxOf old) (hs : m.shapeOf old = m.shapeOf new) :
    Proper m' := by
  have hne : old ≠ new := fun he => Nat.lt_irrefl _ (he ▸ hlt)
  have hstand := hf.standing h hlt hs
  refine ⟨fun i n' hn' => ?_, fun i n' value hn' hop => ?_⟩
  · rcases hstand.core?_cases h.linked i with ⟨-, hno⟩ | ⟨k, k', hk, hk'⟩
    · cases hn'.symm.trans hno
    · cases hn'.symm.trans hk'
      rw [hstand.shape i k _ hk hn']
      exact hp.shape i k hk
  · rcases hf.core?_cases hne h.linked hn' with
      hk | ⟨k, hk, he, -, -⟩ | ⟨-, -, before, after, hr, rfl⟩
    · exact hp.constant i n' value hk hop
    · rw [he] at hop
      exact hp.constant i k value hk hop
    · cases hr.op_eq.symm.trans hop

/-- An instruction that has been expanded can be replaced by a new one of its shape. -/
theorem Expanding.replaceWith (hm : Accepted m) (h : Expanding kind root m env m')
    (hn : m.core? root = some n) (ho : n.op.isOutput = false) (hnew : (new, n.shape) ∈ env)
    (haddr : n.shape.addressable = true) :
    (replaceWith root new).Leaves m' (fun _ => Expanded kind root m) fun _ _ => False := by
  obtain ⟨⟨k, hk, hs⟩, hlt⟩ := h.ready _ hnew
  have hroot := h.old root n hn
  have hshape : m'.shapeOf root = m'.shapeOf new := by
    rw [shapeOf_of_core? hroot, shapeOf_of_core? hk, hs]
  obtain ⟨a, ha, rfl⟩ := exists_get?_of_core? hroot
  obtain ⟨b, hb, rfl⟩ := exists_get?_of_core? hk
  refine (h.accepted.replaceWith_forwards ha ho hb hs hlt fun _ => hs ▸ haddr).imp ?_
  intro _ m'' hf
  have hstand := hf.standing h.accepted hlt hshape
  have hshapes := hstand.shapeOf_eq h.accepted.linked
  refine ⟨h.toGrown.upholds.trans (hf.upholds h.accepted hlt hshape),
    hf.proper h.accepted h.proper hlt hshape, fun i n' hn' => ?_, ?_⟩
  · have hne : root ≠ new := fun he => Nat.lt_irrefl _ (he ▸ hlt)
    rw [hshapes]
    rcases hf.core?_cases hne h.accepted.linked hn' with
      he | ⟨k, hk, he, -, -⟩ | ⟨rfl, -, before, after, hr, rfl⟩
    · exact (h.toGrown.came hm.linked he).imp_right .inl
    · have hin : n'.inputs.map m'.shapeOf = k.inputs.map m'.shapeOf := by
        rw [he]
        exact map_forward hshape _
      rw [hin, he]
      exact (h.toGrown.came hm.linked hk).imp_right .inl
    · exact .inr (.inr ⟨rfl, hr.op_eq⟩)
  · intro i hi hno
    refine List.eq_nil_iff_forall_not_mem.2 fun u hu => ?_
    have hfree : ¬ (m.Used root i ∨ m.core? i = none) := by
      rintro (⟨hne, hused⟩ | hnone)
      · exact hused (hno.resolve_left hne)
      · rw [← isSome_core?, hnone] at hi
        cases hi
    rcases hf.mem_inputsOf h.accepted hlt ((hstand.linked.mem_users i u).1 hu) with rfl | ⟨hne, hin⟩
    · exact hfree (h.own _ hnew)
    · rcases h.toGrown.mem_inputsOf hin with hin | hin
      · rw [← hm.linked.mem_users, hno.resolve_left hne] at hin
        cases hin
      · exact hfree hin

end TensorGraph.Module
