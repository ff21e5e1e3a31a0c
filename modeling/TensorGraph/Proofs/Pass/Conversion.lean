import TensorGraph.Proofs.Module.Expansion
import TensorGraph.Proofs.Pass.Simplification

/-! One sweep brings conversions into normal form. A conversion that is rewritten is made of what stands
at the beginning of its chain, or is passed over in favour of it; as that is no conversion, later rewrites
disturb no conversion that was visited before. The shapes of a chain compose, so none of them changes. -/
namespace TensorGraph.Pass
open TensorGraph.Action TensorGraph.Module
variable {m m₀ m' : Module} {i root source : InstructionId} {n n' k : Instruction} {t : ElementType}

namespace Convert

/-- The instruction converts something that is no conversion and has another shape. -/
def Direct (m : Module) (n : Instruction) : Prop :=
  ∃ j k, n.inputs = [j] ∧ m.core? j = some k ∧ (∀ u, k.op ≠ .convert u) ∧ k.shape ≠ n.shape

/-- Nothing reads the value, and it is not the last one. -/
def Unread (m : Module) (i : InstructionId) : Prop :=
  (∀ user, i ∉ m.inputsOf user) ∧ m.last? ≠ some i

/-- What the rewrite of a conversion does: other instructions stay what they are, and nothing is read
that was not read before but the source, which is no conversion. -/
structure Rewritten (m : Module) (root source : InstructionId) (m' : Module) : Prop where
  upholds : Upholds m m'
  order : m'.order = m.order
  conversion : ∃ n u, m.core? root = some n ∧ n.op = .convert u
  plain : ∃ k, m.core? source = some k ∧ ∀ u, k.op ≠ .convert u
  others : ∀ i n', i ≠ root → m'.core? i = some n' → ∃ n, m.core? i = some n ∧ n'.op = n.op ∧
    (root ∉ n.inputs → n'.inputs = n.inputs)
  inputs : ∀ user i, i ∈ m'.inputsOf user → i ∈ m.inputsOf user ∨ i = source
  settled : ∀ n' u, m'.core? root = some n' → n'.op = .convert u → Direct m' n' ∨ Unread m' root

/-- A conversion of something that is no conversion never reads the root. -/
theorem Rewritten.direct (h : Rewritten m root source m') (hne : i ≠ root)
    (hn : m.core? i = some n) (hn' : m'.core? i = some n') (hd : Direct m n) : Direct m' n' := by
  obtain ⟨j, k, hin, hk, hplain, hs⟩ := hd
  obtain ⟨r, u, hr, hop⟩ := h.conversion
  have hj : j ≠ root := by
    rintro rfl
    cases hk.symm.trans hr
    exact hplain u hop
  have hinputs : n'.inputs = n.inputs := by
    obtain ⟨_, hi, -, hinputs⟩ := h.others i n' hne hn'
    cases hn.symm.trans hi
    exact hinputs (by simpa [hin] using hj.symm)
  obtain ⟨_, hi, hshape⟩ := h.upholds.core?_kept hn
  cases hn'.symm.trans hi
  obtain ⟨k', hk', hkshape⟩ := h.upholds.core?_kept hk
  obtain ⟨_, hj', hkop, -⟩ := h.others j k' hj hk'
  cases hk.symm.trans hj'
  exact ⟨j, k', hinputs.trans hin, hk', by rwa [hkop], by rwa [hkshape, hshape]⟩

/-- A conversion that nothing reads is not the source. -/
theorem Rewritten.unread (h : Rewritten m root source m') (hn : m.core? i = some n)
    (hop : n.op = .convert t) (hu : Unread m i) : Unread m' i := by
  refine ⟨fun user hi => ?_, ?_⟩
  · rcases h.inputs user i hi with hi | rfl
    · exact hu.1 user hi
    · obtain ⟨k, hk, hplain⟩ := h.plain
      cases hn.symm.trans hk
      exact hplain t hop
  · rw [last?, h.order]
    exact hu.2

section Rewrites
variable (h : Accepted m) (hn : m.get? root = some n) (hop : n.op = .convert t)
  (hk : m.get? source = some k) (hplain : ∀ u, k.op ≠ .convert u)
  (hlt : m.order.idxOf source < m.order.idxOf root)
include h hn hop hk hplain hlt

/-- The root can convert the source instead. -/
theorem replace_rewritten (hs : (Operator.convert t).inferShape [k.shape] [] = .ok n.shape)
    (hne : k.shape ≠ n.shape) :
    (replace root (.convert t) [source]).Leaves m (fun _ m' => Rewritten m root source m')
      fun _ _ => False := by
  have hout : n.op.isOutput = false := hop ▸ rfl
  have hsource : source ≠ root := fun he => Nat.lt_irrefl _ (he ▸ hlt)
  replace hs : (Operator.convert t).inferShape ([source].map m.shapeOf) [] = .ok n.shape := by
    rwa [List.map_singleton, shapeOf_of_get? hk]
  refine (h.replace_leaves hn hout (plain_convert t) (by simpa [hk] using hlt) hs).imp ?_
  rintro _ m' ⟨hl, ho, -, horder, hcore⟩
  refine ⟨h.recompute (core?_of_get? hn) hout rfl hs hl ho horder hcore, horder,
    ⟨_, t, core?_of_get? hn, hop⟩, ⟨_, core?_of_get? hk, hplain⟩, fun i n' hi hn' => ?_,
    fun user i hi => ?_, fun n' u hn' _ => .inl ?_⟩
  · rw [hcore, if_neg hi] at hn'
    exact ⟨n', hn', rfl, fun _ => rfl⟩
  · rw [inputsOf_eq_core, hcore] at hi
    split at hi
    · exact .inr (List.mem_singleton.1 hi)
    · exact .inl (inputsOf_eq_core m user ▸ hi)
  · rw [hcore, if_pos rfl] at hn'
    cases hn'
    refine ⟨source, k.core, rfl, ?_, hplain, hne⟩
    rw [hcore, if_neg hsource, core?_of_get? hk]

/-- A source of the same shape can take the place of the root. -/
theorem replaceWith_rewritten (hs : k.shape = n.shape) (haddr : n.shape.addressable = true) :
    (replaceWith root source).Leaves m (fun _ m' => Rewritten m root source m')
      fun _ _ => False := by
  have hout : n.op.isOutput = false := hop ▸ rfl
  have hne : root ≠ source := fun he => Nat.lt_irrefl _ (he ▸ hlt)
  have hshape : m.shapeOf root = m.shapeOf source := by
    rw [shapeOf_of_get? hn, shapeOf_of_get? hk, hs]
  refine (h.replaceWith_forwards hn hout hk hs hlt fun _ => hs ▸ haddr).imp fun _ m' hf => ?_
  have horder := hf.order_eq h.linked h.ordered hlt
  refine ⟨hf.upholds h hlt hshape, horder, ⟨_, t, core?_of_get? hn, hop⟩,
    ⟨_, core?_of_get? hk, hplain⟩, fun i n' hi hn' => ?_, fun user i hi => ?_, fun n' u hn' hop' => .inr ?_⟩
  · rcases hf.core?_cases hne h.linked hn' with he | ⟨a, ha, he, hold, -⟩ | ⟨he, -⟩
    · exact ⟨n', he, rfl, fun _ => rfl⟩
    · exact ⟨a, ha, by rw [he], fun hno => absurd hold hno⟩
    · exact absurd he hi
  · rcases hf.mem_inputsOf h hlt hi with he | ⟨-, hi⟩
    · exact .inr he
    · exact .inl hi
  · refine ⟨fun user hi => ?_, ?_⟩
    · rcases hf.mem_inputsOf h hlt hi with he | ⟨he, -⟩
      · exact hne he
      · exact he rfl
    · rw [last?, horder]
      intro hlast
      cases hf with
      | replaced _ hr =>
        rw [hr.core?_rewire h.linked, if_pos rfl] at hn'
        cases hn'
        cases hr.op_eq.symm.trans hop'
      | redirected _ _ _ hother _ => exact hother hlast

end Rewrites

/-- The conversions that have been visited are of something that is no conversion and has another shape,
or nothing reads them. -/
structure Normalizing (m₀ : Module) (done : List InstructionId) (m : Module) : Prop where
  upholds : Upholds m₀ m
  order : m.order = m₀.order
  settled : ∀ i ∈ done, ∀ n u, m.core? i = some n → n.op = .convert u → Direct m n ∨ Unread m i

variable {done : List InstructionId}

/-- What need not be rewritten can be passed by. -/
theorem Normalizing.pass (h : Normalizing m₀ done m)
    (hi : ∀ n u, m.core? i = some n → n.op = .convert u → Direct m n) :
    Normalizing m₀ (done ++ [i]) m := by
  refine ⟨h.upholds, h.order, fun j hj n u hn hop => ?_⟩
  rcases List.mem_append.1 hj with hj | hj
  · exact h.settled j hj n u hn hop
  · cases List.mem_singleton.1 hj
    exact .inl (hi n u hn hop)

private theorem Normalizing.rewrite (h : Normalizing m₀ done m) (hr : Rewritten m root source m') :
    Normalizing m₀ (done ++ [root]) m' := by
  refine ⟨h.upholds.trans hr.upholds, hr.order.trans h.order, fun i hi n' u hn' hop => ?_⟩
  by_cases hroot : i = root
  · subst hroot
    exact hr.settled n' u hn' hop
  have hdone : i ∈ done := by simpa [hroot] using hi
  obtain ⟨n, hn, hsame, -⟩ := hr.others i n' hroot hn'
  rw [hsame] at hop
  exact (h.settled i hdone n u hn hop).imp (hr.direct hroot hn hn') (hr.unread hn hop)

private theorem match?_of_not_convert (hn : m.get? i = some n) (hop : ∀ u, n.op ≠ .convert u)
    (p : Pattern) : ((Pattern.name "convert").and p).match? m i = .ok none := by
  have hname : (n.name == "convert") = false := by
    rw [beq_eq_false_iff_ne]
    intro he
    obtain ⟨u, hu⟩ := eq_convert_of_name he
    exact hop u hu
  have hfirst : (Pattern.name "convert").matches? m i [] = .ok (false, []) :=
    hname ▸ Pattern.matches?_name hn "convert"
  exact Pattern.match?_of_matches?
    (Pattern.matches?_and (d := false) (by simp [hn]) hfirst fun hc => by cases hc)

private theorem name_eq_of_convert (hop : n.op = .convert t) : n.name = "convert" := by
  rw [Instruction.name, hop]
  rfl

private theorem match?_of_convert (hn : m.get? i = some n) (hop : n.op = .convert t) {p : Pattern}
    {d : Bool} (hp : p.matches? m i [] = .ok (d, [])) :
    ((Pattern.name "convert").and p).match? m i = .ok (if d then some ⟨i, []⟩ else none) := by
  have hfirst : (Pattern.name "convert").matches? m i [] = .ok (true, []) := by
    rw [Pattern.matches?_name hn, name_eq_of_convert hop]
    rfl
  exact Pattern.match?_of_matches? (Pattern.matches?_and (by simp [hn]) hfirst fun _ => hp)

private theorem Normalizing.visit_other (h : Normalizing m₀ done m) (hn : m.get? i = some n)
    (hop : ∀ u, n.op ≠ .convert u) :
    (Rule.applyFirst [nested, Convert.idle] i).Leaves m (fun _ => Normalizing m₀ (done ++ [i]))
      fun _ _ => False := by
  have hnested : nested.pattern.match? m i = .ok none := match?_of_not_convert hn hop _
  have hidle : Convert.idle.pattern.match? m i = .ok none := match?_of_not_convert hn hop _
  rw [Rule.leaves_applyFirst_of_none hnested, Rule.leaves_applyFirst_of_none hidle]
  refine h.pass fun k u hk hu => ?_
  cases (core?_of_get? hn).symm.trans hk
  exact absurd hu (hop u)

/-- A visit rewrites a conversion, unless it is of something that is no conversion and has another
shape. -/
theorem Normalizing.visit_convert (h : Normalizing m₀ done m) (hn : m.get? i = some n)
    (hop : n.op = .convert t) :
    (Rule.applyFirst [nested, Convert.idle] i).Leaves m (fun _ => Normalizing m₀ (done ++ [i]))
      fun _ _ => False := by
  have hm := h.upholds.accepted
  obtain ⟨j, hin, hfits, -⟩ := inputs_of_convert hm hn hop
  obtain ⟨a, ha, hlt⟩ := hm.input_lt hn (j := j) (by simp [hin])
  have haddr := (Operator.inferShape_eq_ok.1 hfits).2
  have hj : n.inputs[0]? = some j := by simp [hin]
  have hnested : nested.pattern.match? m i = .ok (if a.name == "convert" then some ⟨i, []⟩ else none) :=
    match?_of_convert hn hop (Pattern.matches?_arg hn hj (Pattern.matches?_name ha "convert"))
  have hidle : Convert.idle.pattern.match? m i =
      .ok (if a.shape == n.shape then some ⟨i, []⟩ else none) :=
    match?_of_convert hn hop (Pattern.matches?_sameShapeAsInput hn hj ha)
  by_cases hchain : a.name = "convert"
  · rw [if_pos (beq_iff_eq.2 hchain)] at hnested
    rw [Rule.leaves_applyFirst_of_some hnested]
    refine nested_leaves hm hn hop (fun s k hstart hs => ?_) fun s k hstart hne => ?_
    · exact (replaceWith_rewritten hm hn hop hstart.get hstart.plain hstart.earlier hs haddr).imp
        fun _ _ hr => h.rewrite hr
    · exact (replace_rewritten hm hn hop hstart.get hstart.plain hstart.earlier hstart.shape hne).imp
        fun _ _ hr => h.rewrite hr
  rw [if_neg (by simpa using hchain)] at hnested
  rw [Rule.leaves_applyFirst_of_none hnested]
  have hplain : ∀ u, a.op ≠ .convert u := fun u hu => hchain (name_eq_of_convert hu)
  by_cases hs : a.shape = n.shape
  · rw [if_pos (beq_iff_eq.2 hs)] at hidle
    rw [Rule.leaves_applyFirst_of_some hidle]
    refine idle_leaves hn hj ?_
    exact (replaceWith_rewritten hm hn hop ha hplain hlt hs haddr).imp fun _ _ hr => h.rewrite hr
  · rw [if_neg (by simpa using hs)] at hidle
    rw [Rule.leaves_applyFirst_of_none hidle]
    refine h.pass fun k _ hk _ => ?_
    cases (core?_of_get? hn).symm.trans hk
    exact ⟨j, a.core, hin, core?_of_get? ha, hplain, hs⟩

private theorem normalizing_run (h : Accepted m) :
    conversion.run.Leaves m (fun _ => Normalizing m m.order) fun _ _ => False := by
  have hstart : Normalizing m [] m := ⟨h.upholds, rfl, by simp⟩
  simp only [conversion, ofRules, Rule.sweep, leaves_bind, leaves_get, leaves_pure]
  refine Rule.sweepOver_visits (fun done i rest m' _ _ hv => ⟨fun hi => ?_, fun hi => ?_⟩) hstart
  · exact hv.pass fun n u hn _ => by simpa [hi] using live_of_core? hn
  · obtain ⟨n, hn⟩ := Option.isSome_iff_exists.1 hi
    by_cases hop : ∃ t, n.op = .convert t
    · obtain ⟨t, hop⟩ := hop
      exact hv.visit_convert hn hop
    · exact hv.visit_other hn fun u hu => hop ⟨u, hu⟩

/-- Every conversion that is used, or is the last instruction, has an input that is no conversion and has
another shape. -/
def Normal (m : Module) : Prop :=
  ∀ i n t, m.get? i = some n → n.op = .convert t → n.users ≠ [] ∨ m.last? = some i →
    ∃ j k, n.inputs = [j] ∧ m.get? j = some k ∧ (∀ u, k.op ≠ .convert u) ∧ k.shape ≠ n.shape

theorem Normalizing.normal (h : Normalizing m₀ m₀.order m) : Normal m := by
  intro i n t hn hop hread
  have hl := h.upholds.accepted.linked
  have hi : i ∈ m₀.order := by
    rw [← h.order, hl.mem_order, hn]
    rfl
  rcases h.settled i hi n.core t (core?_of_get? hn) hop with ⟨j, k, hin, hk, hplain, hs⟩ | hunread
  · obtain ⟨k', hk', he⟩ := exists_get?_of_core? hk
    subst he
    exact ⟨j, k', hin, hk', hplain, hs⟩
  · rcases hread with hused | hlast
    · obtain ⟨user, huser⟩ := List.exists_mem_of_ne_nil _ hused
      rw [← usersOf_of_get? hn, hl.mem_users] at huser
      exact absurd huser (hunread.1 user)
    · exact absurd hlast hunread.2

end Convert

/-- On every module that edits build and that passes its check, one sweep over the conversions ends well,
keeps the shapes of all instructions, leaves a module that passes its check, and brings all conversions
into normal form. -/
theorem conversion_normalizes (hb : Built m) (hv : m.validate = .ok ()) :
    ∃ changed, (conversion.run m).result = .ok changed ∧
      (conversion.run m).state.validate = .ok () ∧
      (∀ i n, m.get? i = some n →
        ∃ n', (conversion.run m).state.get? i = some n' ∧ n'.shape = n.shape) ∧
      Convert.Normal (conversion.run m).state := by
  obtain ⟨changed, hr, h⟩ := (Convert.normalizing_run (hb.accepted hv)).exists_ok
  exact ⟨changed, hr, h.upholds.accepted.validate, h.upholds.kept, h.normal⟩

/-- A transposed input is converted to and fro and to a third type, and a repeated one twice to the type
that it has. -/
private def chained : Module :=
  Mutation.applyAll (Module.empty "main")
    [.addParameter "x" ⟨.float, [2, 3], [1, 2], [], []⟩,
      .addParameter "y" ⟨.float, [2, 3], [0, 1], [], []⟩, .add (.convert .int32) [⟨0⟩],
      .add (.convert .float) [⟨2⟩], .add (.convert .int8) [⟨2⟩], .add (.unary .tanh) [⟨3⟩],
      .add (.convert .float) [⟨1⟩], .add (.convert .float) [⟨6⟩]]

theorem conversion_normalizes_chained :
    Built chained ∧ chained.validate = .ok () ∧ ¬ Convert.Normal chained ∧
    ∃ changed, (conversion.run chained).result = .ok changed ∧
      (conversion.run chained).state.validate = .ok () ∧
      (∀ i n, chained.get? i = some n →
        ∃ n', (conversion.run chained).state.get? i = some n' ∧ n'.shape = n.shape) ∧
      Convert.Normal (conversion.run chained).state := by
  have hb : Built chained := (Built.empty "main").applyAll _
  have hv : chained.validate = .ok () := by decide +kernel
  have hfirst : chained.get? ⟨6⟩ =
      some { op := .convert .float, inputs := [⟨1⟩], users := [⟨7⟩], shape := .packedOf .float [2, 3] } := by
    decide +kernel
  have hlast : chained.get? ⟨7⟩ =
      some { op := .convert .float, inputs := [⟨6⟩], shape := .packedOf .float [2, 3] } := by
    decide +kernel
  refine ⟨hb, hv, fun hnormal => ?_, conversion_normalizes hb hv⟩
  obtain ⟨j, k, hin, hk, hplain, -⟩ := hnormal ⟨7⟩ _ .float hlast rfl (.inr (by decide +kernel))
  cases hin
  cases hfirst.symm.trans hk
  exact hplain .float rfl

end TensorGraph.Pass
