import TensorGraph.Pipeline.Level
import TensorGraph.Proofs.Literal
import TensorGraph.Proofs.Module.Derived
import TensorGraph.Proofs.Pass.Simplification

/-! No pass refers to sub-modules in a new way or takes over their output shapes anew: whatever it
does to shapes, the module it leaves is derived from the one it found. -/
namespace TensorGraph.Pass
open TensorGraph.Action TensorGraph.Module
variable {m₀ m : Module}

private theorem ofRules_derived {name : String} {rules : List Rule}
    (h : ∀ rule ∈ rules, ∀ r, (rule.apply r).Maintains (Derived m₀)) :
    (ofRules name rules).run.Maintains (Derived m₀) := by
  intro m hm
  refine Rule.sweep_leaves (fun rule hrule m i hm _ => ?_) hm
  exact ⟨fun r _ => h rule hrule r m hm, fun _ _ => trivial⟩

private theorem convertTo_derived (before i : InstructionId) (t : ElementType) :
    (Quantization.convertTo before i t).Maintains (Derived m₀) :=
  .bind .get fun _ => .bind (.liftFault _) fun _ => .ite (.pure _) (insert_derived _ _ _)

private theorem splat_derived (before : InstructionId) (t : ElementType) (x : Float)
    (lens : List Nat) : (Quantization.splat before t x lens).Maintains (Derived m₀) :=
  .bind (addLiteral_derived (Literal.addressable_scalar t x)) fun _ => insert_derived _ _ _

private theorem quantize_derived (r : Match) :
    (Quantization.quantize.apply r).Maintains (Derived m₀) := by
  unfold Quantization.quantize
  refine .bind .get fun m => .bind (.liftFault _) fun n => .bind (.liftFault _) fun x =>
    .bind (.liftFault _) fun scale => .bind (.liftFault _) fun k =>
    .bind (convertTo_derived _ _ _) fun x => .bind (insert_derived _ _ _) fun scaled =>
    .bind (insert_derived _ _ _) fun rounded => ?_
  extract_lets finish
  have hfinish : ∀ shifted, (finish shifted).Maintains (Derived m₀) := fun shifted =>
    .bind (splat_derived _ _ _ _) fun low => .bind (splat_derived _ _ _ _) fun high =>
    .bind (insert_derived _ _ _) fun clipped => .bind (convertTo_derived _ _ _) fun quantized =>
    .bind (replaceWith_derived _ _) fun _ => .pure _
  split
  · exact .bind (convertTo_derived _ _ _) fun z => .bind (insert_derived _ _ _) hfinish
  · exact .bind (.pure _) hfinish

private theorem dequantize_derived (r : Match) :
    (Quantization.dequantize.apply r).Maintains (Derived m₀) := by
  unfold Quantization.dequantize
  refine .bind .get fun m => .bind (.liftFault _) fun n => .bind (.liftFault _) fun q =>
    .bind (.liftFault _) fun scale => .bind (.liftFault _) fun k =>
    .bind (convertTo_derived _ _ _) fun q => ?_
  extract_lets finish
  have hfinish : ∀ shifted, (finish shifted).Maintains (Derived m₀) := fun shifted =>
    .bind (insert_derived _ _ _) fun result => .bind (replaceWith_derived _ _) fun _ => .pure _
  split
  · exact .bind (convertTo_derived _ _ _) fun z => .bind (insert_derived _ _ _) hfinish
  · exact .bind (.pure _) hfinish

private theorem quantization_derived : quantization.run.Maintains (Derived m₀) :=
  ofRules_derived (by simpa using ⟨quantize_derived, dequantize_derived⟩)

private theorem geluRule_derived (r : Match) : (Gelu.rule.apply r).Maintains (Derived m₀) := by
  unfold Gelu.rule
  refine .bind (.liftFault _) fun x => .bind .get fun m => .bind (.liftFault _) fun n => .ite ?_ ?_
  · exact .bind (.report _) fun _ => .pure _
  · exact .bind (addLiteral_derived (Literal.addressable_scalar _ _)) fun scale =>
      .bind (insert_derived _ _ _) fun k => .bind (insert_derived _ _ _) fun kx =>
      .bind (insert_derived _ _ _) fun sigmoid => .bind (insert_derived _ _ _) fun gelu =>
      .bind (replaceWith_derived _ _) fun _ => .pure _

private theorem gelu_derived : gelu.run.Maintains (Derived m₀) :=
  ofRules_derived (by simpa using geluRule_derived)

private theorem layernormRule_derived (r : Match) :
    (Layernorm.rule.apply r).Maintains (Derived m₀) := by
  unfold Layernorm.rule
  refine .bind .get fun m => .bind (.liftFault _) fun x => .bind (.liftFault _) fun k =>
    .bind (.liftFault _) fun mean => .bind (.liftFault _) fun var =>
    .bind (.liftFault _) fun a => .bind (.liftFault _) fun b => .ite ?_ ?_
  · exact .bind (.report _) fun _ => .pure _
  refine .bind (.liftFault _) fun eps => .bind (.liftFault _) fun value => ?_
  split
  · exact .pure _
  · refine .ite ?_ ?_
    · exact .bind (.report _) fun _ => .pure _
    · exact .bind (insert_derived _ _ _) fun normalized => .bind (replaceWith_derived _ _) fun _ =>
        .pure _

private theorem layernorm_derived : layernorm.run.Maintains (Derived m₀) :=
  ofRules_derived (by simpa using layernormRule_derived)

private theorem identity_derived : identity.run.Maintains (Derived m₀) := by
  refine .bind .get fun m => .anyOf (fun i => ?_) _
  refine .bind .get fun m => .bind (.liftFault _) fun n => ?_
  split
  · exact .ite (.pure _) (.bind (replaceWith_derived _ _) fun _ => .pure _)
  · exact .pure _

private theorem nested_derived (r : Match) : (Convert.nested.apply r).Maintains (Derived m₀) := by
  unfold Convert.nested
  refine .bind .get fun m => .bind (.liftFault _) fun source => .bind (.liftFault _) fun n =>
    .bind (.liftFault _) fun k => .ite ?_ ?_
  · exact .bind (replaceWith_derived _ _) fun _ => .pure _
  · exact .bind (replace_derived _ _ _) fun _ => .pure _

private theorem idle_derived (r : Match) : (Convert.idle.apply r).Maintains (Derived m₀) :=
  .bind .get fun _ => .bind (.liftFault _) fun _ => .bind (.liftFault _) fun _ =>
    .bind (replaceWith_derived _ _) fun _ => .pure _

private theorem conversion_derived : conversion.run.Maintains (Derived m₀) :=
  ofRules_derived (by simpa using ⟨nested_derived, idle_derived⟩)

private theorem padding_derived : padding.run.Maintains (Derived m₀) := by
  refine .bind .get fun m => .anyOf (fun i => .bind .get fun m => .bind (.liftFault _) fun r => ?_) _
  split
  · exact .pure _
  · exact .bind (replace_derived _ _ _) fun _ => .pure _

private theorem replaceKeepingShape_derived (old new : InstructionId) :
    (replaceKeepingShape old new).Maintains (Derived m₀) :=
  .bind .get fun _ => .bind (.liftFault _) fun _ => .bind (.liftFault _) fun _ =>
    .ite (.bind (replaceWith_derived _ _) fun _ => .pure _) <|
      .bind (.liftFault _) fun _ => .ite (.pure _) <| .ite (.pure _) <|
        .bind (insert_derived _ _ _) fun _ => .bind (replaceWith_derived _ _) fun _ => .pure _

private theorem keepOperand_derived (r : Match) :
    (Algebra.keepOperand r).Maintains (Derived m₀) :=
  .bind (.liftFault _) fun _ => replaceKeepingShape_derived _ _

private theorem algebra_derived : algebra.run.Maintains (Derived m₀) := by
  refine ofRules_derived fun rule hrule r => ?_
  simp only [List.mem_cons, List.not_mem_nil, or_false] at hrule
  rcases hrule with rfl | rfl | rfl | rfl | rfl <;> exact keepOperand_derived r

private theorem foldInto_derived (name : String) {folds : List (InstructionId × Literal)}
    (h : ∀ p ∈ folds, p.2.shape.addressable = true) :
    (ConstantFolding.foldInto name folds).Maintains (Derived m₀) := by
  induction folds with
  | nil => exact .pure _
  | cons p rest ih =>
    obtain ⟨ha, hrest⟩ := List.forall_mem_cons.1 h
    exact .bind (.report _) fun _ => .bind (addLiteral_derived ha) fun l =>
      .bind (replaceWith_derived _ _) fun _ => ih hrest

/-- A value is folded in only where it has the shape of the instruction it replaces. -/
theorem constantFolding_derived (hv : Valid m) (h : Derived m₀ m) :
    constantFolding.run.Leaves m (fun _ => Derived m₀) fun _ _ => True := by
  obtain ⟨hok, -⟩ := foldValues_spec m.order (fun i hi => (h.linked.mem_order i).1 hi)
    (memoHolds_nil m)
  simp only [constantFolding, leaves_bind, leaves_get, leaves_liftFault, leaves_pure]
  refine ⟨fun folds hf => foldInto_derived m.name (fun p hp => ?_) m h, fun _ _ => trivial⟩
  obtain ⟨-, n, hn, -, -, hs⟩ := hok folds hf p hp
  rw [hs]
  exact hv.addressable hn

private theorem mergeAll_derived {again : List InstructionId → Module.Edit Bool}
    (hagain : ∀ is, (again is).Maintains (Derived m₀)) (seen : CommonSubexpression.Seen)
    (is : List InstructionId) :
    (CommonSubexpression.mergeAll again seen is).Maintains (Derived m₀) := by
  induction is generalizing seen with
  | nil => exact .pure _
  | cons i rest ih =>
    unfold CommonSubexpression.mergeAll
    refine .bind .get fun m => ?_
    split
    · exact ih seen
    refine .ite (ih seen) ?_
    split
    · exact ih _
    · exact .bind (replaceWith_derived _ _) fun _ => .bind .get fun m => .bind (hagain _) fun _ =>
        .bind (ih seen) fun _ => .pure _

private theorem commonSubexpression_derived : commonSubexpression.run.Maintains (Derived m₀) := by
  refine .bind .get fun m => ?_
  generalize m.instructions.size + 1 = depth
  generalize m.order = is
  induction depth generalizing is with
  | zero => exact .pure _
  | succ depth ih => exact mergeAll_derived ih [] is

theorem Swept.derived {m' : Module} {alive : List InstructionId} (hs : DeadCode.Swept m m' alive)
    (h : Derived m₀ m) : Derived m₀ m' where
  linked := hs.linked
  names := names_of_swept hs h.names
  name := hs.name.trans h.name
  modules := h.modules.trans fun i n hn => .inr ⟨i, n, (core?_of_swept hs hn).2, rfl⟩
  grounded i n hn := h.grounded i n (core?_of_swept hs hn).2

private theorem deadCode_derived : deadCode.run.Maintains (Derived m₀) := by
  intro m h
  refine (DeadCode.runWith_leaves _ h.linked).mono ?_ fun _ _ _ => trivial
  rintro _ m' ⟨alive, hs⟩
  exact Swept.derived hs h

theorem isMended_maintains {P : Module → Prop} (i : InstructionId) :
    (Contiguous.isMended i).Maintains P :=
  .bind .get fun _ => .bind (.liftFault _) fun _ => .liftFault _

theorem allMended_maintains {P : Module → Prop} (is : List InstructionId) :
    (Contiguous.allMended is).Maintains P := by
  induction is with
  | nil => exact .pure _
  | cons i rest ih => exact .bind (isMended_maintains i) fun _ => .ite ih (.pure _)

private theorem mendAll_derived (before : InstructionId) (is : List InstructionId) :
    (Contiguous.mendAll before is).Maintains (Derived m₀) := by
  induction is with
  | nil => exact .pure _
  | cons i rest ih =>
    have hrest : ∀ mended, (do
        return mended :: (← Contiguous.mendAll before rest) :
          Module.Edit (List InstructionId)).Maintains (Derived m₀) :=
      fun _ => .bind ih fun _ => .pure _
    exact .bind (isMended_maintains i) fun _ =>
      .ite (.bind (.pure _) hrest) (.bind (insert_derived _ _ _) hrest)

private theorem contiguous_derived : contiguous.run.Maintains (Derived m₀) := by
  have hinputs : ∀ i, (Contiguous.mendInputs i).Maintains (Derived m₀) := fun i =>
    .bind .get fun m => .bind (.liftFault _) fun n => .ite (.pure _) <|
      .bind (allMended_maintains _) fun _ => .ite (.pure _) <| .bind (mendAll_derived _ _) fun inputs =>
        .bind (replace_derived _ _ _) fun _ => .pure _
  have houtputs : Contiguous.mendOutputs.Maintains (Derived m₀) := by
    refine .bind .get fun m => ?_
    split
    · exact .bind (allMended_maintains _) fun _ => .ite (.pure _) <| .bind (mendAll_derived _ _)
        fun mended => .bind (replaceOutput_derived _) fun _ => .pure _
    · split
      · exact .bind (isMended_maintains _) fun _ => .ite (.pure _) <|
          .bind (add_derived _ _) fun _ => .pure _
      · exact .pure _
  exact .bind .get fun m => .bind (.anyOf hinputs _) fun changed => .bind houtputs fun outputs =>
    .pure _

/-- What each pass does to a valid module. -/
theorem run_derived {pass : Pass} (hpass : pass ∈ Level.full.schedule) (hv : Valid m)
    (h : Derived m₀ m) : pass.run.Leaves m (fun _ => Derived m₀) fun _ _ => True := by
  simp only [Level.schedule, List.mem_cons, List.not_mem_nil, or_false] at hpass
  rcases hpass with rfl | rfl | rfl | rfl | rfl | rfl | rfl | rfl | rfl | rfl | rfl
  · exact quantization_derived m h
  · exact gelu_derived m h
  · exact layernorm_derived m h
  · exact identity_derived m h
  · exact conversion_derived m h
  · exact padding_derived m h
  · exact algebra_derived m h
  · exact constantFolding_derived hv h
  · exact commonSubexpression_derived m h
  · exact deadCode_derived m h
  · exact contiguous_derived m h

end TensorGraph.Pass
