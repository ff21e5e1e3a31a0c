import TensorGraph.Json.Decode
import TensorGraph.Proofs.Finite

/-! Numbers in documents. Whatever a text is, the numbers in the document that it holds are finite: the
tokens have none that are not, and assembling them adds none. -/
namespace TensorGraph.Json

/-- The document stands at some place of another. -/
inductive Part (v : Json) : Json → Prop
  | self : Part v v
  | item {u : Json} {items : List Json} (mem : u ∈ items) (h : Part v u) : Part v (.list items)
  | field {name : String} {u : Json} {fields : List (String × Json)} (mem : (name, u) ∈ fields)
      (h : Part v u) : Part v (.record fields)

theorem Part.trans {u v w : Json} (h : Part v u) (h' : Part u w) : Part v w := by
  induction h' with
  | self => exact h
  | item mem _ ih => exact .item mem ih
  | field mem _ ih => exact .field mem ih

/-- What holds of a document if it holds of its items and fields holds of all documents. -/
theorem induction_on_entries {P : Json → Prop}
    (h : ∀ v, (∀ items, v = .list items → ∀ u ∈ items, P u) →
      (∀ fields, v = .record fields → ∀ f ∈ fields, P f.2) → P v) (v : Json) : P v := by
  induction hn : sizeOf v using Nat.strong_induction_on generalizing v with
  | h n ih =>
    subst hn
    refine h v ?_ ?_
    · rintro items rfl u hu
      have hlt := List.sizeOf_lt_of_mem hu
      exact ih (sizeOf u) (by simp; omega) u rfl
    · rintro fields rfl ⟨name, u⟩ hu
      have hlt := List.sizeOf_lt_of_mem hu
      simp at hlt
      exact ih (sizeOf u) (by simp; omega) u rfl

/-- All numbers of the document are finite. -/
def AllFinite (u : Json) : Prop :=
  ∀ v x, Part v u → Decode.float v = .ok x → x.isFinite = true

private theorem allFinite_list {items : List Json} (h : ∀ u ∈ items, AllFinite u) :
    AllFinite (.list items) := by
  intro v x hpart hx
  cases hpart with
  | self => cases hx
  | item mem hpart => exact h _ mem v x hpart hx

private theorem allFinite_record {fields : List (String × Json)} (h : ∀ f ∈ fields, AllFinite f.2) :
    AllFinite (.record fields) := by
  intro v x hpart hx
  cases hpart with
  | self => cases hx
  | field mem hpart => exact h _ mem v x hpart hx

private theorem allFinite_null : AllFinite .null := by
  rintro v x ⟨⟩ ⟨⟩

private theorem allFinite_bool (b : Bool) : AllFinite (.bool b) := by
  rintro v x ⟨⟩ ⟨⟩

private theorem allFinite_text (s : String) : AllFinite (.text s) := by
  rintro v x ⟨⟩ ⟨⟩

private theorem allFinite_defect (d : Defect) : AllFinite (.defect d) := by
  rintro v x ⟨⟩ ⟨⟩

private theorem allFinite_number {cs : List Char} {v : Json} (h : number? cs = some v) :
    AllFinite v := by
  simp only [number?, Option.bind_eq_bind, Option.bind_eq_some_iff] at h
  obtain ⟨n, -, h⟩ := h
  split at h
  · rename_i i hi
    cases h
    rintro v x ⟨⟩ hx
    cases hx
    exact (Scalar.bounded_ofInt (Decimal.Numeral.toInt?_bounds hi)).isFinite
  · rename_i y hy
    cases h
    rintro v x ⟨⟩ hx
    cases hx
    exact Decimal.Numeral.isFinite_of_toFloat? hy
  · cases h
    exact allFinite_defect _

private theorem allFinite_word {cs : List Char} {v : Json} (h : word? cs = some v) : AllFinite v := by
  rw [word?] at h
  split at h
  · cases h
    exact allFinite_null
  · cases h
    exact allFinite_bool _
  · cases h
    exact allFinite_bool _
  · cases h

def Token.AllFinite : Token → Prop
  | .atom v => v.AllFinite
  | _ => True

/-- The tokens read so far have finite numbers. -/
def Scanner.AllFinite (s : Scanner) : Prop :=
  ∀ t ∈ s.tokens, t.AllFinite

namespace Scanner
variable {s : Scanner} {tokens : List Token}

private theorem allFinite_cons {t : Token} {scan : Scan} (ht : t.AllFinite)
    (h : ∀ t ∈ tokens, t.AllFinite) : AllFinite ⟨t :: tokens, scan⟩ :=
  List.forall_mem_cons.2 ⟨ht, h⟩

private theorem allFinite_breakOff (h : ∀ t ∈ tokens, t.AllFinite) : (breakOff tokens).AllFinite :=
  allFinite_cons trivial h

private theorem allFinite_finish (h : s.AllFinite) : s.finish.AllFinite := by
  rw [finish]
  split
  · exact h
  · exact h
  · dsimp only
    split
    · rename_i v hv
      exact allFinite_cons (allFinite_word hv) h
    · exact allFinite_breakOff h
  · dsimp only
    split
    · rename_i v hv
      exact allFinite_cons (allFinite_number hv) h
    · exact allFinite_breakOff h
  · exact allFinite_breakOff h
  · exact allFinite_breakOff h
  · exact allFinite_breakOff h

private theorem allFinite_beginToken (h : ∀ t ∈ tokens, t.AllFinite) (c : Char) :
    (beginToken tokens c).AllFinite := by
  rw [beginToken]
  split
  · exact h
  split
  · exact h
  split
  · exact h
  split
  · exact h
  split
  · rename_i t ht
    refine allFinite_cons ?_ h
    rw [punctuation?.eq_def] at ht
    split at ht <;> cases ht <;> trivial
  · exact allFinite_breakOff h

/-- One character adds no number, or a finite one that ends before it. -/
theorem allFinite_step (h : s.AllFinite) (c : Char) : (s.step c).AllFinite := by
  have hfinish := allFinite_finish h
  rw [step]
  split
  · exact h
  · exact allFinite_beginToken h c
  · split
    · exact h
    dsimp only
    split
    · exact hfinish
    · exact allFinite_beginToken hfinish c
  · split
    · exact h
    dsimp only
    split
    · exact hfinish
    · exact allFinite_beginToken hfinish c
  · split
    · exact h
    split
    · exact allFinite_cons trivial h
    split
    · exact allFinite_breakOff h
    · exact h
  · split
    · exact h
    split
    · exact h
    · exact allFinite_breakOff h
  · split
    · dsimp only
      split
      · exact h
      · exact h
    · exact allFinite_breakOff h

private theorem allFinite_run (h : s.AllFinite) (cs : List Char) : (cs.foldl step s).AllFinite := by
  induction cs generalizing s with
  | nil => exact h
  | cons c cs ih => exact ih (allFinite_step h c)

end Scanner

private theorem allFinite_tokens (cs : List Char) : ∀ t ∈ tokens cs, t.AllFinite := by
  have hrun := Scanner.allFinite_run (s := ⟨[], .idle⟩) (by simp [Scanner.AllFinite]) cs
  intro t ht
  exact Scanner.allFinite_finish hrun t (List.mem_reverse.1 ht)

/-- The entries of an open list or record have finite numbers. -/
def Frame.AllFinite : Frame → Prop
  | .list items => ∀ v ∈ items, v.AllFinite
  | .record fields _ => ∀ f ∈ fields, f.2.AllFinite

def Assembly.AllFinite : Assembly → Prop
  | .running frames _ => ∀ f ∈ frames, f.AllFinite
  | .done d => d.value.AllFinite

variable {frames : List Frame} {v : Json}

private theorem allFinite_fieldOf (h : v.AllFinite) (name : Option String) :
    (fieldOf name v).2.AllFinite := by
  cases name with
  | none => exact allFinite_defect _
  | some s => exact h

private theorem allFinite_supply (h : v.AllFinite) (hframes : ∀ f ∈ frames, f.AllFinite) :
    (supply v frames).AllFinite := by
  cases frames with
  | nil => exact h
  | cons frame rest =>
    obtain ⟨hframe, hrest⟩ := List.forall_mem_cons.1 hframes
    cases frame with
    | list items => exact List.forall_mem_cons.2 ⟨List.forall_mem_cons.2 ⟨h, hframe⟩, hrest⟩
    | record fields name =>
      exact List.forall_mem_cons.2 ⟨List.forall_mem_cons.2 ⟨allFinite_fieldOf h name, hframe⟩, hrest⟩

private theorem allFinite_nested (h : v.AllFinite) (outer : List Frame) :
    (nested outer v).AllFinite := by
  rw [nested]
  split
  · exact h
  · exact allFinite_defect _

private theorem allFinite_abandon (h : v.AllFinite) (hframes : ∀ f ∈ frames, f.AllFinite) :
    (abandon v frames).AllFinite := by
  induction frames generalizing v with
  | nil => exact h
  | cons frame outer ih =>
    obtain ⟨hframe, houter⟩ := List.forall_mem_cons.1 hframes
    rw [abandon.eq_def]
    refine ih ?_ houter
    split
    · cases frame with
      | list items =>
        refine allFinite_list fun u hu => ?_
        exact List.forall_mem_cons.2 ⟨h, hframe⟩ u (List.mem_reverse.1 hu)
      | record fields name =>
        have hfields : ∀ f ∈ fieldOf name v :: fields, f.2.AllFinite :=
          List.forall_mem_cons.2 ⟨allFinite_fieldOf h name, hframe⟩
        exact allFinite_record fun f hf => hfields f (List.mem_reverse.1 hf)
    · exact allFinite_defect _

private theorem allFinite_stop (h : ∀ f ∈ frames, f.AllFinite) : (stop frames).AllFinite :=
  allFinite_abandon (allFinite_defect _) h

private theorem allFinite_closeList (h : ∀ f ∈ frames, f.AllFinite) :
    (closeList frames).AllFinite := by
  rw [closeList.eq_def]
  split
  · obtain ⟨hframe, houter⟩ := List.forall_mem_cons.1 h
    refine allFinite_supply (allFinite_nested (allFinite_list fun u hu => ?_) _) houter
    exact hframe u (List.mem_reverse.1 hu)
  · exact allFinite_stop h

private theorem allFinite_closeRecord (h : ∀ f ∈ frames, f.AllFinite) :
    (closeRecord frames).AllFinite := by
  rw [closeRecord.eq_def]
  split
  · obtain ⟨hframe, houter⟩ := List.forall_mem_cons.1 h
    refine allFinite_supply (allFinite_nested (allFinite_record fun f hf => ?_) _) houter
    exact hframe f (List.mem_reverse.1 hf)
  · exact allFinite_stop h

private theorem allFinite_takeName (name : Option String) (h : ∀ f ∈ frames, f.AllFinite) :
    (takeName name frames).AllFinite := by
  rw [takeName.eq_def]
  split
  · obtain ⟨hframe, houter⟩ := List.forall_mem_cons.1 h
    exact List.forall_mem_cons.2 ⟨hframe, houter⟩
  · exact allFinite_stop h

private theorem allFinite_takeValue {t : Token} (ht : t.AllFinite) (h : ∀ f ∈ frames, f.AllFinite) :
    (takeValue frames t).AllFinite := by
  rw [takeValue.eq_def]
  split
  · exact List.forall_mem_cons.2 ⟨by simp [Frame.AllFinite], h⟩
  · exact List.forall_mem_cons.2 ⟨by simp [Frame.AllFinite], h⟩
  · exact allFinite_supply (allFinite_text _) h
  · exact allFinite_supply (allFinite_defect _) h
  · exact allFinite_supply ht h
  · exact allFinite_stop h

/-- A token puts finite numbers to finite numbers. -/
theorem Assembly.allFinite_step {a : Assembly} {t : Token} (h : a.AllFinite) (ht : t.AllFinite) :
    (a.step t).AllFinite := by
  rw [Assembly.step.eq_def]
  split
  · exact h
  · exact allFinite_takeValue ht h
  · exact allFinite_closeList h
  · exact allFinite_takeValue ht h
  · exact allFinite_takeName _ h
  · exact allFinite_takeName _ h
  · exact allFinite_closeRecord h
  · exact h
  · exact allFinite_closeList h
  · exact allFinite_closeRecord h
  · split
    · exact h
    · exact h
    · exact allFinite_stop h
  · exact allFinite_stop h

private theorem Assembly.allFinite_run {a : Assembly} {ts : List Token} (h : a.AllFinite)
    (hts : ∀ t ∈ ts, t.AllFinite) : (ts.foldl Assembly.step a).AllFinite := by
  induction ts generalizing a with
  | nil => exact h
  | cons t ts ih =>
    obtain ⟨ht, hts⟩ := List.forall_mem_cons.1 hts
    exact ih (allFinite_step h ht) hts

/-- All numbers of a document that is read are finite. -/
theorem allFinite_read (text : String) : (read text).value.AllFinite := by
  have hrun := Assembly.allFinite_run (a := .running [] .value) (by simp [Assembly.AllFinite])
    (allFinite_tokens text.toList)
  rw [read]
  generalize (tokens text.toList).foldl Assembly.step (.running [] .value) = a at hrun
  cases a with
  | running frames expected => exact allFinite_abandon (allFinite_defect _) hrun
  | done d => exact hrun

end TensorGraph.Json
