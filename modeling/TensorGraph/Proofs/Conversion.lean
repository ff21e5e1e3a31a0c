import Mathlib
import TensorGraph.Proofs.Literal

/-! Conversions between element types are roundings: what has been converted is not changed by being
converted again. So a literal can be made again from its own shape and values. -/
namespace TensorGraph

namespace Scalar
variable {bits : Nat}

theorem binade_eq : binade = 4503599627370496 := rfl
private theorem signBit_eq : signBit = 9223372036854775808 := rfl
private theorem infinityBits_eq : infinityBits = 9218868437227405312 := rfl

/-- The bits of a number are those it was made from. -/
theorem toBits_ofBits {u : UInt64} (h : u.toNat % signBit ≤ infinityBits) :
    (Float.ofBits u).toBits = u := by
  have hnan : @Float.Model.UnpackedFloat.isNaNBits .binary64 u.toBitVec = false := by
    rw [Float.Model.UnpackedFloat.isNaNBits, decide_eq_false_iff_not]
    rintro ⟨hexponent, hmantissa⟩
    rw [Float.Model.UnpackedFloat.unpackExponent_def, ← BitVec.toNat_inj] at hexponent
    rw [Float.Model.UnpackedFloat.unpackMantissa_def, Ne, ← BitVec.toNat_inj] at hmantissa
    change (u.toNat >>> 52) % 2 ^ 11 = 2047 at hexponent
    change ¬ (u.toNat >>> 0) % 2 ^ 52 = 0 at hmantissa
    rw [Nat.shiftRight_eq_div_pow] at hexponent hmantissa
    rw [signBit_eq, infinityBits_eq] at h
    omega
  have hpack := @Float.Model.UnpackedFloat.pack_unpack .binary64 u.toBitVec (by decide)
  rw [hnan] at hpack
  exact UInt64.toBitVec_inj.1 hpack

private theorem toBits_ofMagnitude (negative : Bool) (h : bits ≤ infinityBits) :
    (ofMagnitude negative bits).toBits.toNat = if negative then bits + signBit else bits := by
  rw [infinityBits_eq] at h
  have hlt : (if negative then bits + signBit else bits) < UInt64.size := by
    rw [signBit_eq, UInt64.size]
    split <;> omega
  have hnat := UInt64.toNat_ofNat_of_lt' hlt
  rw [ofMagnitude, toBits_ofBits, hnat]
  rw [hnat, signBit_eq, infinityBits_eq]
  split <;> omega

theorem magnitude_ofMagnitude (negative : Bool) (h : bits ≤ infinityBits) :
    magnitude (ofMagnitude negative bits) = bits := by
  rw [magnitude, toBits_ofMagnitude negative h]
  rw [infinityBits_eq] at h
  rw [signBit_eq]
  split <;> omega

private theorem isNegative_ofMagnitude (negative : Bool) (h : bits ≤ infinityBits) :
    isNegative (ofMagnitude negative bits) = negative := by
  rw [isNegative, toBits_ofMagnitude negative h]
  rw [infinityBits_eq] at h
  rw [signBit_eq]
  cases negative <;> simp
  omega

/-- A change of magnitudes that is done once is done for good. -/
theorem onMagnitude_onMagnitude {f : Nat → Nat}
    (hle : ∀ bits, bits < infinityBits → f bits ≤ infinityBits)
    (hf : ∀ bits, bits < infinityBits → f bits < infinityBits → f (f bits) = f bits) (x : Float) :
    onMagnitude f (onMagnitude f x) = onMagnitude f x := by
  by_cases hx : magnitude x < infinityBits
  · have hbits := magnitude_ofMagnitude (isNegative x) (hle _ hx)
    have hsign := isNegative_ofMagnitude (isNegative x) (hle _ hx)
    have hy : onMagnitude f x = ofMagnitude (isNegative x) (f (magnitude x)) := if_pos hx
    rw [hy, onMagnitude, hbits, hsign]
    split
    · rw [hf _ hx ‹_›]
    · rfl
  · have hy : onMagnitude f x = x := if_neg hx
    rw [hy, hy]

/-- Division that goes to one of the two neighbouring numbers, the lower one below a half. -/
structure Rounds (divide : Nat → Nat → Nat) : Prop where
  lower : ∀ n d, n / d ≤ divide n d
  upper : ∀ n d, divide n d ≤ n / d + 1
  exact : ∀ q d, 0 < d → divide (q * d) d = q
  small : ∀ n d, 2 * n < d → divide n d = 0

private theorem rounds_div : Rounds (· / ·) where
  lower _ _ := Nat.le_refl _
  upper _ _ := Nat.le_succ _
  exact q _ hd := Nat.mul_div_cancel q hd
  small _ _ h := Nat.div_eq_of_lt (by omega)

theorem rounds_divNearest : Rounds divNearest where
  lower n d := by
    rw [divNearest]
    split <;> omega
  upper n d := by
    rw [divNearest]
    split <;> omega
  exact q d hd := by
    rw [divNearest, Nat.mul_div_cancel q hd, Nat.mul_mod_left]
    exact if_neg (by omega)
  small n d h := by
    have hlt : n < d := by omega
    rw [divNearest, Nat.div_eq_of_lt hlt, Nat.mod_eq_of_lt hlt]
    exact if_neg (by omega)

/-- A magnitude is its significand above the start of its binade; the first binade has two halves. -/
theorem of_split {e s : Nat} (he : 1 ≤ e) (hs : s < 2 * binade) (h : e = 1 ∨ binade ≤ s) :
    lastPlace ((e - 1) * binade + s) = e - 1075 ∧ significand ((e - 1) * binade + s) = s := by
  rw [lastPlace, significand]
  rw [binade_eq] at hs h ⊢
  by_cases hlt : s < 4503599627370496
  · obtain rfl : e = 1 := by omega
    have hzero : s / 4503599627370496 = 0 := Nat.div_eq_of_lt hlt
    simp [hzero, hlt]
  · have hdiv : ((e - 1) * 4503599627370496 + s) / 4503599627370496 = e := by omega
    have hmod : ((e - 1) * 4503599627370496 + s) % 4503599627370496 = s - 4503599627370496 := by
      omega
    have hge : ¬ (e - 1) * 4503599627370496 + s < 4503599627370496 := by omega
    rw [hdiv, hmod, if_neg hge]
    omega

theorem exists_split (bits : Nat) : ∃ e : Nat, 1 ≤ e ∧ lastPlace bits = e - 1075 ∧
    bits = (e - 1) * binade + significand bits ∧ significand bits < 2 * binade ∧
      (e = 1 ∨ binade ≤ significand bits) := by
  refine ⟨max (bits / binade) 1, Nat.le_max_right _ _, by simp [lastPlace], ?_⟩
  rw [significand, binade_eq]
  split <;> omega

private theorem next_binade {e b : Nat} (he : 1 ≤ e) : (e - 1) * b + 2 * b = (e + 1 - 1) * b + b := by
  obtain ⟨k, rfl⟩ := Nat.exists_eq_add_of_le' he
  simp only [Nat.add_sub_cancel]
  ring

/-- What rounding gives: the magnitude itself where it is fine enough, zero, a multiple of the unit
in the same binade, or the start of the next one. -/
inductive Rounded (place : Int) (bits : Nat) : Nat → Prop
  | fine (h : place ≤ lastPlace bits) : Rounded place bits bits
  | zero : Rounded place bits 0
  | within {r q : Nat} (hr : lastPlace r = lastPlace bits)
      (hs : significand r = q * 2 ^ (place - lastPlace bits).toNat) : Rounded place bits r
  | carried {r : Nat} (hle : place ≤ lastPlace bits + 53) (hr : lastPlace r = lastPlace bits + 1)
      (hs : significand r = binade) : Rounded place bits r

theorem roundTo_of_coarse {place : Int} (divide : Nat → Nat → Nat)
    (h : (place - lastPlace bits).toNat ≠ 0) :
    roundTo divide place bits =
      if divide (significand bits) (2 ^ (place - lastPlace bits).toNat) = 0 then 0
      else bits - significand bits +
        divide (significand bits) (2 ^ (place - lastPlace bits).toNat) *
          2 ^ (place - lastPlace bits).toNat :=
  if_neg h

section RoundTo
variable {divide : Nat → Nat → Nat} (hd : Rounds divide)
include hd

/-- Multiples of the unit stay as they are. -/
theorem roundTo_eq_self {place : Int} {q : Nat}
    (h : significand bits = q * 2 ^ (place - lastPlace bits).toNat) :
    roundTo divide place bits = bits := by
  obtain ⟨e, -, -, hbits, -, hsig⟩ := exists_split bits
  by_cases hdrop : (place - lastPlace bits).toNat = 0
  · exact if_pos hdrop
  rw [roundTo_of_coarse divide hdrop, h, hd.exact q _ (Nat.two_pow_pos _), ← h]
  split
  · rename_i hzero
    rw [hzero, Nat.zero_mul] at h
    rw [binade_eq] at hsig
    rw [hbits, h, (by omega : e = 1), Nat.sub_self, Nat.zero_mul]
  · omega

theorem rounded_roundTo (place : Int) (bits : Nat) :
    Rounded place bits (roundTo divide place bits) := by
  obtain ⟨e, he, hlast, hbits, hlt, hsig⟩ := exists_split bits
  by_cases hdrop : (place - lastPlace bits).toNat = 0
  · rw [roundTo, if_pos hdrop]
    exact .fine (by omega)
  rw [roundTo_of_coarse divide hdrop]
  generalize hk : (place - lastPlace bits).toNat = drop at hdrop ⊢
  have hlow := hd.lower (significand bits) (2 ^ drop)
  have hhigh := hd.upper (significand bits) (2 ^ drop)
  have hsmall := hd.small (significand bits) (2 ^ drop)
  generalize divide (significand bits) (2 ^ drop) = q at hlow hhigh hsmall ⊢
  split
  · exact .zero
  rename_i hq
  have hbase : bits - significand bits = (e - 1) * binade := by omega
  have hle : drop ≤ 53 := by
    by_contra hgt
    refine hq (hsmall ?_)
    calc 2 * significand bits < 2 ^ 54 := by rw [binade_eq] at hlt; omega
      _ ≤ 2 ^ drop := Nat.pow_le_pow_right (by decide) (by omega)
  have hfine : place ≤ lastPlace bits + 53 := by omega
  have htwo : 2 * binade = 2 ^ (53 - drop) * 2 ^ drop := by
    rw [← Nat.pow_add, Nat.sub_add_cancel hle]
    rfl
  have hupper : q * 2 ^ drop ≤ 2 * binade := by
    rw [htwo]
    refine Nat.mul_le_mul_right _ (Nat.le_trans hhigh ?_)
    exact Nat.div_lt_of_lt_mul (by rwa [Nat.mul_comm, ← htwo])
  rw [hbase]
  rcases Nat.lt_or_eq_of_le hupper with hltq | heq
  · have hlower : e = 1 ∨ binade ≤ q * 2 ^ drop := by
      refine hsig.imp_right fun hge => ?_
      rcases Nat.lt_or_eq_of_le hle with hlt' | heq
      · have hone : binade = 2 ^ (52 - drop) * 2 ^ drop := by
          rw [← Nat.pow_add, Nat.sub_add_cancel (by omega)]
          rfl
        rw [hone] at hge ⊢
        refine Nat.mul_le_mul_right _ (Nat.le_trans ?_ hlow)
        exact (Nat.le_div_iff_mul_le (Nat.two_pow_pos _)).2 hge
      · rw [heq, binade_eq] at hltq
        omega
    obtain ⟨hr, hs⟩ := of_split he hltq hlower
    exact .within (q := q) (hr.trans hlast.symm) (by rw [hk, hs])
  · have hnext := of_split (e := e + 1) (s := binade) (by omega) (by rw [binade_eq]; omega)
      (.inr (Nat.le_refl _))
    rw [heq, next_binade he]
    refine .carried hfine ?_ hnext.2
    rw [hnext.1, hlast]
    push_cast
    ring

/-- Rounding twice is rounding once, where the unit of the next binade is the same, or leaves a bit of
the significand. -/
theorem roundTo_roundTo (place : Int → Int)
    (hplace : ∀ l, place (l + 1) = place l ∨ place (l + 1) ≤ l + 53) {r : Nat}
    (hr : roundTo divide (place (lastPlace bits)) bits = r) :
    roundTo divide (place (lastPlace r)) r = r := by
  have h : Rounded (place (lastPlace bits)) bits r := hr ▸ rounded_roundTo hd _ bits
  cases h with
  | fine h =>
    refine roundTo_eq_self hd (q := significand bits) ?_
    rw [Int.toNat_of_nonpos (by omega), Nat.pow_zero, Nat.mul_one]
  | zero => exact roundTo_eq_self hd (q := 0) (by rw [Nat.zero_mul]; rfl)
  | within hr hs => exact roundTo_eq_self hd (by rw [hr, hs])
  | carried hle hr hs =>
    have hdrop : (place (lastPlace r) - lastPlace r).toNat ≤ 52 := by
      rw [hr]
      rcases hplace (lastPlace bits) with h | h <;> omega
    refine roundTo_eq_self hd (q := 2 ^ (52 - (place (lastPlace r) - lastPlace r).toNat)) ?_
    rw [hs, ← Nat.pow_add, Nat.sub_add_cancel hdrop]
    rfl

end RoundTo

theorem roundTo_div_le (place : Int) (bits : Nat) : roundTo (· / ·) place bits ≤ bits := by
  obtain ⟨e, -, -, hbits, -⟩ := exists_split bits
  by_cases hdrop : (place - lastPlace bits).toNat = 0
  · exact Nat.le_of_eq (if_pos hdrop)
  rw [roundTo_of_coarse _ hdrop]
  have hle := Nat.div_mul_le_self (significand bits) (2 ^ (place - lastPlace bits).toNat)
  split <;> omega

private theorem truncate_truncate (x : Float) : truncate (truncate x) = truncate x :=
  onMagnitude_onMagnitude (fun bits h => Nat.le_trans (roundTo_div_le 0 bits) (Nat.le_of_lt h))
    (fun _ _ _ => roundTo_roundTo rounds_div (fun _ => 0) (fun _ => .inl rfl) rfl) x

private theorem toSingle_toSingle (x : Float) : toSingle (toSingle x) = toSingle x := by
  refine onMagnitude_onMagnitude (fun bits _ => ?_) (fun bits _ hlt => ?_) x
  · rw [singleBits]
    split
    · rename_i h
      exact Nat.le_of_lt (Nat.lt_trans h (by decide))
    · exact Nat.le_refl _
  · rw [singleBits] at hlt
    split at hlt
    · rename_i hfits
      have hsingle : singleBits bits =
          roundTo divNearest (max (lastPlace bits + 29) (-149)) bits := if_pos hfits
      have hround := roundTo_roundTo rounds_divNearest (fun l => max (l + 29) (-149))
        (fun l => by omega) hsingle.symm
      rw [← hsingle] at hfits
      generalize singleBits bits = r at hfits hround ⊢
      rw [singleBits, hround, if_pos hfits]
    · exact absurd hlt (Nat.lt_irrefl _)

/-- The integer part of a number is a number. -/
theorem isNaN_truncate {x : Float} (h : x.isNaN = false) : (truncate x).isNaN = false := by
  by_cases hx : magnitude x < infinityBits
  · have hle := Nat.le_trans (roundTo_div_le 0 (magnitude x)) (Nat.le_of_lt hx)
    have hbits := magnitude_ofMagnitude (isNegative x) hle
    rw [truncate, onMagnitude, if_pos hx, Float.isNaN_eq_decide_eq_nan, decide_eq_false_iff_not]
    intro hnan
    have hlarge : ¬ magnitude Float.nan ≤ infinityBits := by decide
    rw [hnan] at hbits
    exact hlarge (Nat.le_trans (Nat.le_of_eq hbits) hle)
  · have hy : truncate x = x := if_neg hx
    rw [hy, h]

/-- Integers in a range, into which the ends of the range are converted as they are. -/
theorem convert_convert {low high : Float} {convert : Float → Float}
    (hdef : ∀ x, convert x = if x.isNaN then 0 else clamp low high (truncate x))
    (hzero : convert 0 = 0) (hlow : convert low = low) (hhigh : convert high = high) (x : Float) :
    convert (convert x) = convert x := by
  cases hx : x.isNaN with
  | true =>
    have hy : convert x = 0 := by rw [hdef, if_pos hx]
    rw [hy, hzero]
  | false =>
    have hy : convert x = clamp low high (truncate x) := by
      rw [hdef, hx, if_neg Bool.false_ne_true]
    rw [hy, clamp]
    split
    · exact hlow
    split
    · exact hhigh
    · rename_i hge hle
      rw [hdef, isNaN_truncate hx, if_neg Bool.false_ne_true, truncate_truncate, clamp, if_neg hge,
        if_neg hle]

end Scalar

/-- What has been converted to a type is not changed by being converted to it again. -/
theorem ElementType.cast_cast (t : ElementType) (x : Float) : t.cast (t.cast x) = t.cast x := by
  cases t with
  | double | tuple => rfl
  | half | bf16 | float | fp8e4m3fnuz | fp8e4m3fn | fp8e5m2 => exact Scalar.toSingle_toSingle x
  | bool =>
    rw [cast, cast]
    split <;> rfl
  | int8 | uint8 | int16 | uint16 | int32 | uint32 | int64 | uint64 =>
    exact Scalar.convert_convert (fun _ => rfl) (by decide +kernel) (by decide +kernel)
      (by decide +kernel) x

namespace Literal
variable {l : Literal}

theorem Made.cast_eq (h : l.Made) {e : Float} (he : e ∈ l.data) : l.shape.elementType.cast e = e := by
  obtain ⟨s, data, h⟩ := h
  obtain ⟨x, -, rfl⟩ := exists_of_ofData h he
  rw [(of_ofData_eq_ok h).1, Shape.elementType_asStandard, ElementType.cast_cast]

/-- The values of a literal are converted already. -/
theorem Made.map_cast (h : l.Made) : l.data.map l.shape.elementType.cast = l.data :=
  (Array.map_congr_left fun _ he => h.cast_eq he).trans (Array.map_id l.data)

private theorem Made.ofData_eq (h : l.Made) : ofData l.shape l.data = .ok l := by
  obtain ⟨l', hl', hshape, hdata⟩ := ofData_eq_ok h.elements l.size_le
  rw [hl', Literal.ext (hshape.trans h.asStandard) (hdata.trans h.map_cast)]

private theorem made_iff : l.Made ↔ ofData l.shape l.data = .ok l :=
  ⟨Made.ofData_eq, fun h => ⟨_, _, h⟩⟩

instance : Decidable l.Made :=
  decidable_of_iff _ made_iff.symm

theorem Made.ofComputed_eq (h : l.Made) : ofComputed l.shape l.data = .ok l := by
  rw [ofComputed, h.ofData_eq]

end Literal
end TensorGraph
