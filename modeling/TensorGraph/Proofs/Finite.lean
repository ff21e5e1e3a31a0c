import TensorGraph.Decimal.Reading
import TensorGraph.Proofs.Arithmetic

/-! Finite numbers. A numeral is read as a finite double or not at all, and a conversion keeps a double
finite unless it rounds to single precision and the double is too large for that. -/
namespace TensorGraph.Scalar
open Float.Model Float.Model.UnpackedFloat
variable {x y : Float} {s t : Sign} {m n : Nat} {e f b : Int} {a : Accuracy}

/-- The number is zero or has a last place of at most `2 ^ b`. -/
def Bounded (b : Int) (x : Float) : Prop :=
  (∃ s, unpacked x = .zero s) ∨ ∃ s m e h, unpacked x = .finite s m e h ∧ e ≤ b

theorem Bounded.isFinite (h : Bounded b x) : x.isFinite = true := by
  change (unpacked x).isFinite = true
  rcases h with ⟨s, hx⟩ | ⟨s, m, e, hm, hx, -⟩
  · rw [hx]
    rfl
  · rw [hx]
    rfl

private theorem bounded_of_isFinite (h : x.isFinite = true) : Bounded 971 x := by
  change (unpacked x).isFinite = true at h
  cases hx : unpacked x with
  | zero s => exact .inl ⟨s, hx⟩
  | finite s m e hm => exact .inr ⟨s, m, e, hm, hx, (canonical_of_unpacked hx).2⟩
  | infinity s =>
    rw [hx] at h
    cases h
  | notANumber =>
    rw [hx] at h
    cases h

private theorem bounded_neg (h : Bounded b x) : Bounded b (-x) := by
  rcases h with ⟨s, hx⟩ | ⟨s, m, e, hm, hx, he⟩
  · exact .inl ⟨_, by rw [unpacked_neg, hx]; rfl⟩
  · exact .inr ⟨_, m, e, hm, by rw [unpacked_neg, hx]; rfl, he⟩

/-- Rounding goes up by one exponent at most. -/
theorem bounded_round (hle : e ≤ max ((m.log2 : Int) + 1 + e - 53) (-1074))
    (hb : max ((m.log2 : Int) + 1 + e - 53) (-1074) < b) (hmost : b ≤ 971) :
    Bounded b (packed (roundWithAccuracy .binary64 s m e a)) := by
  rcases round_cases (s := s) (a := a) rfl hle with ⟨hr, -⟩ | ⟨r, f, hr', hr, hc, -, hf⟩
  · exact .inl ⟨s, by rw [hr, unpacked_packed_zero]⟩
  · refine .inr ⟨s, r, f, hr', ?_, by omega⟩
    rw [hr, unpacked_packed_finite hc, if_pos (by omega)]

/-- A product of finite numbers is a number. -/
theorem isFinite_mul (hx : x.isFinite = true) (hy : y.isFinite = true) (h : (x * y).isInf = false) :
    (x * y).isFinite = true := by
  have hmul : x * y = packed (UnpackedFloat.mul .binary64 (unpacked x) (unpacked y)) := rfl
  change (unpacked (x * y)).isInf = false at h
  change (unpacked (x * y)).isFinite = true
  rcases bounded_of_isFinite hx with ⟨s, hx⟩ | ⟨s, m, e, hm, hx, -⟩ <;>
    rcases bounded_of_isFinite hy with ⟨t, hy⟩ | ⟨t, n, f, hn, hy, -⟩
  · rw [hmul, hx, hy, UnpackedFloat.mul, unpacked_packed_zero]
    rfl
  · rw [hmul, hx, hy, UnpackedFloat.mul, unpacked_packed_zero]
    rfl
  · rw [hmul, hx, hy, UnpackedFloat.mul, unpacked_packed_zero]
    rfl
  · rw [hmul, hx, hy, UnpackedFloat.mul] at h ⊢
    obtain ⟨hcm, -⟩ := canonical_of_unpacked hx
    obtain ⟨hcn, -⟩ := canonical_of_unpacked hy
    have hlog : e = -1074 ∧ f = -1074 ∨ 52 ≤ (m * n).log2 := by
      have hfull : binade ≤ m * n → 52 ≤ (m * n).log2 := (Nat.le_log2 (Nat.mul_pos hm hn).ne').2
      rcases hcm.normal with he | hlarge
      · rcases hcn.normal with hf | hlarge
        · exact .inl ⟨he, hf⟩
        · exact .inr (hfull (hlarge.trans (Nat.le_mul_of_pos_left n hm)))
      · exact .inr (hfull (hlarge.trans (Nat.le_mul_of_pos_right m hn)))
    rcases round_cases (s := s * t) (m := m * n) (e := e + f) (a := .exact) rfl (by omega) with
      ⟨hr, -⟩ | ⟨r, g, hr', hr, hc, -⟩
    · rw [hr, unpacked_packed_zero]
      rfl
    · rw [hr, unpacked_packed_finite hc] at h ⊢
      split at h
      · rw [if_pos ‹_›]
        rfl
      · cases h

private theorem log2_div_le (hn : 0 < n) (hq : m / n ≠ 0) : (m / n).log2 + n.log2 ≤ m.log2 := by
  have hm : m ≠ 0 := by
    rintro rfl
    simp at hq
  refine (Nat.le_log2 hm).2 ?_
  calc 2 ^ ((m / n).log2 + n.log2) = 2 ^ (m / n).log2 * 2 ^ n.log2 := Nat.pow_add 2 _ _
    _ ≤ m / n * n := Nat.mul_le_mul (Nat.log2_self_le hq) (Nat.log2_self_le hn.ne')
    _ ≤ m := Nat.div_mul_le_self m n

private theorem le_log2_div (hn : 0 < n) {k : Nat} (h : k + n.log2 + 1 ≤ m.log2) :
    k ≤ (m / n).log2 := by
  have hm : m ≠ 0 := by
    rintro rfl
    simp at h
  have hpow : 2 ^ k ≤ m / n := by
    refine (Nat.le_div_iff_mul_le hn).2 ?_
    calc 2 ^ k * n ≤ 2 ^ k * 2 ^ (n.log2 + 1) := Nat.mul_le_mul_left _ Nat.lt_log2_self.le
      _ = 2 ^ (k + n.log2 + 1) := (Nat.pow_add 2 k (n.log2 + 1)).symm
      _ ≤ 2 ^ m.log2 := Nat.pow_le_pow_right (by decide) h
      _ ≤ m := Nat.log2_self_le hm
  exact (Nat.le_log2 (Nat.pos_of_ne_zero fun hz => by simp [hz] at hpow).ne').2 hpow

/-- Dividing by a number that is one at least goes up by one exponent at most. -/
theorem bounded_div (hx : Bounded b x) (hb : -1074 ≤ b) (hmost : b < 971) {hn : 0 < n}
    (hy : unpacked y = .finite t n f hn) (hone : 0 ≤ n.log2 + f) : Bounded (b + 1) (x / y) := by
  have hdiv : x / y = packed (UnpackedFloat.div .binary64 (unpacked x) (unpacked y)) := rfl
  rcases hx with ⟨s, hx⟩ | ⟨s, m, e, hm, hx, he⟩
  · refine .inl ⟨s / t, ?_⟩
    rw [hdiv, hx, hy, UnpackedFloat.div, unpacked_packed_zero]
  · obtain ⟨hc, -⟩ := canonical_of_unpacked hx
    have hlog : m.log2 < 53 := (Nat.log2_lt hm.ne').2 hc.lt
    rw [hdiv, hx, hy, UnpackedFloat.div, divCore, targetExponent_eq, totalExponent, totalExponent,
      Nat.shiftLeft_eq]
    dsimp only
    obtain ⟨g, hg⟩ : ∃ g, g = min (e - f) (max ((m.log2 : Int) + 1 + e - (n.log2 + 1 + f) - 53) (-1074)) :=
      ⟨_, rfl⟩
    obtain ⟨k, hk⟩ : ∃ k : Nat, (e - f - g).toNat = k := ⟨_, rfl⟩
    rw [← hg, hk]
    have hshift := log2_mul_two_pow hm k
    have hdigits : -1074 < g → 52 ≤ (m * 2 ^ k / n).log2 := fun hlt => le_log2_div hn (by omega)
    have hfew : m * 2 ^ k / n ≠ 0 → (m * 2 ^ k / n).log2 + n.log2 ≤ (m * 2 ^ k).log2 := log2_div_le hn
    refine bounded_round ?_ ?_ (by omega)
    · omega
    · by_cases hq : m * 2 ^ k / n = 0
      · rw [hq, Nat.log2_zero]
        omega
      · have hfew := hfew hq
        omega

private theorem bounded_toFloat (n : UInt64) : Bounded 12 n.toFloat := by
  change Bounded 12 (packed (UnpackedFloat.normalize .binary64 n.toNat 0 .positive))
  have hlt := n.toNat_lt
  by_cases hn : n.toNat = 0
  · rw [hn]
    exact .inl ⟨_, unpacked_packed_zero .positive⟩
  · obtain ⟨t, ht⟩ := exists_normalize (n := n.toNat) (by omega) 0
    have hlog : n.toNat.log2 < 64 := (Nat.log2_lt hn).2 hlt
    obtain ⟨j, hj⟩ : ∃ j : Nat, j = 52 - n.toNat.log2 := ⟨_, rfl⟩
    have hshift := log2_mul_two_pow (Nat.pos_of_ne_zero hn) j
    rw [ht, Int.natAbs_natCast, UnpackedFloat.round, targetExponent_eq, totalExponent,
      decreaseExponent_eq (k := j) (by omega)]
    refine bounded_round ?_ ?_ (by decide)
    · omega
    · omega

/-- A decimal with an exponent is rounded from all its digits. -/
theorem ofScientific_eq (hn : 0 < n) {k : Nat} (hk : k ≤ 308) :
    UnpackedFloat.ofScientific .binary64 n k =
      roundWithAccuracy .binary64 .positive (n * 10 ^ k * 2 ^ 53) (-53) .exact := by
  have hbits : (2 : Int) ^ Format.binary64.exponentBits = 2048 := rfl
  have hlarge : ¬ (k : Int) > 2 ^ Format.binary64.exponentBits := by omega
  have hsmall : ¬ (k : Int) < -((2 : Int) ^ Format.binary64.exponentBits + n.log2) := by omega
  have hshift : n <<< Format.binary64.mantissaBits * 10 ^ (k : Int).toNat = n * 10 ^ k * 2 ^ 53 := by
    rw [Nat.shiftLeft_eq, Int.toNat_natCast, Nat.mul_right_comm]
    rfl
  rw [UnpackedFloat.ofScientific, dif_neg hn.ne', if_neg hlarge, if_neg hsmall,
    if_pos (Int.natCast_nonneg k)]
  simp only [UnpackedFloat.mul]
  rw [hshift]
  rfl

private theorem bounded_ofNat (h : n < Word.limit) : Bounded 12 (Float.ofNat n) := by
  change Bounded 12 (Float.ofScientific n false 0)
  rw [Float.ofScientific]
  split
  · have hpower : Float.exactlyRepresentablePowersOfTen[0] = 1 := by decide +kernel
    simp only [Bool.false_eq_true, if_false]
    rw [hpower, Scalar.mul_one]
    exact bounded_toFloat _
  · rename_i hlarge
    have hn : 0 < n := by omega
    have hlog : n.log2 < 64 := (Nat.log2_lt hn.ne').2 h
    have hshift := log2_mul_two_pow hn 53
    change Bounded 12 (packed (UnpackedFloat.ofScientific .binary64 n (0 : Nat)))
    rw [ofScientific_eq hn (by decide), Nat.pow_zero, Nat.mul_one]
    refine bounded_round ?_ ?_ (by decide)
    · omega
    · omega

theorem bounded_ofInt {i : Int} (h : -(Word.signedLimit : Int) ≤ i ∧ i < Word.limit) :
    Bounded 12 (Float.ofInt i) := by
  cases i with
  | ofNat n => exact bounded_ofNat (by simpa using h.2)
  | negSucc n =>
    refine bounded_neg (bounded_ofNat ?_)
    have hlimit : Word.signedLimit < Word.limit := by decide
    have hlow := h.1
    omega

/-- The magnitude bits from which rounding to single precision gives infinity: half a step below
`2 ^ 128`. -/
def singleLimit : Nat := (1023 + 128) * binade - Nat.pow 2 28

/-- From `2 ^ 127` on, 29 digits are dropped. -/
private theorem roundTo_large {bits : Nat} (h : 1150 * 4503599627370496 ≤ bits) :
    roundTo divNearest (max (lastPlace bits + 29) (-149)) bits =
      bits - significand bits + divNearest (significand bits) 536870912 * 536870912 := by
  have hplace : lastPlace bits = (bits / 4503599627370496 : Nat) - 1075 := by
    rw [lastPlace, binade_eq]
    omega
  have hdrop : (max (lastPlace bits + 29) (-149) - lastPlace bits).toNat = 29 := by omega
  have hfull : 4503599627370496 ≤ significand bits := by
    rw [significand, binade_eq, if_neg (by omega)]
    omega
  have hle := rounds_divNearest.lower (significand bits) 536870912
  rw [roundTo_of_coarse divNearest (by omega), hdrop]
  exact if_neg (show divNearest (significand bits) 536870912 ≠ 0 by omega)

/-- Below `2 ^ 127`, rounding does not reach `2 ^ 128`. -/
private theorem roundTo_small {bits : Nat} (place : Int) (h : bits < 1150 * 4503599627370496) :
    roundTo divNearest place bits < 1151 * 4503599627370496 := by
  obtain ⟨e, he, hlast, hbits, hlt, hnormal⟩ := exists_split bits
  have hround := rounded_roundTo rounds_divNearest place bits
  generalize roundTo divNearest place bits = r at hround ⊢
  obtain ⟨e', he', hlast', hr, hlt', -⟩ := exists_split r
  rw [binade_eq] at hbits hlt hnormal hr hlt'
  cases hround with
  | fine => omega
  | zero => decide
  | within hsame => omega
  | carried _ hnext hs =>
    rw [binade_eq] at hs
    omega

private theorem singleBits_lt_iff {bits : Nat} :
    singleBits bits < infinityBits ↔ bits < singleLimit := by
  have hiff : singleBits bits < infinityBits ↔
      roundTo divNearest (max (lastPlace bits + 29) (-149)) bits < 1151 * 4503599627370496 := by
    rw [singleBits]
    split
    · rename_i hlt
      exact iff_of_true (hlt.trans (by decide)) hlt
    · rename_i hge
      exact iff_of_false (Nat.lt_irrefl _) hge
  rw [hiff]
  change _ ↔ bits < 1151 * 4503599627370496 - 268435456
  rcases Nat.lt_or_ge bits (1150 * 4503599627370496) with hsmall | hlarge
  · exact iff_of_true (roundTo_small _ hsmall) (by omega)
  · obtain ⟨e, he, hlast, hbits, hlt, hnormal⟩ := exists_split bits
    rw [roundTo_large hlarge, divNearest]
    rw [binade_eq] at hbits hlt hnormal
    generalize significand bits = n at hbits hlt hnormal ⊢
    split
    · omega
    · omega

private theorem isFinite_toSingle_iff (hx : x.isFinite = true) :
    (toSingle x).isFinite = true ↔ magnitude x < singleLimit := by
  have hbits := (isFinite_iff x).1 hx
  have hle : singleBits (magnitude x) ≤ infinityBits := by
    rw [singleBits]
    split
    · rename_i hlt
      exact Nat.le_of_lt (hlt.trans (by decide))
    · exact Nat.le_refl _
  rw [toSingle, onMagnitude, if_pos hbits, isFinite_iff, magnitude_ofMagnitude _ hle, singleBits_lt_iff]

private theorem isFinite_truncate (hx : x.isFinite = true) : (truncate x).isFinite = true := by
  have hbits := (isFinite_iff x).1 hx
  have hlt := Nat.lt_of_le_of_lt (roundTo_div_le 0 (magnitude x)) hbits
  rw [truncate, onMagnitude, if_pos hbits, isFinite_iff, magnitude_ofMagnitude _ (Nat.le_of_lt hlt)]
  exact hlt

private theorem isFinite_clamp {low high : Float} (hlow : low.isFinite = true)
    (hhigh : high.isFinite = true) (hx : x.isFinite = true) :
    (clamp low high x).isFinite = true := by
  rw [clamp]
  split
  · exact hlow
  split
  · exact hhigh
  · exact hx

end TensorGraph.Scalar

namespace TensorGraph.ElementType
open TensorGraph.Scalar

/-- The value is too large for the type: a floating type other than `double` holds single-precision
values, and has no largest one to fall back on. -/
def overflows (t : ElementType) (x : Float) : Bool :=
  t.isFloating && t != .double && decide (singleLimit ≤ magnitude x)

/-- A conversion of a finite value is finite, unless the value is too large for the type. -/
theorem isFinite_cast_iff (t : ElementType) {x : Float} (hx : x.isFinite = true) :
    (t.cast x).isFinite = true ↔ t.overflows x = false := by
  cases t with
  | bool =>
    refine iff_of_true ?_ rfl
    rw [cast]
    split
    · decide +kernel
    · decide +kernel
  | double | tuple => exact iff_of_true hx rfl
  | half | bf16 | float | fp8e4m3fnuz | fp8e4m3fn | fp8e5m2 =>
    refine (isFinite_toSingle_iff hx).trans ?_
    change _ ↔ decide (singleLimit ≤ magnitude x) = false
    rw [decide_eq_false_iff_not, Nat.not_le]
  | int8 | uint8 | int16 | uint16 | int32 | uint32 | int64 | uint64 =>
    refine iff_of_true ?_ rfl
    rw [cast]
    split
    · decide +kernel
    · exact isFinite_clamp (by decide +kernel) (by decide +kernel) (isFinite_truncate hx)

end TensorGraph.ElementType

namespace TensorGraph.Decimal
open TensorGraph.Scalar Float.Model Float.Model.UnpackedFloat

/-- The number is finite, and one at least. -/
private def isLarge (x : Float) : Bool :=
  match unpacked x with
  | .finite .positive m e _ => decide (0 ≤ m.log2 + e)
  | _ => false

private theorem of_isLarge {x : Float} (h : isLarge x = true) :
    ∃ m e h, unpacked x = .finite .positive m e h ∧ 0 ≤ m.log2 + e := by
  rw [isLarge] at h
  split at h
  · rename_i m e hm hx
    exact ⟨m, e, hm, hx, of_decide_eq_true h⟩
  · cases h

/-- The powers of ten that numerals are scaled by are finite, and one at least. -/
theorem unpacked_powerOfTen {k : Nat} (hk : k ≤ 308) :
    ∃ m e h, unpacked (powerOfTen k) = .finite .positive m e h ∧ 0 ≤ m.log2 + e := by
  by_cases hexact : k ≤ 22
  · have hall : ∀ k < 23, isLarge (powerOfTen k) = true := by decide +kernel
    exact of_isLarge (hall k (by omega))
  by_cases hlast : k = 308
  · subst hlast
    exact of_isLarge (by decide +kernel)
  have hpower : powerOfTen k = packed (.ofScientific .binary64 1 k) := by
    rw [powerOfTen, Float.ofScientific, dif_neg (by omega)]
    rfl
  have hpos : 0 < 10 ^ k := Nat.pow_pos (by decide)
  have hlt : 10 ^ k < 2 ^ 1023 :=
    Nat.lt_of_le_of_lt (Nat.pow_le_pow_right (by decide) (show k ≤ 307 by omega)) (by decide +kernel)
  have hdigits : ∀ j, 10 ^ k < 2 ^ j → (10 ^ k).log2 < j := fun j => (Nat.log2_lt hpos.ne').2
  have hlog := hdigits 1023 hlt
  have hshift := log2_mul_two_pow hpos 53
  rw [hpower, ofScientific_eq Nat.one_pos hk, Nat.one_mul]
  rcases round_cases (s := .positive) (m := 10 ^ k * 2 ^ 53) (e := -53) (a := .exact) rfl (by omega) with
    ⟨-, hleast⟩ | ⟨r, f, hr', hr, hc, hge, hle⟩
  · omega
  · have hfull : 52 ≤ r.log2 := by
      refine (Nat.le_log2 hr'.ne').2 (hc.normal.resolve_left ?_)
      omega
    refine ⟨r, f, hr', ?_, by omega⟩
    rw [hr, unpacked_packed_finite hc, if_pos (by omega)]

theorem Scaled.isFinite_of_toFloat? {s : Scaled} {x : Float} (h : s.toFloat? = some x) :
    x.isFinite = true := by
  have hstart := bounded_toFloat (UInt64.ofNat s.significand)
  rw [Scaled.toFloat?] at h
  dsimp only at h
  split at h
  · cases h
    exact hstart.isFinite
  split at h
  · cases h
  rename_i hmost
  split at h
  · split at h
    · cases h
    · rename_i hinf
      cases h
      obtain ⟨m, e, hm, hp, -⟩ := unpacked_powerOfTen (k := s.exponent.toNat) (by omega)
      refine isFinite_mul hstart.isFinite ?_ (Bool.eq_false_iff.2 hinf)
      exact Bounded.isFinite (.inr ⟨_, m, e, hm, hp, Int.le_refl e⟩)
  split at h
  · cases h
    obtain ⟨m, e, hm, hp, hone⟩ := unpacked_powerOfTen (k := (-s.exponent).toNat) (by omega)
    exact (bounded_div hstart (by decide) (by decide) hp hone).isFinite
  split at h
  · cases h
    obtain ⟨m, e, hm, hp, hone⟩ := unpacked_powerOfTen (k := 308) (by decide)
    obtain ⟨n, f, hn, hq, hone'⟩ := unpacked_powerOfTen (k := (-s.exponent - 308).toNat) (by omega)
    have hfirst := bounded_div hstart (by decide) (by decide) hp hone
    exact (bounded_div hfirst (by decide) (by decide) hq hone').isFinite
  · cases h
    decide +kernel

/-- A numeral that is read as a double is finite. -/
theorem Numeral.isFinite_of_toFloat? {n : Numeral} {x : Float} (h : n.toFloat? = some x) :
    x.isFinite = true := by
  obtain ⟨y, hy, rfl⟩ := Option.map_eq_some_iff.1 h
  have hfinite := Scaled.isFinite_of_toFloat? hy
  split
  · exact (bounded_neg (bounded_of_isFinite hfinite)).isFinite
  · exact hfinite

theorem Numeral.toInt?_bounds {n : Numeral} {i : Int} (h : n.toInt? = some i) :
    -(Word.signedLimit : Int) ≤ i ∧ i < Word.limit := by
  rw [Numeral.toInt?] at h
  split at h
  · cases h
  · dsimp only at h
    generalize n.whole.foldl (fun acc digit => acc * 10 + digit) 0 = value at h
    have hlimit : (0 : Int) < Word.limit := by decide
    split at h
    · split at h
      · cases h
        omega
      · cases h
    · split at h
      · cases h
        omega
      · cases h

end TensorGraph.Decimal
