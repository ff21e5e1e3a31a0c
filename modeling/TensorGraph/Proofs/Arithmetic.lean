import Mathlib
import TensorGraph.Proofs.Conversion

/-! Arithmetic of element values. Zero is neutral in sums and differences, one in products and
quotients, and an integer that counts as zero or one in a comparison up to tolerance is zero or one. -/
namespace TensorGraph.Scalar
open Float.Model Float.Model.UnpackedFloat
variable {x y : Float} {s : Sign} {m k : Nat} {e : Int}

def unpacked (x : Float) : UnpackedFloat :=
  x.toModel.unpack

def packed (u : UnpackedFloat) : Float :=
  .ofModel (pack u)

@[simp] theorem packed_unpacked (x : Float) : packed (unpacked x) = x :=
  Float.toBits_inj.1 (UInt64.toBitVec_inj.1 (pack_unpack_of_valid x.toModel.valid))

private theorem eq_of_unpacked {u : UnpackedFloat} (h : unpacked x = u) : x = packed u := by
  rw [← h, packed_unpacked]

/-- The mantissa and the exponent that a finite number has, but for a bound on the exponent. -/
structure Canonical (m : Nat) (e : Int) : Prop where
  lt : m < 2 * binade
  least : -1074 ≤ e
  normal : e = -1074 ∨ binade ≤ m

private theorem exponent_eq (x : Float) :
    (@unpackExponent .binary64 x.toModel.toBits.toBitVec).toNat = magnitude x / binade := by
  have hlt := x.toBits.toNat_lt
  rw [unpackExponent_def]
  change (x.toBits.toNat >>> 52) % 2 ^ 11 = (x.toBits.toNat % 9223372036854775808) / 4503599627370496
  rw [Nat.shiftRight_eq_div_pow]
  omega

private theorem mantissa_eq (x : Float) :
    (@unpackMantissa .binary64 x.toModel.toBits.toBitVec).toNat = magnitude x % binade := by
  rw [unpackMantissa_def]
  change (x.toBits.toNat >>> 0) % 2 ^ 52 = (x.toBits.toNat % 9223372036854775808) % 4503599627370496
  rw [Nat.shiftRight_zero]
  omega

private theorem canonical_split (bits : Nat) : Canonical (significand bits) (lastPlace bits) := by
  obtain ⟨e, he, hlast, -, hlt, hnormal⟩ := exists_split bits
  exact ⟨hlt, by omega, hnormal.imp_left fun h => by omega⟩

/-- A finite number is its significand at its last place. -/
theorem split_of_unpacked {h : 0 < m} (hx : unpacked x = .finite s m e h) :
    magnitude x < infinityBits ∧ significand (magnitude x) = m ∧ lastPlace (magnitude x) = e := by
  have he := exponent_eq x
  have hm := mantissa_eq x
  have hlt := (@unpackExponent .binary64 x.toModel.toBits.toBitVec).isLt
  replace hlt : (@unpackExponent .binary64 x.toModel.toBits.toBitVec).toNat < 2048 := hlt
  rw [binade_eq] at he hm
  rw [unpacked, Float.Model.unpack, UnpackedFloat.unpack] at hx
  rw [lastPlace, significand, binade_eq]
  change magnitude x < 2047 * 4503599627370496 ∧ _
  split at hx
  · split at hx <;> cases hx
  rename_i hmax
  have hmax : magnitude x / 4503599627370496 ≠ 2047 := he ▸ fun h => hmax (BitVec.eq_of_toNat_eq h)
  split at hx
  · rename_i hzero
    rw [hzero] at he
    change 0 = _ at he
    split at hx
    · cases hx
    · cases hx
      rw [hm, hzero, if_pos (by omega)]
      refine ⟨by omega, by omega, ?_⟩
      rw [← he]
      rfl
  · rename_i hzero
    have hzero : magnitude x / 4503599627370496 ≠ 0 := he ▸ fun h => hzero (BitVec.eq_of_toNat_eq h)
    cases hx
    rw [BitVec.toNat_append, ← Nat.shiftLeft_add_eq_or_of_lt (BitVec.isLt _), hm, he,
      if_neg (by omega)]
    refine ⟨by omega, ?_, ?_⟩
    · change _ = 1 <<< 52 + _
      rw [Nat.shiftLeft_eq]
      omega
    · change _ = _ - ((1023 : Int) + 52)
      omega

theorem isFinite_iff (x : Float) : x.isFinite = true ↔ magnitude x < infinityBits := by
  have he := exponent_eq x
  have hmagnitude : magnitude x < 2048 * 4503599627370496 := Nat.mod_lt _ (by decide)
  rw [binade_eq] at he
  change (unpacked x).isFinite = true ↔ magnitude x < 2047 * 4503599627370496
  rw [unpacked, Float.Model.unpack, UnpackedFloat.unpack]
  split
  · rename_i hmax
    rw [hmax] at he
    change 2047 = _ at he
    have hlarge : ¬ magnitude x < 2047 * 4503599627370496 := by omega
    split
    · simp [UnpackedFloat.isFinite, hlarge]
    · simp [UnpackedFloat.isFinite, hlarge]
  · rename_i hmax
    have hmax : magnitude x / 4503599627370496 ≠ 2047 := he ▸ fun h => hmax (BitVec.eq_of_toNat_eq h)
    have hsmall : magnitude x < 2047 * 4503599627370496 := by omega
    split
    · split
      · simp [UnpackedFloat.isFinite, hsmall]
      · simp [UnpackedFloat.isFinite, hsmall]
    · simp [UnpackedFloat.isFinite, hsmall]

theorem canonical_of_unpacked {h : 0 < m} (hx : unpacked x = .finite s m e h) :
    Canonical m e ∧ e ≤ 971 := by
  obtain ⟨hlt, rfl, rfl⟩ := split_of_unpacked hx
  refine ⟨canonical_split _, ?_⟩
  replace hlt : magnitude x < 2047 * 4503599627370496 := hlt
  rw [lastPlace, binade_eq]
  omega

/-- What is packed is found again, unless the exponent is too large. -/
theorem unpacked_packed_finite (hc : Canonical m e) (h : 0 < m) :
    unpacked (packed (.finite s m e h)) = if e ≤ 971 then .finite s m e h else .infinity s := by
  obtain ⟨hlt, hleast, hnormal⟩ := hc
  rw [binade_eq] at hlt hnormal
  obtain ⟨b, hb⟩ : ∃ b : Nat, e = b - 1075 := ⟨(e + 1075).toNat, by omega⟩
  have hbiased : (e + (Format.exponentBias .binary64 : Nat) + (52 : Nat)).toNat = b := by
    change (e + (1023 : Nat) + (52 : Nat)).toNat = b
    omega
  have hlog : m.log2 < 53 := (Nat.log2_lt h.ne').2 hlt
  change UnpackedFloat.unpack .binary64 (UnpackedFloat.pack .binary64 _) = _
  rw [UnpackedFloat.pack]
  dsimp only
  rw [hbiased]
  change UnpackedFloat.unpack .binary64 (if 2048 ≤ b + 1 then _ else if m.log2 + 1 = 53 then _
    else _) = _
  by_cases hbig : e ≤ 971
  swap
  · rw [if_neg hbig, if_pos (by omega)]
    simp [UnpackedFloat.unpack, packedInfinity]
  rw [if_pos hbig, if_neg (by omega)]
  have hexp : (BitVec.ofNat 11 b).toNat = b := by
    rw [BitVec.toNat_ofNat, Nat.mod_eq_of_lt (by omega)]
  by_cases hfull : m.log2 + 1 = 53
  · have hge : 2 ^ 52 ≤ m := (Nat.le_log2 h.ne').1 (by omega)
    rw [if_pos hfull, UnpackedFloat.unpack]
    simp only [unpackExponent_packComponents, unpackMantissa_packComponents, unpackSign_packComponents,
      Sign.ofBitVec_toBitVec]
    rw [if_neg, if_neg]
    · congr 1
      · rw [BitVec.toNat_append, ← Nat.shiftLeft_add_eq_or_of_lt (BitVec.isLt _), BitVec.toNat_ofNat]
        change 1 <<< 52 + m % 2 ^ 52 = m
        rw [Nat.shiftLeft_eq]
        omega
      · rw [hexp]
        change (b : Int) - ((1023 : Int) + 52) = e
        omega
    · intro hzero
      rw [hzero] at hexp
      change 0 = _ at hexp
      omega
    · intro hmax
      rw [hmax] at hexp
      change 2047 = _ at hexp
      omega
  · have hsub : m < 2 ^ 52 := (Nat.log2_lt h.ne').1 (by omega)
    have hmant : (BitVec.ofNat 52 m).toNat = m := by
      rw [BitVec.toNat_ofNat, Nat.mod_eq_of_lt hsub]
    rw [if_neg hfull, UnpackedFloat.unpack]
    simp only [unpackExponent_packComponents, unpackMantissa_packComponents, unpackSign_packComponents,
      Sign.ofBitVec_toBitVec]
    rw [if_neg (by decide), if_pos trivial, dif_neg]
    · congr 1
      change (0 : Int) - ((1023 : Int) + 52) + 1 = e
      omega
    · intro hzero
      rw [hzero] at hmant
      change 0 = _ at hmant
      omega

theorem unpacked_packed_zero (s : Sign) : unpacked (packed (.zero s)) = .zero s :=
  unpack_packedZero

private theorem unpacked_packed_infinity (s : Sign) :
    unpacked (packed (.infinity s)) = .infinity s := by
  change UnpackedFloat.unpack .binary64 (packedInfinity .binary64 s) = _
  simp [UnpackedFloat.unpack, packedInfinity]

/-- A number is found again with another sign. -/
theorem unpacked_packed_signed (x : Float) {f : UnpackedFloat → UnpackedFloat} (g : Sign → Sign)
    (hf : f .notANumber = .notANumber ∧ (∀ s, f (.infinity s) = .infinity (g s)) ∧
      (∀ s, f (.zero s) = .zero (g s)) ∧ ∀ s m e h, f (.finite s m e h) = .finite (g s) m e h) :
    unpacked (packed (f (unpacked x))) = f (unpacked x) := by
  obtain ⟨hnan, hinfinity, hzero, hfinite⟩ := hf
  cases hx : unpacked x with
  | notANumber =>
    rw [hnan]
    exact @unpack_packedNaN .binary64
  | infinity s => rw [hinfinity, unpacked_packed_infinity]
  | zero s => rw [hzero, unpacked_packed_zero]
  | finite s m e h =>
    obtain ⟨hc, hle⟩ := canonical_of_unpacked hx
    rw [hfinite, unpacked_packed_finite hc, if_pos hle]

theorem unpacked_neg (x : Float) : unpacked (-x) = (unpacked x).neg :=
  unpacked_packed_signed x (- ·) ⟨rfl, fun _ => rfl, fun _ => rfl, fun _ _ _ _ => rfl⟩

private theorem unpacked_abs (x : Float) : unpacked x.abs = (unpacked x).abs :=
  unpacked_packed_signed x (fun _ => .positive) ⟨rfl, fun _ => rfl, fun _ => rfl, fun _ _ _ _ => rfl⟩

theorem targetExponent_eq (total : Int) :
    Format.binary64.targetExponent total = max (total - 53) (-1074) :=
  rfl

/-- Bits that are not set are dropped without a trace. -/
theorem shift_exact (m k : Nat) :
    (⟨m * 2 ^ k, false, false⟩ : ExtendedMantissa) >>> k = ⟨m, false, false⟩ := by
  induction k generalizing m with
  | zero => simp [HShiftRight.hShiftRight, Nat.repeat]
  | succ k ih =>
    have hdouble : m * 2 ^ (k + 1) = (m * 2) * 2 ^ k := by ring
    rw [hdouble]
    change ((⟨(m * 2) * 2 ^ k, false, false⟩ : ExtendedMantissa) >>> k).shiftRightOne = _
    rw [ih]
    simp [ExtendedMantissa.shiftRightOne]

private theorem mantissa_shift (em : ExtendedMantissa) (k : Nat) :
    (em >>> k).mantissa = em.mantissa / 2 ^ k := by
  induction k with
  | zero => simp [HShiftRight.hShiftRight, Nat.repeat]
  | succ k ih =>
    change (em >>> k).mantissa / 2 = _
    rw [ih, Nat.div_div_eq_div_mul, Nat.pow_succ]

private theorem roundedMantissa_bounds (em : ExtendedMantissa) :
    em.mantissa ≤ em.roundedMantissa ∧ em.roundedMantissa ≤ em.mantissa + 1 := by
  obtain ⟨m, half, rest⟩ := em
  cases half <;> cases rest <;>
    simp [ExtendedMantissa.roundedMantissa, ExtendedMantissa.accuracy, Accuracy.roundToNearestEven]
  omega

/-- Mantissas that do not carry over stay at their exponent. -/
theorem shiftToTargetExponent_of_lt (hlt : m < 2 * binade) (hle : -1074 ≤ e) :
    shiftToTargetExponent .binary64 m e .exact = (⟨m, false, false⟩, e) := by
  have hlog : m.log2 ≤ 52 := by
    by_cases hm : m = 0
    · simp [hm]
    · exact Nat.le_of_lt_succ ((Nat.log2_lt hm).2 hlt)
  rw [shiftToTargetExponent, targetExponent_eq, totalExponent, shiftToExponent,
    Int.toNat_of_nonpos (by omega)]
  exact Prod.ext rfl (Int.add_zero e)

private theorem shiftToTargetExponent_of_eq (hle : -1074 ≤ e) :
    shiftToTargetExponent .binary64 (2 * binade) e .exact = (⟨binade, false, false⟩, e + 1) := by
  have hlog : (2 * binade).log2 = 53 := by decide
  rw [shiftToTargetExponent, targetExponent_eq, totalExponent, shiftToExponent, hlog]
  have hone : (max (((53 : Nat) : Int) + 1 + e - 53) (-1074) - e).toNat = 1 := by omega
  rw [hone]
  exact Prod.ext (shift_exact binade 1) rfl

private theorem mantissa_ofMantissaAndAccuracy (m : Nat) (acc : Accuracy) :
    (ExtendedMantissa.ofMantissaAndAccuracy m acc).mantissa = m := by
  cases acc with
  | exact => rfl
  | inexact o => cases o <;> rfl

/-- A number with more digits than fit is rounded to one at its target exponent, or carries over to
the next. -/
theorem round_cases {a : Accuracy} {target : Int} (ht : target = max (m.log2 + 1 + e - 53) (-1074))
    (hle : e ≤ target) :
    roundWithAccuracy .binary64 s m e a = .zero s ∧ target = -1074 ∨
      ∃ r f h, roundWithAccuracy .binary64 s m e a = .finite s r f h ∧ Canonical r f ∧
        target ≤ f ∧ f ≤ target + 1 := by
  have htarget : Format.binary64.targetExponent (totalExponent m e) = target := by
    rw [targetExponent_eq, totalExponent, ht]
  obtain ⟨k, rfl⟩ : ∃ k : Nat, target = e + k := ⟨(target - e).toNat, by omega⟩
  have hfirst : shiftToTargetExponent .binary64 m e a =
      (ExtendedMantissa.ofMantissaAndAccuracy m a >>> k, e + k) := by
    rw [shiftToTargetExponent, htarget, shiftToExponent, add_sub_cancel_left, Int.toNat_natCast]
  have hquot : m / 2 ^ k < 2 * binade ∧ (e + k = -1074 ∨ binade ≤ m / 2 ^ k) := by
    refine ⟨(Nat.div_lt_iff_lt_mul (Nat.two_pow_pos k)).2 ?_, ?_⟩
    · calc m < 2 ^ (m.log2 + 1) := Nat.lt_log2_self
        _ ≤ 2 ^ (53 + k) := Nat.pow_le_pow_right (by decide) (by omega)
        _ = 2 * binade * 2 ^ k := Nat.pow_add 2 53 k
    · refine or_iff_not_imp_left.2 fun hne => (Nat.le_div_iff_mul_le (Nat.two_pow_pos k)).2 ?_
      have hlog : 52 + k = m.log2 := by omega
      have hm : m ≠ 0 := by
        rintro rfl
        simp at hlog
      calc binade * 2 ^ k = 2 ^ (52 + k) := (Nat.pow_add 2 52 k).symm
        _ = 2 ^ m.log2 := by rw [hlog]
        _ ≤ m := Nat.log2_self_le hm
  obtain ⟨hlow, hhigh⟩ := roundedMantissa_bounds (ExtendedMantissa.ofMantissaAndAccuracy m a >>> k)
  rw [mantissa_shift, mantissa_ofMantissaAndAccuracy] at hlow hhigh
  rw [roundWithAccuracy, hfirst]
  dsimp only
  generalize (ExtendedMantissa.ofMantissaAndAccuracy m a >>> k).roundedMantissa = r at hlow hhigh ⊢
  rcases Nat.lt_or_eq_of_le (show r ≤ 2 * binade by omega) with hlt | rfl
  · rw [shiftToTargetExponent_of_lt hlt (by omega)]
    dsimp only
    split
    · rename_i hr
      rw [hr, Nat.le_zero] at hlow
      exact .inl ⟨rfl, hquot.2.resolve_right (by rw [hlow]; decide)⟩
    · rename_i hr
      refine .inr ⟨r, e + k, Nat.pos_of_ne_zero hr, rfl, ⟨hlt, by omega, ?_⟩, by omega, by omega⟩
      exact hquot.2.imp_right fun hge => Nat.le_trans hge hlow
  · rw [shiftToTargetExponent_of_eq (by omega)]
    exact .inr ⟨binade, e + k + 1, by decide, rfl, ⟨by decide, by omega, .inr (Nat.le_refl _)⟩,
      by omega, by omega⟩

theorem log2_mul_two_pow (h : 0 < m) (k : Nat) : (m * 2 ^ k).log2 = m.log2 + k := by
  refine (Nat.log2_eq_iff (by positivity)).2 ⟨?_, ?_⟩
  · rw [Nat.pow_add]
    exact Nat.mul_le_mul_right _ (Nat.log2_self_le h.ne')
  · rw [Nat.add_right_comm, Nat.pow_add]
    exact Nat.mul_lt_mul_of_pos_right Nat.lt_log2_self (Nat.two_pow_pos k)

/-- What has a mantissa and an exponent is not changed by rounding. -/
theorem round_exact (hc : Canonical m e) (h : 0 < m) (k : Nat) :
    roundWithAccuracy .binary64 s (m * 2 ^ k) (e - k) .exact = .finite s m e h := by
  have hlog := log2_mul_two_pow h k
  have hlt : m.log2 < 53 := (Nat.log2_lt h.ne').2 hc.lt
  have hfull : e = -1074 ∨ 52 ≤ m.log2 := hc.normal.imp_right (Nat.le_log2 h.ne').2
  have hleast := hc.least
  have htarget : Format.binary64.targetExponent (totalExponent (m * 2 ^ k) (e - k)) = e := by
    rw [targetExponent_eq, totalExponent, hlog]
    omega
  have hfirst : shiftToTargetExponent .binary64 (m * 2 ^ k) (e - k) .exact =
      (⟨m, false, false⟩, e) := by
    rw [shiftToTargetExponent, htarget, shiftToExponent, sub_sub_cancel, Int.toNat_natCast]
    exact Prod.ext (shift_exact m k) (Int.sub_add_cancel e k)
  have hkept : (⟨m, false, false⟩ : ExtendedMantissa).roundedMantissa = m := rfl
  rw [roundWithAccuracy, hfirst]
  dsimp only
  rw [hkept, shiftToTargetExponent_of_lt hc.lt hleast]
  exact dif_neg h.ne'

protected theorem neg_neg (x : Float) : - -x = x := by
  have hneg : ∀ u : UnpackedFloat, u.neg.neg = u := by
    intro u
    obtain s | _ | s | ⟨s, m, e, h⟩ := u
    · cases s <;> rfl
    · rfl
    · cases s <;> rfl
    · cases s <;> rfl
  rw [eq_of_unpacked (unpacked_neg (-x)), unpacked_neg, hneg, packed_unpacked]

/-- A sum with zero is the other value, but for a zero of the other sign. -/
protected theorem add_zero (hx : x ≠ -0) (hy : y = 0 ∨ y = -0) :
    x + y = x ∧ y + x = x ∧ x - y = x := by
  obtain ⟨t, ht⟩ : ∃ t, unpacked y = .zero t := by
    rcases hy with rfl | rfl
    · exact ⟨.positive, rfl⟩
    · exact ⟨.negative, rfl⟩
  have hpacked : ∀ {u : UnpackedFloat}, u = unpacked x → packed u = x := by
    rintro _ rfl
    exact packed_unpacked x
  suffices h : UnpackedFloat.add .binary64 (unpacked x) (.zero t) = unpacked x ∧
      UnpackedFloat.add .binary64 (.zero t) (unpacked x) = unpacked x ∧
      UnpackedFloat.sub .binary64 (unpacked x) (.zero t) = unpacked x by
    rw [← ht] at h
    exact ⟨hpacked h.1, hpacked h.2.1, hpacked h.2.2⟩
  cases hu : unpacked x with
  | zero s =>
    cases s with
    | negative => exact absurd (eq_of_unpacked hu) hx
    | positive => cases t <;> exact ⟨rfl, rfl, rfl⟩
  | _ => exact ⟨rfl, rfl, rfl⟩

private theorem unpacked_one : unpacked 1 = .finite .positive binade (-52) (by decide) := by
  have hone : (1 : Float) = packed (.finite .positive binade (-52) (by decide)) := by decide +kernel
  rw [hone, unpacked_packed_finite ⟨by decide, by decide, .inr (Nat.le_refl _)⟩]
  rfl

private theorem sign_of_positive (s : Sign) :
    s * .positive = s ∧ .positive * s = s ∧ s / .positive = s := by
  cases s <;> exact ⟨rfl, rfl, rfl⟩

protected theorem mul_one (x : Float) : x * 1 = x := by
  refine Eq.trans ?_ (packed_unpacked x)
  change packed (UnpackedFloat.mul .binary64 (unpacked x) (unpacked 1)) = _
  rw [unpacked_one]
  cases hx : unpacked x with
  | notANumber => rfl
  | infinity s => cases s <;> rfl
  | zero s => cases s <;> rfl
  | finite s m e h =>
    rw [UnpackedFloat.mul, (sign_of_positive s).1, ← sub_eq_add_neg]
    exact congrArg packed (round_exact (canonical_of_unpacked hx).1 h 52)

protected theorem one_mul (x : Float) : 1 * x = x := by
  refine Eq.trans ?_ (packed_unpacked x)
  change packed (UnpackedFloat.mul .binary64 (unpacked 1) (unpacked x)) = _
  rw [unpacked_one]
  cases hx : unpacked x with
  | notANumber => rfl
  | infinity s => cases s <;> rfl
  | zero s => cases s <;> rfl
  | finite s m e h =>
    rw [UnpackedFloat.mul, (sign_of_positive s).2.1, Nat.mul_comm, Int.add_comm, ← sub_eq_add_neg]
    exact congrArg packed (round_exact (canonical_of_unpacked hx).1 h 52)

protected theorem div_one (x : Float) : x / 1 = x := by
  refine Eq.trans ?_ (packed_unpacked x)
  change packed (UnpackedFloat.div .binary64 (unpacked x) (unpacked 1)) = _
  rw [unpacked_one]
  cases hx : unpacked x with
  | notANumber => rfl
  | infinity s => cases s <;> rfl
  | zero s => cases s <;> rfl
  | finite s m e h =>
    obtain ⟨hc, -⟩ := canonical_of_unpacked hx
    have hlog : m.log2 < 53 := (Nat.log2_lt h.ne').2 hc.lt
    have hleast := hc.least
    obtain ⟨k, hk⟩ : ∃ k : Nat, max (m.log2 + 1 + e - 1 - 53) (-1074) = e - k :=
      ⟨(e - max (m.log2 + 1 + e - 1 - 53) (-1074)).toNat, by omega⟩
    have hcore : divCore .binary64 m e binade (-52) = (m * 2 ^ k, e - k, .exact) := by
      have hshift : m <<< (52 + k) = m * 2 ^ k * binade := by
        rw [Nat.shiftLeft_eq, Nat.add_comm, Nat.pow_add, ← Nat.mul_assoc]
        rfl
      have htarget : min (e - -52) (Format.binary64.targetExponent
          (totalExponent m e - totalExponent binade (-52))) = e - k := by
        rw [targetExponent_eq]
        change min (e - -52) (max (m.log2 + 1 + e - 1 - 53) (-1074)) = _
        omega
      rw [divCore, htarget, show (e - -52 - (e - k)).toNat = 52 + k by omega, hshift,
        Nat.mul_div_cancel _ (by decide), Nat.mul_mod_left]
      rfl
    rw [UnpackedFloat.div, (sign_of_positive s).2.2, hcore]
    exact congrArg packed (round_exact hc h k)

/-- Zero, or a number without digits behind the unit. -/
def IsInteger (x : Float) : Prop :=
  (∃ s, unpacked x = .zero s) ∨ ∃ s m e h, unpacked x = .finite s m e h ∧ 2 ^ (-e).toNat ∣ m

private theorem normal_of_dvd {h : 0 < m} (hx : unpacked x = .finite s m e h)
    (hd : 2 ^ (-e).toNat ∣ m) : -52 ≤ e ∧ e ≤ 971 ∧ binade ≤ m ∧ m < 2 * binade := by
  obtain ⟨⟨hlt, -, hnormal⟩, hle⟩ := canonical_of_unpacked hx
  have hdigits : (-e).toNat < 53 := by
    have hpow : 2 ^ (-e).toNat < 2 ^ 53 := Nat.lt_of_le_of_lt (Nat.le_of_dvd h hd) hlt
    exact (Nat.pow_lt_pow_iff_right (by decide)).1 hpow
  exact ⟨by omega, hle, hnormal.resolve_left (by omega), hlt⟩

/-- Where the integer part is the number itself, there are no digits behind the unit. -/
theorem dvd_of_truncate {h : 0 < m} (hx : unpacked x = .finite s m e h)
    (ht : truncate x = x) : 2 ^ (-e).toNat ∣ m := by
  obtain ⟨hlt, rfl, rfl⟩ := split_of_unpacked hx
  have hle := Nat.le_trans (roundTo_div_le 0 (magnitude x)) (Nat.le_of_lt hlt)
  have hbits := magnitude_ofMagnitude (isNegative x) hle
  have hofBits : truncate x = ofMagnitude (isNegative x) (roundTo (· / ·) 0 (magnitude x)) := if_pos hlt
  rw [← hofBits, ht] at hbits
  obtain ⟨e, -, -, hsplit, -⟩ := exists_split (magnitude x)
  have hsig : significand (magnitude x) ≤ magnitude x := (Nat.le_add_left _ _).trans_eq hsplit.symm
  by_cases hdrop : (0 - lastPlace (magnitude x)).toNat = 0
  · rw [← Int.zero_sub, hdrop]
    exact Nat.one_dvd _
  · rw [roundTo_of_coarse _ hdrop] at hbits
    rw [← Int.zero_sub]
    split at hbits
    · rw [hbits] at h
      exact absurd h (by decide)
    · generalize (0 - lastPlace (magnitude x)).toNat = drop at hbits ⊢
      exact Dvd.intro_left (significand (magnitude x) / 2 ^ drop) (by omega)

/-- Integers in a range, of which the ends are integers and no end is infinite. -/
theorem isInteger_of_clamp {low high : Float} {convert : Float → Float}
    (hdef : ∀ x, convert x = if x.isNaN then 0 else clamp low high (truncate x))
    (hlow : truncate low = low) (hhigh : truncate high = high)
    (hinfinity : ∀ s, convert (packed (.infinity s)) ≠ packed (.infinity s)) (hx : convert x = x) :
    IsInteger x := by
  cases hnan : x.isNaN with
  | true =>
    rw [hdef, if_pos hnan] at hx
    exact .inl ⟨.positive, hx ▸ rfl⟩
  | false =>
    have hclamp : clamp low high (truncate x) = x := by
      rwa [hdef, hnan, if_neg Bool.false_ne_true] at hx
    have htruncate : truncate x = x := by
      rw [clamp] at hclamp
      split at hclamp
      · rw [← hclamp, hlow]
      split at hclamp
      · rw [← hclamp, hhigh]
      · exact hclamp
    cases hu : unpacked x with
    | notANumber =>
      rw [eq_of_unpacked hu] at hnan
      cases hnan
    | infinity s =>
      rw [eq_of_unpacked hu] at hx
      exact absurd hx (hinfinity s)
    | zero s => exact .inl ⟨s, hu⟩
    | finite s m e h => exact .inr ⟨s, m, e, h, hu, dvd_of_truncate hu htruncate⟩

/-- The values of an integral type are integers. -/
theorem isInteger_of_cast {t : ElementType} (ht : t.isIntegral = true) (hx : t.cast x = x) :
    IsInteger x := by
  cases t with
  | bool =>
    rw [ElementType.cast] at hx
    split at hx
    · exact .inl ⟨.positive, hx ▸ rfl⟩
    · exact .inr ⟨_, _, _, _, hx ▸ unpacked_one, dvd_refl binade⟩
  | int8 | uint8 | int16 | uint16 | int32 | uint32 | int64 | uint64 =>
    exact isInteger_of_clamp (fun _ => rfl) (by decide +kernel) (by decide +kernel)
      (by decide +kernel) hx
  | _ => cases ht

private theorem le_iff : x ≤ y ↔ (unpacked x).le (unpacked y) = true :=
  decide_eq_true_iff

private theorem lt_iff : x < y ↔ (unpacked x).lt (unpacked y) = true :=
  decide_eq_true_iff

/-- A number is not at most one of smaller exponent. -/
theorem not_le_of_exponent {h : 0 < m} (hx : unpacked x = .finite .positive m e h)
    (hy : (∃ t, unpacked y = .zero t) ∨
      ∃ t n f h, unpacked y = .finite t n f h ∧ f < e) : ¬ x ≤ y := by
  rw [le_iff, hx]
  rcases hy with ⟨t, ht⟩ | ⟨t, n, f, h', ht, hlt⟩
  · rw [ht]
    exact Bool.false_ne_true
  · rw [ht]
    cases t with
    | negative => exact Bool.false_ne_true
    | positive =>
      rw [UnpackedFloat.le, UnpackedFloat.compare, compare_gt_iff_gt.2 hlt]
      exact Bool.false_ne_true

private theorem not_le_of_infinity (hx : unpacked x = .infinity .positive)
    (hy : (∃ t, unpacked y = .zero t) ∨ ∃ t n f h, unpacked y = .finite t n f h) : ¬ x ≤ y := by
  rw [le_iff, hx]
  rcases hy with ⟨t, ht⟩ | ⟨t, n, f, h', ht⟩ <;> rw [ht] <;> exact Bool.false_ne_true

private theorem unpacked_tolerance :
    unpacked 1e-6 = .finite .positive 4722366482869645 (-72) (by decide) := by
  have hpacked : (1e-6 : Float) = packed (.finite .positive 4722366482869645 (-72) (by decide)) := by
    decide +kernel
  rw [hpacked, unpacked_packed_finite ⟨by decide, by decide, .inr (by decide)⟩]
  rfl

/-- The tolerance of an integer is many binades below it. -/
theorem tolerance_small {h : 0 < m} (hx : unpacked x = .finite s m e h) (hd : 2 ^ (-e).toNat ∣ m) :
    (∃ t, unpacked (x * 1e-6) = .zero t) ∨
      ∃ t n f h, unpacked (x * 1e-6) = .finite t n f h ∧ f < e - 1 := by
  obtain ⟨hleast, hmost, hge, hlt⟩ := normal_of_dvd hx hd
  have hmul : x * 1e-6 = packed (roundWithAccuracy .binary64 (s * .positive)
      (m * 4722366482869645) (e + -72) .exact) := by
    change packed (UnpackedFloat.mul .binary64 (unpacked x) (unpacked 1e-6)) = _
    rw [hx, unpacked_tolerance]
    rfl
  have hpos : 0 < m * 4722366482869645 := by omega
  have hlow : 104 ≤ (m * 4722366482869645).log2 := by
    rw [binade_eq] at hge
    exact (Nat.le_log2 hpos.ne').2 (by omega)
  have hhigh : (m * 4722366482869645).log2 < 106 := by
    rw [binade_eq] at hlt
    exact (Nat.log2_lt hpos.ne').2 (by omega)
  rw [hmul]
  rcases round_cases (s := s * .positive) (m := m * 4722366482869645) (e := e + -72) (a := .exact) rfl
    (by omega) with
    ⟨hr, -⟩ | ⟨r, f, hr', hr, hc, -, hle⟩
  · rw [hr]
    exact .inl ⟨_, unpacked_packed_zero _⟩
  · rw [hr, unpacked_packed_finite hc, if_pos (by omega)]
    exact .inr ⟨_, r, f, hr', rfl, by omega⟩

theorem decreaseExponent_eq {a : Nat} {f g : Int} (hk : (f - g).toNat = k) :
    decreaseExponent a f g = (a * 2 ^ k, f - k) := by
  rw [decreaseExponent, hk, Nat.shiftLeft_eq]

theorem exists_normalize {n : Int} (hn : n ≠ 0) (e : Int) :
    ∃ t, UnpackedFloat.normalize .binary64 n e .positive = round .binary64 t n.natAbs e := by
  rw [UnpackedFloat.normalize]
  rcases lt_or_gt_of_ne hn with hlt | hgt
  · refine ⟨.negative, ?_⟩
    rw [compare_lt_iff_lt.2 hlt, show n.natAbs = (-n).toNat by omega]
  · refine ⟨.positive, ?_⟩
    rw [compare_gt_iff_gt.2 hgt, show n.natAbs = n.toNat by omega]

/-- A difference that is half as large as a number has almost its exponent. -/
theorem normalize_large {n : Int} (hlog : 52 ≤ m.log2) (hn : m ≤ 2 * n.natAbs) :
    ∃ t, unpacked (packed (UnpackedFloat.normalize .binary64 n (-52) .positive)) = .infinity t ∨
      ∃ r f h, unpacked (packed (UnpackedFloat.normalize .binary64 n (-52) .positive)) = .finite t r f h ∧
        (m.log2 : Int) - 105 ≤ f := by
  have hm : m ≠ 0 := by
    rintro rfl
    exact absurd hlog (by decide)
  obtain ⟨t, ht⟩ := exists_normalize (n := n) (by omega) (-52)
  rw [ht]
  generalize n.natAbs = a at hn
  have ha : 0 < a := by omega
  have hhalf : m.log2 ≤ a.log2 + 1 := by
    obtain ⟨l, hl⟩ : ∃ l, m.log2 = l + 1 := ⟨m.log2 - 1, by omega⟩
    have hpow := Nat.log2_self_le hm
    rw [hl, Nat.pow_succ] at hpow
    have hle : l ≤ a.log2 := (Nat.le_log2 ha.ne').2 (by omega)
    omega
  obtain ⟨j, hj⟩ : ∃ j : Nat, j = 52 - a.log2 := ⟨_, rfl⟩
  have hround : UnpackedFloat.round .binary64 t a (-52) =
      roundWithAccuracy .binary64 t (a * 2 ^ j) (-52 - j) .exact := by
    rw [UnpackedFloat.round, targetExponent_eq, totalExponent, decreaseExponent_eq (k := j) (by omega)]
  have hlog' := log2_mul_two_pow ha j
  rw [hround]
  rcases round_cases (s := t) (m := a * 2 ^ j) (e := -52 - j) (a := .exact) rfl (by omega) with
    ⟨-, htarget⟩ | ⟨r, f, hr', hr, hc, hle, -⟩
  · omega
  · rw [hr, unpacked_packed_finite hc]
    split
    · exact ⟨t, .inr ⟨r, f, hr', rfl, by omega⟩⟩
    · exact ⟨t, .inl rfl⟩

/-- An integer other than one differs from one by half of itself at least. -/
theorem difference_large {h : 0 < m} (hx : unpacked x = .finite s m e h) (hd : 2 ^ (-e).toNat ∣ m)
    (hne : x ≠ 1) :
    ∃ t, unpacked (x - 1) = .infinity t ∨
      ∃ r f h, unpacked (x - 1) = .finite t r f h ∧ e - 1 ≤ f := by
  obtain ⟨hleast, hmost, hge, hlt⟩ := normal_of_dvd hx hd
  obtain ⟨k, rfl⟩ : ∃ k : Nat, e = k - 52 := ⟨(e + 52).toNat, by omega⟩
  have hsub : x - 1 = packed (UnpackedFloat.normalize .binary64
      (s.apply ((m * 2 ^ k : Nat) : Int) - (binade : Nat)) (-52) .positive) := by
    change packed (UnpackedFloat.sub .binary64 (unpacked x) (unpacked 1)) = _
    rw [hx, unpacked_one, UnpackedFloat.sub]
    dsimp only
    rw [show min ((k : Int) - 52) (-52) = -52 by omega, decreaseExponent_eq (k := k) (by omega),
      decreaseExponent_eq (k := 0) (by omega)]
    rfl
  have hlog : (m * 2 ^ k).log2 = 52 + k := by
    have hm : m.log2 = 52 := (Nat.log2_eq_iff h.ne').2 ⟨hge, hlt⟩
    rw [log2_mul_two_pow h, hm]
  obtain ⟨c, hc⟩ : binade ∣ m * 2 ^ k :=
    calc 2 ^ 52 ∣ 2 ^ (-((k : Int) - 52)).toNat * 2 ^ k := by
          rw [← Nat.pow_add]
          exact Nat.pow_dvd_pow 2 (by omega)
      _ ∣ m * 2 ^ k := Nat.mul_dvd_mul_right hd _
  have hhalf : m * 2 ^ k ≤ 2 * (s.apply ((m * 2 ^ k : Nat) : Int) - (binade : Nat)).natAbs := by
    have hpos : 0 < m * 2 ^ k := by positivity
    cases s with
    | negative =>
      change _ ≤ 2 * (-((m * 2 ^ k : Nat) : Int) - (binade : Nat)).natAbs
      omega
    | positive =>
      change _ ≤ 2 * (((m * 2 ^ k : Nat) : Int) - (binade : Nat)).natAbs
      have hone : m * 2 ^ k ≠ binade := by
        intro he
        have hk : k = 0 := by
          by_contra hk
          have htwo : 2 ≤ 2 ^ k := Nat.le_self_pow hk 2
          have hle := Nat.mul_le_mul hge htwo
          rw [he, binade_eq] at hle
          omega
        subst hk
        obtain rfl : m = binade := by rwa [Nat.pow_zero, Nat.mul_one] at he
        exact hne ((eq_of_unpacked hx).trans (eq_of_unpacked unpacked_one).symm)
      rw [hc, binade_eq] at hpos hone ⊢
      omega
  rw [hsub]
  obtain ⟨t, ht⟩ := normalize_large (m := m * 2 ^ k) (by omega) hhalf
  refine ⟨t, ht.imp_right ?_⟩
  rintro ⟨r, f, hr, hf, hle⟩
  exact ⟨r, f, hr, hf, by omega⟩

private theorem unpacked_abs_finite {h : 0 < m} (hx : unpacked x = .finite s m e h) :
    unpacked x.abs = .finite .positive m e h := by
  rw [unpacked_abs, hx]
  rfl

/-- The tolerance of an integer other than zero comes from its own magnitude. -/
theorem maximum_of_integer {h : 0 < m} (hx : unpacked x = .finite s m e h) (hd : 2 ^ (-e).toNat ∣ m) :
    maximum x.abs 0 = x.abs ∧ maximum x.abs 1 = x.abs := by
  obtain ⟨hleast, -, hge, -⟩ := normal_of_dvd hx hd
  have habs := unpacked_abs_finite hx
  have hnan : x.abs.isNaN = false := by
    change (unpacked x.abs).isNaN = false
    rw [habs]
    rfl
  have hzero : ¬ x.abs < 0 := by
    rw [lt_iff, habs]
    exact Bool.false_ne_true
  have hone : ¬ x.abs < 1 := by
    rw [lt_iff, habs, unpacked_one, UnpackedFloat.lt, UnpackedFloat.compare, beq_iff_eq,
      Option.some_inj, Ordering.then_eq_lt, compare_lt_iff_lt, compare_lt_iff_lt]
    omega
  rw [maximum, maximum, hnan, if_neg Bool.false_ne_true, if_neg Bool.false_ne_true, if_neg hzero,
    if_neg hone]
  exact ⟨rfl, rfl⟩

/-- An integer that counts as zero is zero. -/
theorem eq_zero_of_approxEqual (hx : IsInteger x) (h : approxEqual x 0 = true) : x = 0 ∨ x = -0 := by
  rcases hx with ⟨s, hs⟩ | ⟨s, m, e, hm, hu, hd⟩
  · cases s with
    | positive => exact .inl (eq_of_unpacked hs)
    | negative => exact .inr (eq_of_unpacked hs)
  rw [approxEqual, Bool.or_eq_true, Float.beq_iff_ne_nan_and_eq, decide_eq_true_eq] at h
  rcases h with ⟨-, -, h⟩ | h
  · rcases h with h | h | h
    · exact .inl h
    · exact .inl h.1
    · exact .inr h.1
  have hne : x ≠ -0 := by
    rintro rfl
    cases hu
  have habs := unpacked_abs_finite hu
  obtain ⟨hmax₀, hmax₁⟩ := maximum_of_integer hu hd
  rw [(Scalar.add_zero hne (.inl rfl)).2.2, show (0 : Float).abs = 0 by decide +kernel, hmax₀,
    hmax₁] at h
  refine absurd h (not_le_of_exponent habs ((tolerance_small habs hd).imp_right ?_))
  rintro ⟨t, n, f, hn, hf, hlt⟩
  exact ⟨t, n, f, hn, hf, by omega⟩

/-- An integer that counts as one is one. -/
theorem eq_one_of_approxEqual (hx : IsInteger x) (h : approxEqual x 1 = true) : x = 1 := by
  rcases hx with ⟨s, hs⟩ | ⟨s, m, e, hm, hu, hd⟩
  · rw [eq_of_unpacked hs] at h
    cases s <;> exact absurd h (by decide +kernel)
  rw [approxEqual, Bool.or_eq_true, Float.beq_iff_ne_nan_and_eq, decide_eq_true_eq] at h
  rcases h with ⟨-, -, h⟩ | h
  · rcases h with h | h | h
    · exact h
    · exact absurd h.2 (by decide +kernel)
    · exact absurd h.2 (by decide +kernel)
  by_contra hne
  have habs := unpacked_abs_finite hu
  obtain ⟨hmax₀, hmax₁⟩ := maximum_of_integer hu hd
  rw [show (1 : Float).abs = 1 by decide +kernel, hmax₁, hmax₁] at h
  have hsmall := tolerance_small habs hd
  obtain ⟨t, hinfinity | ⟨r, f, hr, hf, hle⟩⟩ := difference_large hu hd hne
  · have hlarge : unpacked (x - 1).abs = .infinity .positive := by
      rw [unpacked_abs, hinfinity]
      rfl
    refine not_le_of_infinity hlarge (hsmall.imp_right ?_) h
    rintro ⟨t, n, g, hn, hg, -⟩
    exact ⟨t, n, g, hn, hg⟩
  · refine not_le_of_exponent (unpacked_abs_finite hf) (hsmall.imp_right ?_) h
    rintro ⟨t, n, g, hn, hg, hlt⟩
    exact ⟨t, n, g, hn, hg, by omega⟩

end TensorGraph.Scalar
