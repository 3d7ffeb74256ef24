import KoblitzCurve.Proofs.PointSums

/-! Doubles of finite points. A point with Y = 0 would have infinity for its double, but then
X / Z^2 would be a cube root of -7, and -7 is no cube modulo p. So the formula for doubles needs no
other case, however often it is used, and neither does the sum of two equal points. -/
namespace KoblitzCurve

/-- A cube has power one of exponent (p - 1) / 3, and -7 has not. -/
lemma cube_ne_neg_seven (x : BaseField) : x ^ 3 ≠ -7 := by
  intro hx
  have hx0 : x ≠ 0 := by
    rintro rfl
    revert hx
    decide +kernel
  have hpow : (-7 : BaseField) ^ ((fieldModulus.toNat - 1) / 3) = 1 := by
    have hexponent : 3 * ((fieldModulus.toNat - 1) / 3) = fieldModulus.toNat - 1 := by
      decide +kernel
    rw [← hx, ← pow_mul, hexponent, ZMod.pow_card_sub_one_eq_one hx0]
  have hcast : (-7 : BaseField) = (fieldModulus.toNat - 7 : ℕ) := by decide +kernel
  have hbits : (fieldModulus.toNat - 1) / 3 < 2 ^ 256 := by decide +kernel
  rw [hcast, PrimeModuli.pow_eq_one_iff (by decide) hbits] at hpow
  revert hpow
  decide +kernel

namespace CurveGroup
variable {t : Triple}

theorem ordinate_ne_zero (ht : OnCurve t) (hz : t 2 ≠ 0) : t 1 ≠ 0 := by
  intro hy
  have hcurve := ht.resolve_left hz
  rw [hy] at hcurve
  apply cube_ne_neg_seven (t 0 / t 2 ^ 2)
  rw [div_pow, div_eq_iff (pow_ne_zero 3 (pow_ne_zero 2 hz))]
  linear_combination -hcurve

lemma double_two (t : Triple) : double t 2 = 2 * t 1 * t 2 := by
  rw [two_mul]
  rfl

theorem double_two_eq_zero_iff (ht : OnCurve t) : double t 2 = 0 ↔ t 2 = 0 := by
  rw [double_two]
  refine ⟨fun h => ?_, fun h => by rw [h, mul_zero]⟩
  by_contra hz
  exact mul_ne_zero (mul_ne_zero two_ne_zero_baseField (ordinate_ne_zero ht hz)) hz h

end CurveGroup

namespace JacobianPoint
open CurveGroup
variable {p q : JacobianPoint}

lemma isInfinity_eq_zero_iff (p : JacobianPoint) : p.isInfinity = 0 ↔ p.z ≠ .zero := by
  have hyes : Mask.yes ≠ 0 := by decide
  rw [isInfinity, Residue.isZero_eq]
  split_ifs with hz
  · exact iff_of_false hyes (not_not_intro hz)
  · exact iff_of_true rfl hz

lemma Valid.double (hp : p.Valid) : p.double.Valid := hp.represents.double.valid

theorem Valid.ordinate_ne_zero (hp : p.Valid) (hz : p.z ≠ .zero) : p.y ≠ .zero := by
  have h := hp.reduced.holds
  rw [Ne, h.z.eq_zero_iff] at hz
  rw [Ne, h.y.eq_zero_iff]
  exact CurveGroup.ordinate_ne_zero hp.represents.onCurve hz

theorem Valid.isInfinity_double (hp : p.Valid) : p.double.isInfinity = p.isInfinity := by
  have h := hp.reduced.holds
  rw [isInfinity, isInfinity, Residue.isZero_eq, Residue.isZero_eq]
  refine if_congr ?_ rfl rfl
  rw [h.double.z.eq_zero_iff, h.z.eq_zero_iff, double_two_eq_zero_iff hp.represents.onCurve]

/-- The equation of the curve is carried along, so that no double in the row is an exception. -/
theorem Valid.isInfinity_doubleTimes (hp : p.Valid) (n : ℕ) :
    (p.doubleTimes n).isInfinity = p.isInfinity := by
  induction n generalizing p with
  | zero => rfl
  | succ n ih => rw [doubleTimes, ih hp.double, hp.isInfinity_double]

/-- Two finite points that are equal are added by the formula for doubles. -/
theorem Valid.add_eq_double (hp : p.Valid) (hq : q.Valid) (hpz : p.z ≠ .zero) (hqz : q.z ≠ .zero)
    (h : p.equals q = Mask.yes) : p + q = p.double := by
  have ht := hp.reduced.holds
  have hu := hq.reduced.holds
  have hzt := mt ht.z.eq_zero_iff.mpr hpz
  have hzu := mt hu.z.eq_zero_iff.mpr hqz
  rw [ht.equals_eq hu, Mask.ite_eq_yes_iff, samePoint_iff_of_ne_zero hzt hzu] at h
  rw [add_eq, if_neg hqz, if_neg hpz, if_pos ((ht.differences_eq_zero_iff hu).mpr h)]

/-- No double of a finite point is at infinity, and so the sum of two finite points that are equal
is finite too. -/
theorem doubles_finite (hp : p.Valid) (hq : q.Valid) :
    (∀ x : BaseField, x ^ 3 + 7 ≠ 0) ∧
    p.double.z.element = 2 * p.y.element * p.z.element ∧
    (p.isInfinity = 0 → p.y ≠ .zero ∧ p.double.isInfinity = 0) ∧
    (∀ n, (p.doubleTimes n).isInfinity = p.isInfinity ∧
      (p.doubleTimes n).Represents (2 ^ n • p.toCurve)) ∧
    (p.isInfinity = 0 → q.isInfinity = 0 → p.equals q = Mask.yes →
      p + q = p.double ∧ (p + q).isInfinity = 0) := by
  refine ⟨fun x h => cube_ne_neg_seven x (eq_neg_of_add_eq_zero_left h),
    hp.reduced.holds.double.z.element_eq.trans (double_two p.triple), fun hfinite => ?_,
    fun n => ⟨hp.isInfinity_doubleTimes n, hp.represents.doubleTimes n⟩,
    fun hfinite hfinite' hequal => ?_⟩
  · exact ⟨hp.ordinate_ne_zero ((isInfinity_eq_zero_iff p).mp hfinite),
      hp.isInfinity_double.trans hfinite⟩
  · have hsum := hp.add_eq_double hq ((isInfinity_eq_zero_iff p).mp hfinite)
      ((isInfinity_eq_zero_iff q).mp hfinite') hequal
    exact ⟨hsum, by rw [hsum, hp.isInfinity_double, hfinite]⟩

/-- The generator and the difference of its double and itself, which has another Z. -/
theorem doubles_finite_other_z :
    generator.Valid ∧ (generator.double - generator).Valid ∧
      (generator.double - generator).z ≠ generator.z ∧
      generator.isInfinity = 0 ∧ (generator.double - generator).isInfinity = 0 ∧
      generator.equals (generator.double - generator) = Mask.yes ∧
      generator + (generator.double - generator) = generator.double ∧
      (generator + (generator.double - generator)).isInfinity = 0 ∧
      (generator.doubleTimes 256).isInfinity = 0 := by
  have hgen := valid_generator
  have hother := hgen.represents.double.sub hgen.represents
  rw [add_sub_cancel_right] at hother
  have hequal := (hgen.represents.equals_iff hother).mpr rfl
  have hfinite : generator.isInfinity = 0 := by decide
  have hfinite' : (generator.double - generator).isInfinity = 0 := by decide +kernel
  obtain ⟨-, -, -, htimes, hsum⟩ := doubles_finite hgen hother.valid
  exact ⟨hgen, hother.valid, by decide +kernel, hfinite, hfinite', hequal,
    (hsum hfinite hfinite' hequal).1, (hsum hfinite hfinite' hequal).2,
    (htimes 256).1.trans hfinite⟩

end JacobianPoint

end KoblitzCurve
