import Mathlib.AlgebraicGeometry.EllipticCurve.Jacobian.Point
import KoblitzCurve.Proofs.MontgomeryInverse

/-! The group of the curve y^2 = x^3 + 7 over the base field, and the formulas for sums and
doubles of triples (X, Y, Z) that stand for (X / Z^2, Y / Z^3). The formula for sums gives a
multiple of the general one, by the product of both denominators. -/
namespace KoblitzCurve
open WeierstrassCurve WeierstrassCurve.Jacobian

def curve : WeierstrassCurve BaseField := ⟨0, 0, 0, 0, 7⟩

abbrev CurvePoint := curve.toAffine.Point

instance : curve.IsElliptic := by
  refine ⟨IsUnit.mk0 _ ?_⟩
  simp only [curve, Δ, b₂, b₄, b₆, b₈]
  decide

namespace CurveGroup

abbrev Triple := Fin 3 → BaseField

variable {t u : Triple}

lemma triple_congr {x y z x' y' z' : BaseField} (hx : x = x') (hy : y = y') (hz : z = z') :
    (![x, y, z] : Triple) = ![x', y', z'] := by
  rw [hx, hy, hz]

/-- The triple has Z = 0, or solves the equation of the curve. -/
def OnCurve (t : Triple) : Prop := t 2 = 0 ∨ t 1 ^ 2 = t 0 ^ 3 + 7 * t 2 ^ 6

lemma equation_iff_eq (t : Triple) :
    curve.toJacobian.Equation t ↔ t 1 ^ 2 = t 0 ^ 3 + 7 * t 2 ^ 6 := by
  rw [equation_iff]
  simp only [curve, zero_mul, add_zero, sub_eq_zero]

lemma nonsingular_iff_equation (hz : t 2 ≠ 0) :
    curve.toJacobian.Nonsingular t ↔ curve.toJacobian.Equation t := by
  rw [nonsingular_of_Z_ne_zero hz, equation_of_Z_ne_zero hz]
  exact Affine.equation_iff_nonsingular.symm

lemma OnCurve.equation (ht : OnCurve t) (hz : t 2 ≠ 0) : curve.toJacobian.Equation t :=
  (equation_iff_eq t).mpr (ht.resolve_left hz)

lemma OnCurve.nonsingular (ht : OnCurve t) (hz : t 2 ≠ 0) : curve.toJacobian.Nonsingular t :=
  (nonsingular_iff_equation hz).mpr (ht.equation hz)

lemma onCurve_of_nonsingular (ht : curve.toJacobian.Nonsingular t) : OnCurve t :=
  Or.inr ((equation_iff_eq t).mp ht.left)

noncomputable def toPoint (t : Triple) : CurvePoint := Point.toAffine curve.toJacobian t

lemma toPoint_of_zero (hz : t 2 = 0) : toPoint t = 0 := Point.toAffine_of_Z_eq_zero hz

theorem toPoint_eq_zero_iff (ht : OnCurve t) : toPoint t = 0 ↔ t 2 = 0 := by
  refine ⟨fun h => ?_, toPoint_of_zero⟩
  by_contra hz
  rw [toPoint, Point.toAffine_of_Z_ne_zero (ht.nonsingular hz) hz] at h
  exact Affine.Point.some_ne_zero _ h

/-- Twice the point, with S = 4 X Y^2 and M = 3 X^2. -/
def double (t : Triple) : Triple :=
  let s := (t 1 + t 1) ^ 2 * t 0
  let x := (3 * t 0 ^ 2) ^ 2 - (s + s)
  ![x, (s - x) * (3 * t 0 ^ 2) - 8 * t 1 ^ 4, (t 1 + t 1) * t 2]

theorem double_eq (t : Triple) : double t = curve.toJacobian.dblXYZ t := by
  have hu : curve.toJacobian.dblU t = -(3 * t 0 ^ 2) := by
    simp only [dblU_eq, curve]
    ring
  have hy : t 1 - curve.toJacobian.negY t = t 1 + t 1 := by
    simp only [negY, curve]
    ring
  have hx : curve.toJacobian.dblX t =
      (3 * t 0 ^ 2) ^ 2 - ((t 1 + t 1) ^ 2 * t 0 + (t 1 + t 1) ^ 2 * t 0) := by
    rw [dblX, hu, hy]
    simp only [curve]
    ring
  have hz : curve.toJacobian.dblZ t = (t 1 + t 1) * t 2 := by
    rw [dblZ, hy]
    ring
  rw [double, dblXYZ, dblY, negY_eq, negDblY, hx, hu, hy, hz]
  simp only [curve]
  exact triple_congr rfl (by ring) rfl

/-- The sum of two different finite points. -/
def chord (t u : Triple) : Triple :=
  let h := u 0 * t 2 ^ 2 - t 0 * u 2 ^ 2
  let r := u 1 * t 2 ^ 2 * t 2 - t 1 * u 2 ^ 2 * u 2
  let v := t 0 * u 2 ^ 2 * h ^ 2
  let x := r ^ 2 - h ^ 2 * h - (v + v)
  ![x, r * (v - x) - t 1 * u 2 ^ 2 * u 2 * (h ^ 2 * h), h * t 2 * u 2]

theorem chord_eq (ht : curve.toJacobian.Equation t) (hu : curve.toJacobian.Equation u) :
    chord t u = (-(t 2 * u 2)) • curve.toJacobian.addXYZ t u := by
  have hx := addX_eq' ht hu
  have hy := @negAddY_eq' _ _ curve.toJacobian t u
  rw [hx] at hy
  simp only [addZ, curve] at hx hy
  rw [smul_fin3, addXYZ_X, addXYZ_Y, addXYZ_Z, addY, negY_eq, addZ, chord]
  simp only [curve]
  apply triple_congr
  · linear_combination -hx
  · linear_combination -hy
  · ring

theorem toPoint_double (ht : OnCurve t) :
    OnCurve (double t) ∧ toPoint (double t) = toPoint t + toPoint t := by
  by_cases hz : t 2 = 0
  · have hz' : double t 2 = 0 := mul_eq_zero_of_right _ hz
    exact ⟨Or.inl hz', by rw [toPoint_of_zero hz', toPoint_of_zero hz, add_zero]⟩
  · have hn := ht.nonsingular hz
    have hsum := Point.toAffine_add hn hn
    have hsing := nonsingular_add hn hn
    rw [add_self, ← double_eq] at hsum hsing
    exact ⟨onCurve_of_nonsingular hsing, hsum⟩

/-- The chord of two finite points that are not equal, opposite points among them. -/
theorem toPoint_chord (ht : OnCurve t) (hu : OnCurve u) (hzt : t 2 ≠ 0) (hzu : u 2 ≠ 0)
    (hne : ¬(t 0 * u 2 ^ 2 = u 0 * t 2 ^ 2 ∧ t 1 * u 2 ^ 3 = u 1 * t 2 ^ 3)) :
    OnCurve (chord t u) ∧ toPoint (chord t u) = toPoint t + toPoint u := by
  have hnt := ht.nonsingular hzt
  have hnu := hu.nonsingular hzu
  have hequiv : ¬t ≈ u := fun h => hne ⟨X_eq_of_equiv h, Y_eq_of_equiv h⟩
  have hunit : IsUnit (-(t 2 * u 2)) := (IsUnit.mk0 _ (mul_ne_zero hzt hzu)).neg
  have hsum := Point.toAffine_add hnt hnu
  have hsing := nonsingular_add hnt hnu
  rw [add_of_not_equiv hequiv] at hsum hsing
  rw [chord_eq hnt.left hnu.left, toPoint, Point.toAffine_smul _ hunit]
  exact ⟨onCurve_of_nonsingular ((nonsingular_smul _ hunit).mpr hsing), hsum⟩

theorem toPoint_eq_iff (ht : OnCurve t) (hu : OnCurve u) (hzt : t 2 ≠ 0) (hzu : u 2 ≠ 0) :
    toPoint t = toPoint u ↔ t 0 * u 2 ^ 2 = u 0 * t 2 ^ 2 ∧ t 1 * u 2 ^ 3 = u 1 * t 2 ^ 3 := by
  rw [toPoint, toPoint, Point.toAffine_of_Z_ne_zero (ht.nonsingular hzt) hzt,
    Point.toAffine_of_Z_ne_zero (hu.nonsingular hzu) hzu, Affine.Point.some.injEq,
    div_eq_div_iff (pow_ne_zero 2 hzt) (pow_ne_zero 2 hzu),
    div_eq_div_iff (pow_ne_zero 3 hzt) (pow_ne_zero 3 hzu)]

/-- Both triples have Z = 0, or neither has and both quotients agree, with the denominators brought
to the other side. The triples need not be on the curve. -/
def SamePoint (t u : Triple) : Prop :=
  t 2 = 0 ∧ u 2 = 0 ∨
    t 2 ≠ 0 ∧ u 2 ≠ 0 ∧ t 0 * u 2 ^ 2 = u 0 * t 2 ^ 2 ∧ t 1 * u 2 ^ 3 = u 1 * t 2 ^ 3

instance (t u : Triple) : Decidable (SamePoint t u) := inferInstanceAs (Decidable (_ ∨ _))

lemma samePoint_iff_of_ne_zero (hzt : t 2 ≠ 0) (hzu : u 2 ≠ 0) :
    SamePoint t u ↔ t 0 * u 2 ^ 2 = u 0 * t 2 ^ 2 ∧ t 1 * u 2 ^ 3 = u 1 * t 2 ^ 3 := by
  simp [SamePoint, hzt, hzu]

lemma samePoint_iff_div_eq (hzt : t 2 ≠ 0) (hzu : u 2 ≠ 0) :
    SamePoint t u ↔ t 0 / t 2 ^ 2 = u 0 / u 2 ^ 2 ∧ t 1 / t 2 ^ 3 = u 1 / u 2 ^ 3 := by
  rw [samePoint_iff_of_ne_zero hzt hzu, div_eq_div_iff (pow_ne_zero 2 hzt) (pow_ne_zero 2 hzu),
    div_eq_div_iff (pow_ne_zero 3 hzt) (pow_ne_zero 3 hzu)]

/-- On the curve these are the triples of one group element. -/
theorem toPoint_eq_iff_samePoint (ht : OnCurve t) (hu : OnCurve u) :
    toPoint t = toPoint u ↔ SamePoint t u := by
  by_cases hzt : t 2 = 0
  · rw [toPoint_of_zero hzt, eq_comm, toPoint_eq_zero_iff hu]
    simp [SamePoint, hzt]
  by_cases hzu : u 2 = 0
  · rw [toPoint_of_zero hzu, toPoint_eq_zero_iff ht]
    simp [SamePoint, hzu]
  · rw [toPoint_eq_iff ht hu hzt hzu, samePoint_iff_of_ne_zero hzt hzu]

theorem toPoint_neg (ht : OnCurve t) :
    OnCurve ![t 0, -t 1, t 2] ∧ toPoint ![t 0, -t 1, t 2] = -toPoint t := by
  have honCurve : OnCurve ![t 0, -t 1, t 2] := ht.imp id fun h => (neg_sq _).trans h
  refine ⟨honCurve, ?_⟩
  by_cases hz : t 2 = 0
  · rw [toPoint_of_zero (show ![t 0, -t 1, t 2] 2 = 0 from hz), toPoint_of_zero hz, neg_zero]
  · have h := Point.toAffine_neg (ht.nonsingular hz)
    have hneg : curve.toJacobian.neg t = ![t 0, -t 1, t 2] := by
      rw [neg, negY]
      simp only [curve]
      exact triple_congr rfl (by ring) rfl
    rwa [hneg] at h

theorem toPoint_normal (ht : OnCurve t) (hz : t 2 ≠ 0) :
    OnCurve ![t 0 / t 2 ^ 2, t 1 / t 2 ^ 3, 1] ∧
      toPoint ![t 0 / t 2 ^ 2, t 1 / t 2 ^ 3, 1] = toPoint t := by
  have hsolves : (t 1 / t 2 ^ 3) ^ 2 = (t 0 / t 2 ^ 2) ^ 3 + 7 * 1 ^ 6 := by
    rw [div_pow, ht.resolve_left hz]
    field_simp
  have hcurve : OnCurve ![t 0 / t 2 ^ 2, t 1 / t 2 ^ 3, 1] := Or.inr hsolves
  refine ⟨hcurve, (toPoint_eq_iff hcurve ht one_ne_zero hz).mpr ⟨?_, ?_⟩⟩
  · have hx : t 0 / t 2 ^ 2 * t 2 ^ 2 = t 0 * 1 ^ 2 := by
      rw [div_mul_cancel₀ _ (pow_ne_zero 2 hz), one_pow, mul_one]
    exact hx
  · have hy : t 1 / t 2 ^ 3 * t 2 ^ 3 = t 1 * 1 ^ 3 := by
      rw [div_mul_cancel₀ _ (pow_ne_zero 3 hz), one_pow, mul_one]
    exact hy

end CurveGroup

end KoblitzCurve
