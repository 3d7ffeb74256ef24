import KoblitzCurve.Proofs.PointSums

/-! Sums of points by the rule of chord and tangent. The rule is stated on plain coordinates, with
one case for each position of the two points, and is the addition of the group of the curve; points
in Jacobian coordinates follow it whatever their Z, at infinity whatever their X and Y. -/
namespace KoblitzCurve
open WeierstrassCurve

/-- The point at infinity, or the two coordinates of a point of the plane. -/
inductive PlanePoint
  | infinity
  | finite (x y : BaseField)
  deriving DecidableEq

namespace PlanePoint

/-- The line of the given slope through (x, y) meets the curve above x, above x' and in a third
place. The result is the point of that place turned over. -/
def third (slope x y x' : BaseField) : PlanePoint :=
  finite (slope ^ 2 - x - x') (slope * (x - (slope ^ 2 - x - x')) - y)

/-- The chord of two points, the tangent where they are equal, and no finite point where they are
opposite. -/
def sum : PlanePoint → PlanePoint → PlanePoint
  | infinity, q => q
  | p, infinity => p
  | finite x y, finite x' y' =>
    if x ≠ x' then third ((y' - y) / (x' - x)) x y x'
    else if y = -y' then infinity
    else third ((3 • x ^ 2) / (2 • y)) x y x'

def opposite : PlanePoint → PlanePoint
  | infinity => infinity
  | finite x y => finite x (-y)

/-- The sum of `n` terms that are all the same point. -/
def multiple (p : PlanePoint) : ℕ → PlanePoint
  | 0 => infinity
  | n + 1 => (p.multiple n).sum p

def ofCurve : CurvePoint → PlanePoint
  | .zero => infinity
  | .some x y _ => finite x y

lemma infinity_sum (p : PlanePoint) : infinity.sum p = p := rfl

lemma sum_infinity (p : PlanePoint) : p.sum infinity = p := by cases p <;> rfl

variable {x y x' y' : BaseField}

lemma negY_curve (x y : BaseField) : curve.toAffine.negY x y = -y := by
  simp only [Affine.negY, curve, zero_mul, sub_zero]

lemma ofCurve_add_finite (h : curve.toAffine.Nonsingular x y)
    (h' : curve.toAffine.Nonsingular x' y') (hxy : ¬(x = x' ∧ y = curve.toAffine.negY x' y')) :
    ofCurve (.some x y h + .some x' y' h') = third (curve.toAffine.slope x x' y y') x y x' := by
  rw [Affine.Point.add_some hxy]
  simp only [ofCurve, third, Affine.addX, Affine.addY, Affine.negAddY, Affine.negY, curve, zero_mul,
    add_zero, sub_zero]
  congr 1
  ring

lemma slope_chord (hx : x ≠ x') :
    curve.toAffine.slope x x' y y' = (y' - y) / (x' - x) := by
  rw [Affine.slope_of_X_ne hx, ← neg_sub y', ← neg_sub x', neg_div_neg_eq]

lemma slope_tangent (hy : y ≠ curve.toAffine.negY x y') :
    curve.toAffine.slope x x y y' = (3 • x ^ 2) / (2 • y) := by
  rw [Affine.slope_of_Y_ne rfl hy, negY_curve]
  simp only [curve, mul_zero, zero_mul, add_zero, sub_zero]
  rw [sub_neg_eq_add, two_nsmul, nsmul_eq_mul, Nat.cast_ofNat]

/-- The rule is the addition of the group. -/
theorem ofCurve_add (P Q : CurvePoint) : ofCurve (P + Q) = (ofCurve P).sum (ofCurve Q) := by
  cases P with
  | zero =>
    rw [← Affine.Point.zero_def, zero_add]
    exact (infinity_sum _).symm
  | some x y h =>
    cases Q with
    | zero =>
      rw [← Affine.Point.zero_def, add_zero]
      exact (sum_infinity _).symm
    | some x' y' h' =>
      rw [ofCurve, ofCurve, sum]
      by_cases hx : x = x'
      · subst hx
        rw [if_neg (not_not_intro rfl), ← negY_curve x y']
        by_cases hy : y = curve.toAffine.negY x y'
        · rw [if_pos hy, Affine.Point.add_of_Y_eq rfl hy]
          rfl
        · rw [if_neg hy, ofCurve_add_finite h h' fun hxy => hy hxy.2, slope_tangent hy]
      · rw [if_pos hx, ofCurve_add_finite h h' fun hxy => hx hxy.1, slope_chord hx]

theorem ofCurve_neg (P : CurvePoint) : ofCurve (-P) = (ofCurve P).opposite := by
  cases P with
  | zero => rfl
  | some x y h =>
    rw [Affine.Point.neg_some, ofCurve, negY_curve]
    rfl

theorem ofCurve_nsmul (n : ℕ) (P : CurvePoint) : ofCurve (n • P) = (ofCurve P).multiple n := by
  induction n with
  | zero =>
    rw [zero_nsmul]
    rfl
  | succ n ih => rw [succ_nsmul, ofCurve_add, ih, multiple]

end PlanePoint

namespace JacobianPoint
open CurveGroup Jacobian
variable {p q : JacobianPoint} {P : CurvePoint}

/-- The point (X / Z^2, Y / Z^3) of the plane, and the point at infinity for Z = 0. -/
def toPlane (p : JacobianPoint) : PlanePoint :=
  if p.z.element = 0 then .infinity
  else .finite (p.x.element / p.z.element ^ 2) (p.y.element / p.z.element ^ 3)

lemma Represents.toPlane_eq (hp : p.Represents P) : p.toPlane = .ofCurve P := by
  rw [← hp.toCurve_eq, toCurve, toPlane]
  by_cases hz : p.z.element = 0
  · have hz' : p.triple 2 = 0 := hz
    rw [if_pos hz, toPoint_of_zero hz']
    rfl
  · have hz' : p.triple 2 ≠ 0 := hz
    rw [if_neg hz, toPoint, Point.toAffine_of_Z_ne_zero (hp.onCurve.nonsingular hz') hz']
    rfl

/-- The operations on points are those of the group, which are the rule of chord and tangent on the
coordinates, for any two points of the curve: different, equal, opposite or at infinity. -/
theorem operations_chord_tangent (hp : p.Valid) (hq : q.Valid) :
    (p + q).Represents (p.toCurve + q.toCurve) ∧ (p + q).toPlane = p.toPlane.sum q.toPlane ∧
    (p - q).Represents (p.toCurve - q.toCurve) ∧
      (p - q).toPlane = p.toPlane.sum q.toPlane.opposite ∧
    (-p).Represents (-p.toCurve) ∧ (-p).toPlane = p.toPlane.opposite ∧
    p.double.Represents (2 • p.toCurve) ∧ p.double.toPlane = p.toPlane.sum p.toPlane ∧
    ∀ n, (p.doubleTimes n).Represents (2 ^ n • p.toCurve) ∧
      (p.doubleTimes n).toPlane = p.toPlane.multiple (2 ^ n) := by
  have hP := hp.represents
  have hQ := hq.represents
  have hadd := hP.add hQ
  have hsub := hP.sub hQ
  have hneg := hP.neg
  have hdouble := hP.double
  rw [hP.toPlane_eq, hQ.toPlane_eq, ← PlanePoint.ofCurve_neg, ← PlanePoint.ofCurve_neg,
    ← PlanePoint.ofCurve_add, ← PlanePoint.ofCurve_add, ← PlanePoint.ofCurve_add,
    ← sub_eq_add_neg, two_nsmul]
  refine ⟨hadd, hadd.toPlane_eq, hsub, hsub.toPlane_eq, hneg, hneg.toPlane_eq, hdouble,
    hdouble.toPlane_eq, fun n => ?_⟩
  rw [← PlanePoint.ofCurve_nsmul]
  exact ⟨hP.doubleTimes n, (hP.doubleTimes n).toPlane_eq⟩

/-- Equal points that differ in Z: their sum is on the tangent, and their difference is at
infinity. -/
theorem operations_chord_tangent_equal :
    generator.Valid ∧ (generator.double - generator).Valid ∧
      (generator.double - generator).z ≠ generator.z ∧
      (generator.double - generator).toCurve = generator.toCurve ∧
      (generator + (generator.double - generator)).toPlane =
        generator.toPlane.sum (generator.double - generator).toPlane ∧
      (generator - (generator.double - generator)).toPlane =
        generator.toPlane.sum (generator.double - generator).toPlane.opposite ∧
      (generator.doubleTimes 8).toPlane = generator.toPlane.multiple 256 := by
  have hgen := valid_generator
  have hother := hgen.represents.double.sub hgen.represents
  rw [add_sub_cancel_right] at hother
  obtain ⟨-, hsum, -, hdifference, -, -, -, -, hmultiple⟩ :=
    operations_chord_tangent hgen hother.valid
  exact ⟨hgen, hother.valid, by decide +kernel, hother.toCurve_eq, hsum, hdifference,
    (hmultiple 8).2⟩

end JacobianPoint

end KoblitzCurve
