import KoblitzCurve.ScalarMultiple
import KoblitzCurve.Proofs.DigitSums
import KoblitzCurve.Proofs.WindowMultiples

/-! Scalar multiples by signed digits are multiples in the group, for every point and every
scalar. Whatever points meet on the way, each sum stands for the sum in the group, so that the
result only depends on the sum of the digits. -/
namespace KoblitzCurve.JacobianPoint
variable {p q : JacobianPoint} {P Q : CurvePoint}

lemma signedMultiple_represents (hp : p.Represents P) {d : SignedDigit} (hd : d.Within 16) :
    (signedMultiple (.ofPoint p) d).Represents (d.value • P) := by
  have hlookup := WindowTable.lookup_represents hp d.magnitude
  rw [if_pos hd.magnitude] at hlookup
  have hsigned := hlookup.negateIf (d.negative = Mask.yes)
  rwa [← hd.negative_eq, ← hd.value_zsmul] at hsigned

lemma sumOfDigits_represents (hp : p.Represents P) (ds : List SignedDigit)
    (hds : ∀ d ∈ ds, d.Within 16) :
    (sumOfDigits (.ofPoint p) ds).Represents (Scalar.digitSum 5 ds • P) := by
  induction ds with
  | nil =>
    rw [sumOfDigits, Scalar.digitSum, zero_zsmul]
    exact represents_neutral
  | cons d higher ih =>
    have hd := signedMultiple_represents hp (hds d List.mem_cons_self)
    cases higher with
    | nil =>
      rw [sumOfDigits, Scalar.digitSum, Scalar.digitSum, mul_zero, add_zero]
      · exact hd
    | cons e higher =>
      -- what is summed up from the higher digits counts 2^5 times
      have hhigher := (ih fun d hd => hds d (List.mem_cons_of_mem _ hd)).doubleTimes 5
      have hsum := hhigher.add hd
      rw [← natCast_zsmul, ← mul_zsmul, ← add_zsmul, add_comm, Nat.cast_pow, Nat.cast_two] at hsum
      rw [sumOfDigits, Scalar.digitSum]
      · exact hsum
      · simp

theorem Represents.mul (hp : p.Represents P) (k : Scalar) :
    (p.mul k).Represents ((k.toNat % groupOrder.toNat) • P) := by
  have hdigits : ∀ d ∈ Scalar.digits 5 52 k, d.Within 16 :=
    Scalar.within_digits (by decide) (by decide) 51 k
  have hsum := sumOfDigits_represents hp _ hdigits
  rw [Scalar.digitSum_digits (by decide) (by decide) (by decide), natCast_zsmul] at hsum
  exact hsum

/-- The multiple of any point of the curve, the point at infinity with any X and Y among them, by
any scalar, reduced or not. -/
theorem mul_represents_nsmul (hp : p.Reduced) (hcurve : p.isOnCurve = Mask.yes) (k : Scalar) :
    (p.mul k).Represents ((k.toNat % groupOrder.toNat) • p.toCurve) ∧
      ((p.mul k).isInfinity = Mask.yes ↔ (k.toNat % groupOrder.toNat) • p.toCurve = 0) := by
  have h := (represents_toCurve hp hcurve).mul k
  exact ⟨h, h.isInfinity_iff⟩

/-- The generator times 2^256 - 1, which is not reduced. -/
theorem generator_mul_represents_nsmul :
    generator.Reduced ∧ generator.isOnCurve = Mask.yes ∧
      (generator.mul ⟨⟨-1, -1, -1, -1⟩⟩).Represents
        (((2 ^ 256 - 1) % groupOrder.toNat) • generator.toCurve) ∧
      ((generator.mul ⟨⟨-1, -1, -1, -1⟩⟩).isInfinity = Mask.yes ↔
        ((2 ^ 256 - 1) % groupOrder.toNat) • generator.toCurve = 0) := by
  have hp : generator.Reduced := by decide
  have hcurve : generator.isOnCurve = Mask.yes := by decide +kernel
  have hk : (⟨⟨-1, -1, -1, -1⟩⟩ : Scalar).toNat = 2 ^ 256 - 1 := by decide +kernel
  have h := mul_represents_nsmul hp hcurve ⟨⟨-1, -1, -1, -1⟩⟩
  rw [hk] at h
  exact ⟨hp, hcurve, h⟩

end KoblitzCurve.JacobianPoint
