import KoblitzCurve.Proofs.PointArithmetic
import KoblitzCurve.Proofs.MontgomeryConversion

/-! Points in affine coordinates against the group of the curve. An affine point represents what
the Jacobian point made from it represents; (0, 0), which is on no curve y^2 = x^3 + 7, represents
the point at infinity. -/
namespace KoblitzCurve
open JacobianPoint CurveGroup

namespace AffinePoint
variable {a b : AffinePoint} {P Q : CurvePoint}

lemma isInfinity_eq (a : AffinePoint) : a.isInfinity = if a = infinity then Mask.yes else 0 := by
  obtain ⟨x, y⟩ := a
  rw [isInfinity, Residue.isZero_eq, Residue.isZero_eq, Mask.and_ite, infinity]
  simp only [mk.injEq]

/-- The Jacobian point of the same coordinates represents the group element. -/
def Represents (a : AffinePoint) (P : CurvePoint) : Prop := (ofAffineMont a).Represents P

lemma represents_infinity : infinity.Represents 0 :=
  represents_of_z_eq_zero ⟨Residue.reduced_zero, Residue.reduced_zero, by decide⟩ (by decide)

end AffinePoint

namespace JacobianPoint
variable {p q : JacobianPoint} {a : AffinePoint} {P Q : CurvePoint}

lemma ofAffineMont_eq (a : AffinePoint) :
    ofAffineMont a = ⟨a.x, a.y, if a = .infinity then .zero else .montOne⟩ := by
  rw [ofAffineMont, AffinePoint.isInfinity_eq]
  by_cases ha : a = .infinity
  · rw [if_pos ha, if_pos ha, Residue.replaceIf_yes]
  · rw [if_neg ha, if_neg ha, Residue.replaceIf_zero]

lemma montMul_montOne {a : FieldElement} (ha : a.Reduced) : a.montMul .montOne = a :=
  ((ha.holds.montMul .montOne).eq_iff ha.holds).mpr (mul_one _)

lemma montSquare_montOne : Residue.montOne.montSquare = .montOne := by decide +kernel

/-- The shorter formula computes the same coordinates as the general one for Z = 1. -/
theorem addAffine_eq_add (hx : p.x.Reduced) (hy : p.y.Reduced) (a : AffinePoint) :
    p.addAffine a = p + ofAffineMont a := by
  by_cases ha : a = .infinity
  · have hz : (ofAffineMont a).z = .zero := by rw [ofAffineMont_eq, if_pos ha]
    rw [add_eq, if_pos hz, addAffine, AffinePoint.isInfinity_eq, isInfinity, Residue.isZero_eq]
    exact (settle_eq ..).trans (if_pos ha)
  · have hof : ofAffineMont a = ⟨a.x, a.y, .montOne⟩ := by rw [ofAffineMont_eq, if_neg ha]
    have hone : (Residue.montOne : FieldElement) ≠ .zero := by decide
    have hinf : a.isInfinity = isInfinity ⟨a.x, a.y, .montOne⟩ := by
      rw [AffinePoint.isInfinity_eq, isInfinity, Residue.isZero_eq, if_neg ha, if_neg hone]
    rw [hof, addAffine, hinf]
    change _ = JacobianPoint.add _ _
    simp only [JacobianPoint.add, montSquare_montOne, montMul_montOne hx, montMul_montOne hy,
      montMul_montOne (Residue.reduced_montMul _ _)]

theorem Represents.addAffine (hp : p.Represents P) (ha : a.Represents Q) :
    (p.addAffine a).Represents (P + Q) := by
  rw [addAffine_eq_add hp.reduced.x hp.reduced.y]
  exact JacobianPoint.Represents.add hp ha

lemma Holds.toAffineMont {t : Triple} (hp : p.Holds t) :
    p.toAffineMont.x.Holds (t 0 / t 2 ^ 2) ∧ p.toAffineMont.y.Holds (t 1 / t 2 ^ 3) := by
  have hzi := hp.z.montInverse
  have hx := hp.x.montMul hzi.montSquare
  have hy := (hp.y.montMul hzi.montSquare).montMul hzi
  rw [inv_pow, ← div_eq_mul_inv] at hx
  rw [mul_assoc, ← pow_succ, inv_pow, ← div_eq_mul_inv] at hy
  exact ⟨hx, hy⟩

lemma toAffineMont_of_infinite (hp : p.Reduced) (hz : p.z = .zero) :
    p.toAffineMont = .infinity := by
  obtain ⟨hx, hy⟩ := hp.holds.toAffineMont
  have hz0 : p.triple 2 = 0 := hp.holds.z.eq_zero_iff.mp hz
  rw [hz0, zero_pow two_ne_zero, div_zero] at hx
  rw [hz0, zero_pow three_ne_zero, div_zero] at hy
  rw [AffinePoint.infinity, AffinePoint.mk.injEq]
  exact ⟨hx.eq_zero_iff.mpr rfl, hy.eq_zero_iff.mpr rfl⟩

lemma toAffineMont_ne_infinity {t : Triple} (hp : p.Holds t) (ht : OnCurve t) (hz : t 2 ≠ 0) :
    p.toAffineMont ≠ .infinity := by
  intro h
  obtain ⟨hx, hy⟩ := hp.toAffineMont
  rw [h] at hx hy
  have hx0 := hx.eq_zero_iff.mp rfl
  have hy0 := hy.eq_zero_iff.mp rfl
  have hcurve := (toPoint_normal ht hz).1
  rw [hx0, hy0] at hcurve
  -- (0, 0) is on no curve y^2 = x^3 + 7
  revert hcurve
  rw [OnCurve]
  decide

theorem Represents.toAffineMont (hp : p.Represents P) : p.toAffineMont.Represents P := by
  by_cases hz : p.z = .zero
  · rw [toAffineMont_of_infinite hp.reduced hz, hp.z_eq_zero_iff.mp hz]
    exact AffinePoint.represents_infinity
  · obtain ⟨t, ht, hc, rfl⟩ := hp.exists_holds
    have hzt : t 2 ≠ 0 := fun h => hz (ht.z.eq_zero_iff.mpr h)
    obtain ⟨hx, hy⟩ := ht.toAffineMont
    obtain ⟨hcurve, hpoint⟩ := toPoint_normal hc hzt
    rw [AffinePoint.Represents, ofAffineMont_eq, if_neg (toAffineMont_ne_infinity ht hc hzt)]
    have h : Holds ⟨p.toAffineMont.x, p.toAffineMont.y, .montOne⟩
        ![t 0 / t 2 ^ 2, t 1 / t 2 ^ 3, 1] := ⟨hx, hy, .montOne⟩
    exact h.represents hcurve hpoint

lemma isOnCurve_eq_zero_or_yes (p : JacobianPoint) : p.isOnCurve = 0 ∨ p.isOnCurve = Mask.yes := by
  rw [isOnCurve, Residue.equals_eq, Residue.isZero_eq, Mask.or_ite]
  split_ifs
  · exact Or.inr rfl
  · exact Or.inl rfl

/-- Plain coordinates in the domain, with Z = 1. -/
lemma holds_plain (x y : FieldElement) :
    Holds ⟨x.toMont, y.toMont, .montOne⟩ ![x.toZMod, y.toZMod, 1] :=
  ⟨Residue.toMont_holds x, Residue.toMont_holds y, .montOne⟩

theorem represents_of_ofAffine {x y : FieldElement} (h : ofAffine x y = .ok p) :
    p.Represents p.toCurve := by
  rw [ofAffine] at h
  split_ifs at h with hoff
  cases h
  exact represents_toCurve (holds_plain x y).reduced
    ((isOnCurve_eq_zero_or_yes _).resolve_left hoff)

theorem represents_generator : generator.Represents generator.toCurve :=
  represents_toCurve (by decide) (by decide +kernel)

end JacobianPoint

namespace AffinePoint
variable {a b : AffinePoint} {P Q : CurvePoint}

namespace Represents

lemma reduced_x (ha : a.Represents P) : a.x.Reduced := JacobianPoint.Represents.reduced ha |>.x

lemma reduced_y (ha : a.Represents P) : a.y.Reduced := JacobianPoint.Represents.reduced ha |>.y

lemma ofAffineMont_neg (ha : a.Represents P) : ofAffineMont ⟨a.x, -a.y⟩ = -ofAffineMont a := by
  have hy : -a.y = .zero ↔ a.y = .zero := by
    rw [ha.reduced_y.holds.neg.eq_zero_iff, ha.reduced_y.holds.eq_zero_iff, neg_eq_zero]
  -- the opposite of (0, 0) is (0, 0) again
  have hinf : (⟨a.x, -a.y⟩ : AffinePoint) = infinity ↔ a = infinity := by
    obtain ⟨x, y⟩ := a
    simp only [infinity, mk.injEq, hy]
  simp only [ofAffineMont_eq, hinf]
  rfl

theorem negateIf (ha : a.Represents P) (c : Prop) [Decidable c] :
    (a.negateIf (if c then Mask.yes else 0)).Represents (if c then -P else P) := by
  by_cases hc : c
  · rw [if_pos hc, if_pos hc, negateIf_yes, Represents, ha.ofAffineMont_neg]
    exact JacobianPoint.Represents.neg ha
  · rwa [if_neg hc, if_neg hc, negateIf_zero]

theorem replaceIf (ha : a.Represents P) (hb : b.Represents Q) (c : Prop) [Decidable c] :
    (a.replaceIf b (if c then Mask.yes else 0)).Represents (if c then Q else P) := by
  by_cases hc : c
  · rwa [if_pos hc, if_pos hc, replaceIf_yes]
  · rwa [if_neg hc, if_neg hc, replaceIf_zero]

/-- A finite affine point has the coordinates of a solution, in the Montgomery domain. -/
theorem exists_solution (ha : a.Represents P) (hfin : a ≠ infinity) :
    ∃ x y : FieldElement, x.Reduced ∧ y.Reduced ∧
      y.toNat ^ 2 ≡ x.toNat ^ 3 + 7 [MOD fieldModulus.toNat] ∧ a.x = x.toMont ∧ a.y = y.toMont := by
  obtain ⟨t, ht, hc, -⟩ := ha.exists_holds
  rw [ofAffineMont_eq, if_neg hfin] at ht
  have hz : t 2 = 1 := by rw [← ht.z.element_eq, Residue.element_montOne]
  have hsolves := hc.resolve_left (by rw [hz]; exact one_ne_zero)
  rw [hz, one_pow, mul_one, ← ht.x.element_eq, ← ht.y.element_eq, ← Residue.toZMod_fromMont,
    ← Residue.toZMod_fromMont] at hsolves
  refine ⟨a.x.fromMont, a.y.fromMont, Residue.reduced_montMul _ _, Residue.reduced_montMul _ _, ?_,
    (Residue.toMont_fromMont ha.reduced_x).symm, (Residue.toMont_fromMont ha.reduced_y).symm⟩
  rw [← ZMod.natCast_eq_natCast_iff]
  push_cast
  exact hsolves

end Represents

end AffinePoint

end KoblitzCurve
