import KoblitzCurve.Proofs.AffinePoints

/-! Sums with an affine point against sums of two Jacobian points. Products by the coordinate Z = 1
give reduced factors back word for word, so that the shorter formula meets the same differences, and
falls into the same case, as the general one. -/
namespace KoblitzCurve.JacobianPoint
variable {p : JacobianPoint} {a : AffinePoint}

/-- The two tests of infinity agree: both coordinates zero before, Z = 0 after. -/
theorem isInfinity_ofAffineMont (a : AffinePoint) : (ofAffineMont a).isInfinity = a.isInfinity := by
  have hone : (Residue.montOne : FieldElement) ≠ .zero := by decide
  rw [AffinePoint.isInfinity_eq, isInfinity, Residue.isZero_eq, ofAffineMont_eq]
  by_cases ha : a = .infinity
  · rw [if_pos ha, if_pos ha, if_pos rfl]
  · rw [if_neg ha, if_neg ha, if_neg hone]

/-- The abscissas agree at the denominator of the first point. -/
def SameAbscissa (p : JacobianPoint) (a : AffinePoint) : Prop :=
  a.x.element * p.z.element ^ 2 = p.x.element

def SameOrdinate (p : JacobianPoint) (a : AffinePoint) : Prop :=
  a.y.element * p.z.element ^ 3 = p.y.element

lemma abscissas_eq_iff (p : JacobianPoint) (a : AffinePoint) :
    a.x.montMul p.z.montSquare - p.x.montMul Residue.montOne.montSquare = .zero ↔
      SameAbscissa p a := by
  have h2 := (Residue.reduced_montMul a.x p.z.montSquare).holds
  have h1 := (Residue.reduced_montMul p.x Residue.montOne.montSquare).holds
  rw [(h2.sub h1).eq_zero_iff, sub_eq_zero, Residue.element_montMul, Residue.element_montMul,
    Residue.element_montSquare, Residue.element_montSquare, Residue.element_montOne, one_pow,
    mul_one, SameAbscissa]

lemma ordinates_eq_iff (p : JacobianPoint) (a : AffinePoint) :
    (a.y.montMul p.z.montSquare).montMul p.z -
        (p.y.montMul Residue.montOne.montSquare).montMul .montOne = .zero ↔
      SameOrdinate p a := by
  have h2 := (Residue.reduced_montMul (a.y.montMul p.z.montSquare) p.z).holds
  have h1 := (Residue.reduced_montMul (p.y.montMul Residue.montOne.montSquare) .montOne).holds
  rw [(h2.sub h1).eq_zero_iff, sub_eq_zero, Residue.element_montMul, Residue.element_montMul,
    Residue.element_montMul, Residue.element_montMul, Residue.element_montSquare,
    Residue.element_montSquare, Residue.element_montOne, one_pow, mul_one, mul_one, mul_assoc,
    ← pow_succ, SameOrdinate]

lemma chordSum_z_eq_zero (h : SameAbscissa p a) :
    (p.chordSum ⟨a.x, a.y, .montOne⟩).z = .zero := by
  have hz := (Residue.reduced_montMul ((Residue.zero : FieldElement).montMul p.z) .montOne).holds
  have hh := (abscissas_eq_iff p a).mpr h
  change Residue.montMul (Residue.montMul (_ - _) _) _ = _
  rw [hh, hz.eq_zero_iff, Residue.element_montMul, Residue.element_montMul, Residue.element_zero,
    zero_mul, zero_mul]

/-- The sum with a finite affine point by cases: the other operand, the double, or the formula, which
comes to the point at infinity for equal abscissas. -/
theorem addAffine_of_finite (hx : p.x.Reduced) (hy : p.y.Reduced) (ha : a ≠ .infinity) :
    (p.z = .zero → p.addAffine a = ⟨a.x, a.y, .montOne⟩) ∧
    (p.z ≠ .zero → SameAbscissa p a → SameOrdinate p a → p.addAffine a = p.double) ∧
    (p.z ≠ .zero → SameAbscissa p a → ¬SameOrdinate p a → (p.addAffine a).z = .zero) ∧
    (p.z ≠ .zero → ¬SameAbscissa p a → p.addAffine a = p.chordSum ⟨a.x, a.y, .montOne⟩) := by
  have hone : (Residue.montOne : FieldElement) ≠ .zero := by decide
  have hsum := addAffine_eq_add hx hy a
  rw [ofAffineMont_eq, if_neg ha, add_eq, if_neg hone] at hsum
  rw [hsum]
  refine ⟨fun hz => if_pos hz, fun hz hsame hsame' => ?_, fun hz hsame hother => ?_,
    fun hz hother => ?_⟩
  · rw [if_neg hz, if_pos ⟨(abscissas_eq_iff p a).mpr hsame, (ordinates_eq_iff p a).mpr hsame'⟩]
  · rw [if_neg hz, if_neg fun h => hother ((ordinates_eq_iff p a).mp h.2)]
    exact chordSum_z_eq_zero hsame
  · rw [if_neg hz, if_neg fun h => hother ((abscissas_eq_iff p a).mp h.1)]

/-- The coordinates are those of the general sum for any Z of the first point and any affine point,
on the curve or not; and so they are in each single case. -/
theorem addAffine_specialises (hx : p.x.Reduced) (hy : p.y.Reduced) (a : AffinePoint) :
    p.addAffine a = p + ofAffineMont a ∧
    (ofAffineMont a).isInfinity = a.isInfinity ∧
    (a = .infinity → p.addAffine a = p) ∧
    (a ≠ .infinity →
      (p.z = .zero → p.addAffine a = ⟨a.x, a.y, .montOne⟩) ∧
      (p.z ≠ .zero → SameAbscissa p a → SameOrdinate p a → p.addAffine a = p.double) ∧
      (p.z ≠ .zero → SameAbscissa p a → ¬SameOrdinate p a → (p.addAffine a).z = .zero) ∧
      (p.z ≠ .zero → ¬SameAbscissa p a →
        p.addAffine a = p.chordSum ⟨a.x, a.y, .montOne⟩)) := by
  refine ⟨addAffine_eq_add hx hy a, isInfinity_ofAffineMont a, fun ha => ?_,
    addAffine_of_finite hx hy⟩
  have hz : (ofAffineMont a).z = .zero := by rw [ofAffineMont_eq, if_pos ha]
  rw [addAffine_eq_add hx hy, add_eq, if_pos hz]

/-- The generator with Z = -1 and its affine coordinates, two forms of one point: the sum is the
double, and the point itself where the affine point is at infinity. -/
theorem addAffine_specialises_equal :
    (⟨generator.x, -generator.y, -.montOne⟩ : JacobianPoint).x.Reduced ∧
      (⟨generator.x, -generator.y, -.montOne⟩ : JacobianPoint).y.Reduced ∧
      (-.montOne : FieldElement) ≠ .zero ∧
      SameAbscissa ⟨generator.x, -generator.y, -.montOne⟩ ⟨generator.x, generator.y⟩ ∧
      SameOrdinate ⟨generator.x, -generator.y, -.montOne⟩ ⟨generator.x, generator.y⟩ ∧
      addAffine ⟨generator.x, -generator.y, -.montOne⟩ ⟨generator.x, generator.y⟩ =
        ⟨generator.x, -generator.y, -.montOne⟩ + ofAffineMont ⟨generator.x, generator.y⟩ ∧
      addAffine ⟨generator.x, -generator.y, -.montOne⟩ ⟨generator.x, generator.y⟩ =
        double ⟨generator.x, -generator.y, -.montOne⟩ ∧
      addAffine ⟨generator.x, -generator.y, -.montOne⟩ .infinity =
        ⟨generator.x, -generator.y, -.montOne⟩ := by
  have hx : generator.x.Reduced := by decide
  have hy : generator.y.Reduced := by decide
  have hz : (-.montOne : FieldElement) ≠ .zero := by decide
  have hone : (-.montOne : FieldElement).element = -1 := by
    rw [Residue.element_neg Residue.reduced_montOne, Residue.element_montOne]
  have hfinite : (⟨generator.x, generator.y⟩ : AffinePoint) ≠ .infinity := by decide
  have hsame : SameAbscissa ⟨generator.x, -generator.y, -.montOne⟩ ⟨generator.x, generator.y⟩ := by
    rw [SameAbscissa, hone, neg_one_sq, mul_one]
  have hsame' : SameOrdinate ⟨generator.x, -generator.y, -.montOne⟩ ⟨generator.x, generator.y⟩ := by
    rw [SameOrdinate, hone, Odd.neg_one_pow (by decide), mul_neg_one, Residue.element_neg hy]
  obtain ⟨hsum, -, -, hcases⟩ := @addAffine_specialises ⟨generator.x, -generator.y, -.montOne⟩
    hx hy.neg ⟨generator.x, generator.y⟩
  obtain ⟨-, -, hinfinity, -⟩ := @addAffine_specialises ⟨generator.x, -generator.y, -.montOne⟩
    hx hy.neg .infinity
  obtain ⟨-, hdouble, -, -⟩ := hcases hfinite
  exact ⟨hx, hy.neg, hz, hsame, hsame', hsum, hdouble hz hsame hsame', hinfinity rfl⟩

-- with an abscissa of p + 1 the two differences are in different classes
example : addAffine ⟨.ofWords 0xFFFFFFFEFFFFFC30 (-1) (-1) (-1), .zero, .montOne⟩ ⟨.zero, .montOne⟩ ≠
    ⟨.ofWords 0xFFFFFFFEFFFFFC30 (-1) (-1) (-1), .zero, .montOne⟩ +
      ofAffineMont ⟨.zero, .montOne⟩ := by decide +kernel

end KoblitzCurve.JacobianPoint
