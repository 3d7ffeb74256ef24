import KoblitzCurve.Proofs.AffineConversion

/-! Equality of points, on the curve or not, against their affine coordinates. The test compares
products of coordinates with the denominators of the other point; conversion divides by the
denominators. As every Z other than zero has an inverse, the two agree on reduced coordinates. -/
namespace KoblitzCurve.JacobianPoint
open CurveGroup
variable {p q r : JacobianPoint} {c : FieldElement} {t u : Triple}

lemma Holds.ext (hp : p.Holds t) (hq : q.Holds t) : p = q := by
  obtain ⟨x, y, z⟩ := p
  obtain ⟨x', y', z'⟩ := q
  rw [mk.injEq]
  exact ⟨(hp.x.eq_iff hq.x).mpr rfl, (hp.y.eq_iff hq.y).mpr rfl, (hp.z.eq_iff hq.z).mpr rfl⟩

/-- The answers of the conversion are the same for triples that stand for the same point. -/
theorem Holds.toAffine_eq_iff (hp : p.Holds t) (hq : q.Holds u) :
    p.toAffine = q.toAffine ↔ SamePoint t u := by
  obtain ⟨hpx, hpy⟩ := hp.toAffineMont
  obtain ⟨hqx, hqy⟩ := hq.toAffineMont
  have hpz := hp.z.eq_zero_iff
  have hqz := hq.z.eq_zero_iff
  by_cases hzt : t 2 = 0
  · rw [(toAffine_eq_error_iff p).mpr (hpz.mpr hzt), eq_comm, toAffine_eq_error_iff, hqz]
    simp [SamePoint, hzt]
  by_cases hzu : u 2 = 0
  · rw [(toAffine_eq_error_iff q).mpr (hqz.mpr hzu), toAffine_eq_error_iff, hpz]
    simp [SamePoint, hzu]
  · rw [toAffine_eq, toAffine_eq, if_neg (mt hpz.mp hzt), if_neg (mt hqz.mp hzu),
      samePoint_iff_div_eq hzt hzu, Except.ok.injEq, Prod.mk.injEq, Residue.fromMont_inj,
      Residue.fromMont_inj, hpx.element_eq, hpy.element_eq, hqx.element_eq, hqy.element_eq]

theorem Reduced.equals_eq (hp : p.Reduced) (hq : q.Reduced) :
    p.equals q = if p.toAffine = q.toAffine then Mask.yes else 0 := by
  rw [hp.holds.equals_eq hq.holds]
  exact if_congr (hp.holds.toAffine_eq_iff hq.holds).symm rfl rfl

lemma Reduced.equals_iff (hp : p.Reduced) (hq : q.Reduced) :
    p.equals q = Mask.yes ↔ p.toAffine = q.toAffine := by
  rw [hp.equals_eq hq, Mask.ite_eq_yes_iff]

/-- Points of the same affine coordinates may stand for each other in the test. -/
lemma Reduced.equals_congr (hp : p.Reduced) (hq : q.Reduced) (hr : r.Reduced)
    (h : p.toAffine = q.toAffine) : p.equals r = q.equals r ∧ r.equals p = r.equals q := by
  rw [hp.equals_eq hr, hq.equals_eq hr, hr.equals_eq hp, hr.equals_eq hq, h]
  exact ⟨rfl, rfl⟩

/-- Other coordinates of the same point: Z multiplied by a factor, and X and Y by its square and its
cube. -/
def rescale (p : JacobianPoint) (c : FieldElement) : JacobianPoint :=
  ⟨p.x.montMul c.montSquare, (p.y.montMul c.montSquare).montMul c, p.z.montMul c⟩

lemma holds_rescale (p : JacobianPoint) (c : FieldElement) :
    (p.rescale c).Holds
      ![p.x.element * c.element ^ 2, p.y.element * c.element ^ 3, p.z.element * c.element] := by
  have hx : (p.x.montMul c.montSquare).element = p.x.element * c.element ^ 2 := by
    rw [Residue.element_montMul, Residue.element_montSquare]
  have hy : ((p.y.montMul c.montSquare).montMul c).element = p.y.element * c.element ^ 3 := by
    rw [Residue.element_montMul, Residue.element_montMul, Residue.element_montSquare, mul_assoc,
      ← pow_succ]
  exact ⟨⟨Residue.reduced_montMul _ _, hx⟩, ⟨Residue.reduced_montMul _ _, hy⟩,
    ⟨Residue.reduced_montMul _ _, Residue.element_montMul _ _⟩⟩

lemma reduced_rescale (p : JacobianPoint) (c : FieldElement) : (p.rescale c).Reduced :=
  (holds_rescale p c).reduced

theorem Reduced.toAffine_rescale (hp : p.Reduced) (hc : c.element ≠ 0) :
    (p.rescale c).toAffine = p.toAffine := by
  rw [(holds_rescale p c).toAffine_eq_iff hp.holds]
  by_cases hz : p.z.element = 0
  · exact Or.inl ⟨mul_eq_zero_of_left hz _, hz⟩
  · refine Or.inr ⟨mul_ne_zero hz hc, hz, ?_, ?_⟩
    · change p.x.element * c.element ^ 2 * p.z.element ^ 2 =
        p.x.element * (p.z.element * c.element) ^ 2
      ring
    · change p.y.element * c.element ^ 3 * p.z.element ^ 3 =
        p.y.element * (p.z.element * c.element) ^ 3
      ring

/-- The factor is the quotient of the two Z. -/
theorem Reduced.exists_rescale (hp : p.Reduced) (hq : q.Reduced) (hz : p.z ≠ .zero)
    (h : p.toAffine = q.toAffine) : ∃ c : FieldElement, c.element ≠ 0 ∧ q = p.rescale c := by
  have hzp : p.z.element ≠ 0 := mt hp.z.holds.eq_zero_iff.mpr hz
  obtain ⟨hzero, -⟩ | ⟨-, hzq, hx, hy⟩ := (hp.holds.toAffine_eq_iff hq.holds).mp h
  · exact absurd hzero hzp
  have hfactor : (q.z.montMul p.z.montInverse).element = q.z.element / p.z.element := by
    rw [Residue.element_montMul, Residue.element_montInverse, div_eq_mul_inv]
  have hscaled := holds_rescale p (q.z.montMul p.z.montInverse)
  rw [hfactor] at hscaled
  refine ⟨q.z.montMul p.z.montInverse, ?_, ?_⟩
  · rw [hfactor]
    exact div_ne_zero hzq hzp
  · -- reduced words are settled by the elements they hold
    refine hq.holds.ext ?_
    rw [triple]
    convert hscaled using 1
    apply triple_congr
    · rw [div_pow, mul_div_assoc', eq_div_iff (pow_ne_zero 2 hzp)]
      exact hx.symm
    · rw [div_pow, mul_div_assoc', eq_div_iff (pow_ne_zero 3 hzp)]
      exact hy.symm
    · rw [mul_div_cancel₀ _ hzp]

/-- Equal points are both at infinity, or the coordinates of one are those of the other rescaled. -/
theorem Reduced.equals_iff_rescale (hp : p.Reduced) (hq : q.Reduced) :
    p.equals q = Mask.yes ↔ p.z = .zero ∧ q.z = .zero ∨
      p.z ≠ .zero ∧ ∃ c : FieldElement, c.element ≠ 0 ∧ q = p.rescale c := by
  rw [hp.equals_iff hq]
  constructor
  · intro h
    by_cases hz : p.z = .zero
    · have hinfinite := (toAffine_eq_error_iff p).mpr hz
      rw [h, toAffine_eq_error_iff] at hinfinite
      exact Or.inl ⟨hz, hinfinite⟩
    · exact Or.inr ⟨hz, hp.exists_rescale hq hz h⟩
  · rintro (⟨hzp, hzq⟩ | ⟨-, c, hc, rfl⟩)
    · rw [(toAffine_eq_error_iff p).mpr hzp, (toAffine_eq_error_iff q).mpr hzq]
    · exact (hp.toAffine_rescale hc).symm

/-- The test tells whether both points have the same affine coordinates or both have none, so that it
is an equivalence; whichever of equal coordinates are given for a point, and whatever X and Y at
infinity, its answers are the same. -/
theorem equals_iff_toAffine_eq (hp : p.Reduced) (hq : q.Reduced) (hr : r.Reduced) :
    (p.equals q = Mask.yes ↔ p.toAffine = q.toAffine) ∧
    (p.toAffine ≠ q.toAffine → p.equals q = 0) ∧
    p.equals p = Mask.yes ∧
    (p.equals q = Mask.yes → q.equals p = Mask.yes) ∧
    (p.equals q = Mask.yes → q.equals r = Mask.yes → p.equals r = Mask.yes) ∧
    (p.equals q = Mask.yes → p.equals r = q.equals r ∧ r.equals p = r.equals q) ∧
    (p.equals q = Mask.yes ↔ p.z = .zero ∧ q.z = .zero ∨
      p.z ≠ .zero ∧ ∃ c : FieldElement, c.element ≠ 0 ∧ q = p.rescale c) ∧
    (∀ c : FieldElement, c.element ≠ 0 →
      (p.rescale c).equals r = p.equals r ∧ r.equals (p.rescale c) = r.equals p) ∧
    (p.z = .zero → ∀ x y : FieldElement, x.Reduced → y.Reduced →
      equals ⟨x, y, .zero⟩ r = p.equals r ∧ r.equals ⟨x, y, .zero⟩ = r.equals p) := by
  refine ⟨hp.equals_iff hq, fun hne => ?_, ?_, ?_, ?_, ?_, hp.equals_iff_rescale hq,
    fun c hc => ?_, fun hz x y hx hy => ?_⟩
  · rw [hp.equals_eq hq, if_neg hne]
  · exact (hp.equals_iff hp).mpr rfl
  · rw [hp.equals_iff hq, hq.equals_iff hp]
    exact Eq.symm
  · rw [hp.equals_iff hq, hq.equals_iff hr, hp.equals_iff hr]
    exact Eq.trans
  · rw [hp.equals_iff hq]
    exact hp.equals_congr hq hr
  · exact (reduced_rescale p c).equals_congr hp hr (hp.toAffine_rescale hc)
  · have hinfinite : Reduced ⟨x, y, .zero⟩ := ⟨hx, hy, Residue.reduced_zero⟩
    refine hinfinite.equals_congr hp hr ?_
    rw [(toAffine_eq_error_iff p).mpr hz, toAffine_eq_error_iff]

/-- A point that is not on the curve, the same with another Z, and a point at infinity. -/
theorem equals_iff_toAffine_eq_off_curve :
    isOnCurve ⟨.montOne, .montOne, .montOne⟩ = 0 ∧
      (rescale ⟨.montOne, .montOne, .montOne⟩ .one).z ≠ .montOne ∧
      equals ⟨.montOne, .montOne, .montOne⟩ (rescale ⟨.montOne, .montOne, .montOne⟩ .one) =
        Mask.yes ∧
      toAffine ⟨.montOne, .montOne, .montOne⟩ =
        toAffine (rescale ⟨.montOne, .montOne, .montOne⟩ .one) ∧
      equals ⟨.montOne, .montOne, .montOne⟩ ⟨.montOne, .one, .zero⟩ = 0 := by
  have hone : (Residue.one : FieldElement).element ≠ 0 := by
    rw [Ne, Residue.element_eq_zero_iff]
    decide
  have hp : Reduced ⟨.montOne, .montOne, .montOne⟩ := by decide
  have hr : Reduced ⟨.montOne, .one, .zero⟩ := by decide
  have hz : (Residue.montOne : FieldElement) ≠ .zero := by decide
  obtain ⟨hiff, -, -, -, -, -, hscale, -, -⟩ := equals_iff_toAffine_eq hp
    (reduced_rescale ⟨.montOne, .montOne, .montOne⟩ .one) hr
  obtain ⟨-, hne, -⟩ := equals_iff_toAffine_eq hp hr hr
  have hequal := hscale.mpr (Or.inr ⟨hz, .one, hone, rfl⟩)
  refine ⟨by decide +kernel, by decide +kernel, hequal, hiff.mp hequal, hne fun h => hz ?_⟩
  rwa [(toAffine_eq_error_iff ⟨.montOne, .one, .zero⟩).mpr rfl, toAffine_eq_error_iff] at h

end KoblitzCurve.JacobianPoint
