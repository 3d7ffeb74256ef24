import KoblitzCurve.Proofs.PointSums

/-! Points to affine coordinates and back. Plain coordinates become a point just where they solve the
equation of the curve, and are given back reduced; a finite point gives coordinates that make an
equal point again. -/
namespace KoblitzCurve.JacobianPoint
open CurveGroup
variable {p : JacobianPoint} {a : AffinePoint} {x y : FieldElement} {P : CurvePoint}

lemma isOnCurve_plain_iff (x y : FieldElement) :
    isOnCurve ⟨x.toMont, y.toMont, .montOne⟩ = Mask.yes ↔
      y.toNat ^ 2 ≡ x.toNat ^ 3 + 7 [MOD fieldModulus.toNat] := by
  have hone : (![x.toZMod, y.toZMod, 1] : Triple) 2 = 1 := rfl
  rw [(holds_plain x y).isOnCurve_iff, OnCurve, hone, or_iff_right one_ne_zero, one_pow, mul_one,
    ← ZMod.natCast_eq_natCast_iff]
  push_cast
  rfl

theorem ofAffine_eq (x y : FieldElement) :
    ofAffine x y =
      if y.toNat ^ 2 ≡ x.toNat ^ 3 + 7 [MOD fieldModulus.toNat] then
        .ok ⟨x.toMont, y.toMont, .montOne⟩
      else .error .offCurve := by
  have hiff := isOnCurve_plain_iff x y
  rw [ofAffine]
  split_ifs with hoff hsolves hsolves
  · rw [hiff.mpr hsolves] at hoff
    exact absurd hoff (by decide)
  · rfl
  · rfl
  · -- a mask that is not zero has all bits set
    exact absurd ((isOnCurve_eq_zero_or_yes _).resolve_left hoff) (mt hiff.mp hsolves)

theorem toAffine_eq (p : JacobianPoint) :
    p.toAffine =
      if p.z = .zero then .error .infinitePoint
      else .ok (p.toAffineMont.x.fromMont, p.toAffineMont.y.fromMont) := by
  rw [toAffine, isInfinity, Residue.isZero_eq]
  by_cases hz : p.z = .zero
  · rw [if_pos hz, if_pos hz, if_pos (by decide)]
  · rw [if_neg hz, if_neg hz, if_neg (by decide)]

lemma toAffine_eq_error_iff (p : JacobianPoint) :
    p.toAffine = .error .infinitePoint ↔ p.z = .zero := by
  rw [toAffine_eq]
  split_ifs with hz
  · exact iff_of_true rfl hz
  · exact iff_of_false (fun h => nomatch h) hz

/-- With Z = 1 the divisions leave both coordinates as they are. -/
lemma toAffineMont_plain (x y : FieldElement) :
    (toAffineMont ⟨x.toMont, y.toMont, .montOne⟩).x.element = x.toZMod ∧
      (toAffineMont ⟨x.toMont, y.toMont, .montOne⟩).y.element = y.toZMod := by
  obtain ⟨hx, hy⟩ := (holds_plain x y).toAffineMont
  rw [hx.element_eq, hy.element_eq]
  simp

/-- The coordinates come back as the remainders modulo p. -/
theorem toAffine_of_ofAffine (h : ofAffine x y = .ok p) :
    ∃ x' y' : FieldElement, p.toAffine = .ok (x', y') ∧
      x'.toNat = x.toNat % fieldModulus.toNat ∧ y'.toNat = y.toNat % fieldModulus.toNat := by
  rw [ofAffine_eq] at h
  split_ifs at h with hsolves
  cases h
  have hfinite : (Residue.montOne : FieldElement) ≠ .zero := by decide
  obtain ⟨hx, hy⟩ := toAffineMont_plain x y
  exact ⟨_, _, (toAffine_eq _).trans (if_neg hfinite), Residue.fromMont_toNat hx,
    Residue.fromMont_toNat hy⟩

lemma ofAffine_zero : ofAffine .zero .zero = .error .offCurve := by
  rw [ofAffine_eq, if_neg]
  decide

theorem toAffineMont_eq_infinity_iff (hp : p.Represents P) :
    p.toAffineMont = .infinity ↔ p.isInfinity = Mask.yes := by
  rw [hp.isInfinity_iff, ← hp.z_eq_zero_iff]
  refine ⟨fun h => ?_, toAffineMont_of_infinite hp.reduced⟩
  by_contra hz
  obtain ⟨t, ht, hc, -⟩ := hp.exists_holds
  exact toAffineMont_ne_infinity ht hc (mt ht.z.eq_zero_iff.mpr hz) h

/-- A finite entry outside the domain, and put back into it, is the point made from the entry. -/
theorem ofAffine_fromMont (ha : a.Represents P) (hfinite : a ≠ .infinity) :
    ofAffine a.x.fromMont a.y.fromMont = .ok (ofAffineMont a) := by
  have hcurve := JacobianPoint.Represents.isOnCurve ha
  rw [ofAffineMont_eq, if_neg hfinite] at hcurve ⊢
  rw [ofAffine, Residue.toMont_fromMont ha.reduced_x, Residue.toMont_fromMont ha.reduced_y]
  simp only [hcurve]
  rw [if_neg (by decide)]

lemma Represents.ofAffineMont_equals (hp : p.Represents P) :
    (ofAffineMont p.toAffineMont).equals p = Mask.yes :=
  (JacobianPoint.Represents.equals_iff hp.toAffineMont hp).mpr rfl

/-- A finite point of the curve gives coordinates, not both zero, of a point equal to it. -/
theorem Represents.ofAffine_toAffine (hp : p.Represents P) (hfinite : p.isInfinity ≠ Mask.yes) :
    ∃ x y q, p.toAffine = .ok (x, y) ∧ ¬(x = .zero ∧ y = .zero) ∧ ofAffine x y = .ok q ∧
      q.equals p = Mask.yes := by
  have hz : p.z ≠ .zero := by rwa [Ne, hp.z_eq_zero_iff, ← hp.isInfinity_iff]
  have hentry := mt (toAffineMont_eq_infinity_iff hp).mp hfinite
  have hof := ofAffine_fromMont hp.toAffineMont hentry
  refine ⟨_, _, _, (toAffine_eq p).trans (if_neg hz), ?_, hof, hp.ofAffineMont_equals⟩
  rintro ⟨hx, hy⟩
  rw [hx, hy, ofAffine_zero] at hof
  cases hof

/-- Any two numbers of 256 bits are the coordinates of a point just where they solve the equation, and
come back from it modulo p. Any point of the curve comes back from its coordinates, plain or in the
domain, as an equal point; the one at infinity has no plain coordinates, and only it has (0, 0) in the
domain. -/
theorem affine_conversion :
    (∀ x y : FieldElement,
      ((∃ p, ofAffine x y = .ok p) ↔
        y.toNat ^ 2 ≡ x.toNat ^ 3 + 7 [MOD fieldModulus.toNat]) ∧
      (¬y.toNat ^ 2 ≡ x.toNat ^ 3 + 7 [MOD fieldModulus.toNat] →
        ofAffine x y = .error .offCurve) ∧
      ∀ p, ofAffine x y = .ok p → ∃ x' y' : FieldElement, p.toAffine = .ok (x', y') ∧
        x'.toNat = x.toNat % fieldModulus.toNat ∧ y'.toNat = y.toNat % fieldModulus.toNat) ∧
    ∀ p : JacobianPoint, p.Valid →
      (p.isInfinity = Mask.yes →
        p.toAffine = .error .infinitePoint ∧ p.toAffineMont = .infinity) ∧
      (p.isInfinity ≠ Mask.yes → p.toAffineMont ≠ .infinity ∧
        ∃ x y q, p.toAffine = .ok (x, y) ∧ ¬(x = .zero ∧ y = .zero) ∧ ofAffine x y = .ok q ∧
          q.equals p = Mask.yes) ∧
      (ofAffineMont p.toAffineMont).equals p = Mask.yes := by
  refine ⟨fun x y => ⟨?_, fun hoff => ?_, fun p => toAffine_of_ofAffine⟩, fun p hp => ?_⟩
  · rw [ofAffine_eq]
    split_ifs with hsolves
    · exact iff_of_true ⟨_, rfl⟩ hsolves
    · exact iff_of_false (fun ⟨_, h⟩ => nomatch h) hsolves
  · rw [ofAffine_eq, if_neg hoff]
  · have hP := hp.represents
    have hentry := toAffineMont_eq_infinity_iff hP
    refine ⟨fun hinfinite => ⟨?_, hentry.mpr hinfinite⟩,
      fun hfinite => ⟨mt hentry.mp hfinite, hP.ofAffine_toAffine hfinite⟩, hP.ofAffineMont_equals⟩
    rwa [toAffine_eq_error_iff, hP.z_eq_zero_iff, ← hP.isInfinity_iff]

/-- The abscissa p + 1 comes back as 1. A point with Z different from 1 and a point at infinity with
X and Y different from zero go to their coordinates and back. -/
theorem affine_conversion_unreduced :
    (∃ p, ofAffine (.ofWords 0xFFFFFFFEFFFFFC30 (-1) (-1) (-1))
        (.ofWords 0xBC750D587E76A7EE 0x264CA8D2587FDD6F 0x63DB68605822FB14 0x4218F20AE6C646B3)
          = .ok p ∧
        ∃ x' y' : FieldElement, p.toAffine = .ok (x', y') ∧ x'.toNat = 1) ∧
      ofAffine .one .one = .error .offCurve ∧
      (∃ x y q, generator.double.toAffine = .ok (x, y) ∧ ¬(x = .zero ∧ y = .zero) ∧
        ofAffine x y = .ok q ∧ q.equals generator.double = Mask.yes) ∧
      toAffine ⟨.montOne, .one, .zero⟩ = .error .infinitePoint ∧
      (ofAffineMont (toAffineMont ⟨.montOne, .one, .zero⟩)).equals ⟨.montOne, .one, .zero⟩ =
        Mask.yes := by
  obtain ⟨hcoordinates, hpoints⟩ := affine_conversion
  obtain ⟨hsome, -, hback⟩ := hcoordinates (.ofWords 0xFFFFFFFEFFFFFC30 (-1) (-1) (-1))
    (.ofWords 0xBC750D587E76A7EE 0x264CA8D2587FDD6F 0x63DB68605822FB14 0x4218F20AE6C646B3)
  obtain ⟨p, hp⟩ := hsome.mpr (by decide +kernel)
  obtain ⟨x', y', hanswer, hx', -⟩ := hback p hp
  obtain ⟨-, hoff, -⟩ := hcoordinates .one .one
  obtain ⟨-, hfinite, -⟩ := hpoints _ valid_generator.represents.double.valid
  obtain ⟨hinfinite, -, hreturn⟩ := hpoints ⟨.montOne, .one, .zero⟩ ⟨by decide, by decide +kernel⟩
  refine ⟨⟨p, hp, x', y', hanswer, ?_⟩, hoff (by decide), (hfinite (by decide +kernel)).2,
    (hinfinite (by decide)).1, hreturn⟩
  rw [hx']
  decide +kernel

end KoblitzCurve.JacobianPoint
