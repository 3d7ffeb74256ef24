import KoblitzCurve.Proofs.AffinePoints

/-! Sums of points do not depend on the order of their terms or on how they are put in brackets,
whatever equal, opposite and infinite points meet on the way. Taken up to the test of equality, the
points of the curve are a commutative group. -/
namespace KoblitzCurve

/-- A way to add up points. The neutral point is the sum of no terms. -/
inductive PointSum
  | neutral
  | point (p : JacobianPoint)
  | add (s t : PointSum)

namespace PointSum

def value : PointSum → JacobianPoint
  | neutral => .neutral
  | point p => p
  | add s t => s.value + t.value

def terms : PointSum → List JacobianPoint
  | neutral => []
  | point p => [p]
  | add s t => s.terms ++ t.terms

end PointSum

namespace JacobianPoint
variable {p q r : JacobianPoint}

/-- Reduced coordinates of a point of the curve. At infinity X and Y are any reduced numbers. -/
structure Valid (p : JacobianPoint) : Prop where
  reduced : p.Reduced
  isOnCurve : p.isOnCurve = Mask.yes

lemma Valid.represents (hp : p.Valid) : p.Represents p.toCurve :=
  represents_toCurve hp.reduced hp.isOnCurve

lemma Represents.valid {P : CurvePoint} (hp : p.Represents P) : p.Valid :=
  ⟨hp.reduced, hp.isOnCurve⟩

lemma Valid.equals_iff (hp : p.Valid) (hq : q.Valid) :
    p.equals q = Mask.yes ↔ p.toCurve = q.toCurve :=
  hp.represents.equals_iff hq.represents

lemma valid_generator : generator.Valid := represents_generator.valid

end JacobianPoint

namespace PointSum

/-- However the terms are added, the result stands for their sum in the group. -/
theorem value_represents (s : PointSum) (hs : ∀ p ∈ s.terms, p.Valid) :
    s.value.Represents (s.terms.map JacobianPoint.toCurve).sum := by
  induction s with
  | neutral => exact JacobianPoint.represents_neutral
  | point p =>
    have hp := (hs p List.mem_cons_self).represents
    simpa [value, terms] using hp
  | add s t ihs iht =>
    have hleft := ihs fun p hp => hs p (List.mem_append_left _ hp)
    have hright := iht fun p hp => hs p (List.mem_append_right _ hp)
    have hsum := hleft.add hright
    simpa [value, terms] using hsum

theorem value_equals_of_perm {s t : PointSum} (hs : ∀ p ∈ s.terms, p.Valid)
    (hperm : s.terms.Perm t.terms) : s.value.equals t.value = Mask.yes := by
  have ht : ∀ p ∈ t.terms, p.Valid := fun p hp => hs p (hperm.mem_iff.mpr hp)
  rw [(s.value_represents hs).equals_iff (t.value_represents ht)]
  exact (hperm.map _).sum_eq

end PointSum

namespace JacobianPoint

/-- All ways to add up a list of points give equal points, and addition and opposites are those of
a commutative group on the classes of equal points, which are the points of the curve. -/
theorem add_commGroup :
    (∀ s t : PointSum, (∀ p ∈ s.terms, p.Valid) → s.terms.Perm t.terms →
      s.value.equals t.value = Mask.yes) ∧
    (∀ p q r : JacobianPoint, p.Valid → q.Valid → r.Valid →
      ((p + q).Valid ∧ (-p).Valid ∧ neutral.Valid) ∧
      ((p + q) + r).equals (p + (q + r)) = Mask.yes ∧
      (p + q).equals (q + p) = Mask.yes ∧
      (p + neutral).equals p = Mask.yes ∧
      (p - p).isInfinity = Mask.yes) ∧
    (∀ p q r : JacobianPoint, p.Valid → q.Valid → r.Valid →
      (p.equals q = Mask.yes ↔ p.toCurve = q.toCurve) ∧
      p.equals p = Mask.yes ∧
      (p.equals q = Mask.yes → q.equals p = Mask.yes) ∧
      (p.equals q = Mask.yes → q.equals r = Mask.yes → p.equals r = Mask.yes) ∧
      (p.equals q = Mask.yes → (p + r).equals (q + r) = Mask.yes ∧
        (-p).equals (-q) = Mask.yes)) := by
  refine ⟨fun s t hs hperm => PointSum.value_equals_of_perm hs hperm, ?_, ?_⟩
  · intro p q r hp hq hr
    have hP := hp.represents
    have hQ := hq.represents
    have hR := hr.represents
    refine ⟨⟨(hP.add hQ).valid, hP.neg.valid, represents_neutral.valid⟩, ?_, ?_, ?_, ?_⟩
    · exact (((hP.add hQ).add hR).equals_iff (hP.add (hQ.add hR))).mpr (add_assoc _ _ _)
    · exact ((hP.add hQ).equals_iff (hQ.add hP)).mpr (add_comm _ _)
    · exact ((hP.add represents_neutral).equals_iff hP).mpr (add_zero _)
    · exact (hP.sub hP).isInfinity_iff.mpr (sub_self _)
  · intro p q r hp hq hr
    simp only [hp.equals_iff hp, hp.equals_iff hq, hq.equals_iff hp, hq.equals_iff hr,
      hp.equals_iff hr, iff_self, true_and]
    refine ⟨Eq.symm, Eq.trans, fun heq => ⟨?_, ?_⟩⟩
    · rw [(hp.represents.add hr.represents).equals_iff (hq.represents.add hr.represents), heq]
    · rw [hp.represents.neg.equals_iff hq.represents.neg, heq]

/-- The generator twice, its opposite and a point at infinity of other coordinates, in two orders:
one meets opposite points, the other one equal points. -/
theorem add_commGroup_generator :
    generator.Valid ∧ (-generator).Valid ∧ (⟨.montOne, .one, .zero⟩ : JacobianPoint).Valid ∧
      (((generator + ⟨.montOne, .one, .zero⟩) + -generator) + generator).equals
        ((generator + generator) + (-generator + ⟨.montOne, .one, .zero⟩)) = Mask.yes ∧
      (generator - generator).isInfinity = Mask.yes ∧
      generator.equals generator = Mask.yes := by
  obtain ⟨hsums, hlaws, hclasses⟩ := add_commGroup
  have hgen := valid_generator
  have hneg := hgen.represents.neg.valid
  have hinf : (⟨.montOne, .one, .zero⟩ : JacobianPoint).Valid := ⟨by decide, by decide +kernel⟩
  refine ⟨hgen, hneg, hinf, ?_, (hlaws _ _ _ hgen hgen hgen).2.2.2.2,
    (hclasses _ _ _ hgen hgen hgen).2.1⟩
  have hvalid : ∀ p ∈ [generator, ⟨.montOne, .one, .zero⟩, -generator, generator], p.Valid := by
    simp only [List.forall_mem_cons]
    exact ⟨hgen, hinf, hneg, hgen, by simp⟩
  refine hsums (.add (.add (.add (.point generator) (.point ⟨.montOne, .one, .zero⟩))
    (.point (-generator))) (.point generator))
    (.add (.add (.point generator) (.point generator))
      (.add (.point (-generator)) (.point ⟨.montOne, .one, .zero⟩))) hvalid ?_
  exact (List.reverse_perm [generator, -generator, ⟨.montOne, .one, .zero⟩]).cons generator

end JacobianPoint

end KoblitzCurve
