import KoblitzCurve.JacobianPoint
import KoblitzCurve.Proofs.CurveGroup

/-! Points in Jacobian coordinates against the group of the curve. A point with reduced
coordinates that passes the test of the equation represents one group element, and each operation
on such points represents the operation of the group, the cases settled by masks among them. -/
namespace KoblitzCurve

namespace Mask

lemma and_ite (p q : Prop) [Decidable p] [Decidable q] :
    (if p then yes else 0) &&& (if q then yes else 0) = if p ∧ q then yes else 0 := by
  by_cases hp : p <;> by_cases hq : q <;> simp only [hp, hq, and_self, and_true, and_false,
    if_true, if_false] <;> rfl

lemma or_ite (p q : Prop) [Decidable p] [Decidable q] :
    (if p then yes else 0) ||| (if q then yes else 0) = if p ∨ q then yes else 0 := by
  by_cases hp : p <;> by_cases hq : q <;> simp only [hp, hq, or_self, or_true, or_false,
    if_true, if_false] <;> rfl

lemma not_ite (p : Prop) [Decidable p] :
    ~~~(if p then yes else 0) = if ¬p then yes else 0 := by
  by_cases hp : p <;> simp only [hp, not_true, not_false_iff, if_true, if_false] <;> rfl

lemma ite_eq_yes_iff (p : Prop) [Decidable p] : (if p then yes else 0) = yes ↔ p := by
  by_cases hp : p
  · simp only [hp, if_true]
  · rw [if_neg hp]
    exact iff_of_false (by decide) hp

end Mask

namespace JacobianPoint
open CurveGroup
variable {p q : JacobianPoint} {t u : Triple} {P Q : CurvePoint}

structure Reduced (p : JacobianPoint) : Prop where
  x : p.x.Reduced
  y : p.y.Reduced
  z : p.z.Reduced

instance (p : JacobianPoint) : Decidable p.Reduced :=
  decidable_of_iff (p.x.Reduced ∧ p.y.Reduced ∧ p.z.Reduced)
    ⟨fun h => ⟨h.1, h.2.1, h.2.2⟩, fun h => ⟨h.x, h.y, h.z⟩⟩

def triple (p : JacobianPoint) : Triple := ![p.x.element, p.y.element, p.z.element]

/-- The point (X / Z^2, Y / Z^3) of the curve, and the point at infinity for Z = 0. -/
noncomputable def toCurve (p : JacobianPoint) : CurvePoint := toPoint p.triple

/-- The point has reduced coordinates, is on the curve and stands for the group element. -/
structure Represents (p : JacobianPoint) (P : CurvePoint) : Prop where
  reduced : p.Reduced
  isOnCurve : p.isOnCurve = Mask.yes
  toCurve_eq : p.toCurve = P

lemma represents_toCurve (hp : p.Reduced) (h : p.isOnCurve = Mask.yes) :
    p.Represents p.toCurve := ⟨hp, h, rfl⟩

structure Holds (p : JacobianPoint) (t : Triple) : Prop where
  x : p.x.Holds (t 0)
  y : p.y.Holds (t 1)
  z : p.z.Holds (t 2)

lemma Reduced.holds (hp : p.Reduced) : p.Holds p.triple := ⟨hp.x.holds, hp.y.holds, hp.z.holds⟩

namespace Holds

lemma reduced (hp : p.Holds t) : p.Reduced := ⟨hp.x.reduced, hp.y.reduced, hp.z.reduced⟩

lemma triple_eq (hp : p.Holds t) : p.triple = t := by
  rw [triple, hp.x.element_eq, hp.y.element_eq, hp.z.element_eq]
  exact List.ofFn_inj.mp rfl

lemma isOnCurve_iff (hp : p.Holds t) : p.isOnCurve = Mask.yes ↔ OnCurve t := by
  have hz6 := (hp.z.montSquare.montSquare.montMul hp.z.montSquare).mulWord 7
  have hright := (hp.x.montSquare.montMul hp.x).add hz6
  have heq : t 0 ^ 2 * t 0 + (t 2 ^ 2) ^ 2 * t 2 ^ 2 * ((7 : UInt64).toNat : BaseField) =
      t 0 ^ 3 + 7 * t 2 ^ 6 := by
    rw [show ((7 : UInt64).toNat : BaseField) = 7 from rfl]
    ring
  rw [heq] at hright
  change Residue.equals _ _ ||| p.z.isZero = _ ↔ _
  rw [Residue.equals_eq, Residue.isZero_eq, Mask.or_ite, Mask.ite_eq_yes_iff,
    hp.y.montSquare.eq_iff hright, hp.z.eq_zero_iff, or_comm, OnCurve]

lemma represents (hp : p.Holds t) (ht : OnCurve t) (hP : toPoint t = P) : p.Represents P :=
  ⟨hp.reduced, hp.isOnCurve_iff.mpr ht, by rw [toCurve, hp.triple_eq, hP]⟩

end Holds

lemma Represents.onCurve (hp : p.Represents P) : OnCurve p.triple :=
  hp.reduced.holds.isOnCurve_iff.mp hp.isOnCurve

lemma Represents.exists_holds (hp : p.Represents P) :
    ∃ t, p.Holds t ∧ OnCurve t ∧ toPoint t = P :=
  ⟨p.triple, hp.reduced.holds, hp.onCurve, hp.toCurve_eq⟩

lemma Represents.z_eq_zero_iff (hp : p.Represents P) : p.z = .zero ↔ P = 0 := by
  obtain ⟨t, ht, hc, rfl⟩ := hp.exists_holds
  rw [ht.z.eq_zero_iff, toPoint_eq_zero_iff hc]

theorem Represents.isInfinity_iff (hp : p.Represents P) : p.isInfinity = Mask.yes ↔ P = 0 := by
  rw [isInfinity, Residue.isZero_eq, Mask.ite_eq_yes_iff, hp.z_eq_zero_iff]

lemma represents_of_z_eq_zero (hp : p.Reduced) (hz : p.z = .zero) : p.Represents 0 := by
  have h := hp.holds.z.eq_zero_iff.mp hz
  exact hp.holds.represents (Or.inl h) (toPoint_of_zero h)

theorem represents_neutral : neutral.Represents 0 :=
  represents_of_z_eq_zero ⟨Residue.reduced_zero, Residue.reduced_montOne, Residue.reduced_zero⟩ rfl

lemma Holds.double (hp : p.Holds t) : p.double.Holds (CurveGroup.double t) := by
  have hs := hp.y.double.montSquare.montMul hp.x
  have hm := hp.x.montSquare.triple
  have hx := hm.montSquare.sub hs.double
  have ht := hp.y.double.montSquare.montSquare.half
  have hhalf : ((t 1 + t 1) ^ 2) ^ 2 / 2 = 8 * t 1 ^ 4 := by
    rw [div_eq_iff two_ne_zero_baseField]
    ring
  rw [hhalf] at ht
  exact ⟨hx, ((hs.sub hx).montMul hm).sub ht, hp.y.double.montMul hp.z⟩

theorem Represents.double (hp : p.Represents P) : p.double.Represents (P + P) := by
  obtain ⟨t, ht, hc, rfl⟩ := hp.exists_holds
  obtain ⟨hcurve, hpoint⟩ := toPoint_double hc
  exact ht.double.represents hcurve hpoint

theorem Represents.doubleTimes (hp : p.Represents P) (n : ℕ) :
    (p.doubleTimes n).Represents (2 ^ n • P) := by
  induction n generalizing p P with
  | zero => rwa [doubleTimes, pow_zero, one_smul]
  | succ n ih =>
    have h := ih hp.double
    rwa [← two_nsmul, ← mul_nsmul', ← pow_succ] at h

/-- The sum before the left-out cases are put in place. -/
def chordSum (p q : JacobianPoint) : JacobianPoint :=
  let h := q.x.montMul p.z.montSquare - p.x.montMul q.z.montSquare
  let r := (q.y.montMul p.z.montSquare).montMul p.z - (p.y.montMul q.z.montSquare).montMul q.z
  ofDifferences (p.x.montMul q.z.montSquare) ((p.y.montMul q.z.montSquare).montMul q.z) h r
    ((h.montMul p.z).montMul q.z)

lemma Holds.chordSum (hp : p.Holds t) (hq : q.Holds u) : (p.chordSum q).Holds (chord t u) := by
  have hu1 := hp.x.montMul hq.z.montSquare
  have hs1 := (hp.y.montMul hq.z.montSquare).montMul hq.z
  have hh := (hq.x.montMul hp.z.montSquare).sub hu1
  have hr := ((hq.y.montMul hp.z.montSquare).montMul hp.z).sub hs1
  have hhhh := hh.montSquare.montMul hh
  have hv := hu1.montMul hh.montSquare
  have hx := (hr.montSquare.sub hhhh).sub hv.double
  exact ⟨hx, (hr.montMul (hv.sub hx)).sub (hs1.montMul hhhh), (hh.montMul hp.z).montMul hq.z⟩

lemma replaceIf_ite (p q : JacobianPoint) (c : Prop) [Decidable c] :
    p.replaceIf q (if c then Mask.yes else 0) = if c then q else p := by
  by_cases hc : c
  · rw [if_pos hc, if_pos hc, replaceIf_yes]
  · rw [if_neg hc, if_neg hc, replaceIf_zero]

/-- The masks of a sum read as branches, the last one applied first. -/
lemma settle_eq (sum p q : JacobianPoint) (h r : FieldElement) (c d : Prop) [Decidable c]
    [Decidable d] :
    settle sum p q h r (if c then Mask.yes else 0) (if d then Mask.yes else 0) =
      if d then p else if c then q else if h = .zero ∧ r = .zero then p.double else sum := by
  rw [settle, Residue.isZero_eq, Residue.isZero_eq, Mask.not_ite, Mask.not_ite, Mask.and_ite,
    Mask.and_ite, Mask.and_ite, replaceIf_ite, replaceIf_ite, replaceIf_ite]
  by_cases hd : d
  · rw [if_pos hd, if_pos hd]
  · rw [if_neg hd, if_neg hd]
    by_cases hc : c
    · rw [if_pos hc, if_pos hc]
    · simp only [hc, hd, if_false, not_false_iff, and_true]

theorem add_eq (p q : JacobianPoint) :
    p + q = if q.z = .zero then p else if p.z = .zero then q else
      if q.x.montMul p.z.montSquare - p.x.montMul q.z.montSquare = .zero ∧
        (q.y.montMul p.z.montSquare).montMul p.z - (p.y.montMul q.z.montSquare).montMul q.z = .zero
      then p.double else chordSum p q := by
  rw [← settle_eq, ← Residue.isZero_eq, ← Residue.isZero_eq]
  rfl

/-- Both differences of a sum are zero where the quotients of the two points agree. -/
lemma Holds.differences_eq_zero_iff (hp : p.Holds t) (hq : q.Holds u) :
    q.x.montMul p.z.montSquare - p.x.montMul q.z.montSquare = .zero ∧
        (q.y.montMul p.z.montSquare).montMul p.z -
          (p.y.montMul q.z.montSquare).montMul q.z = .zero ↔
      t 0 * u 2 ^ 2 = u 0 * t 2 ^ 2 ∧ t 1 * u 2 ^ 3 = u 1 * t 2 ^ 3 := by
  have hh := (hq.x.montMul hp.z.montSquare).sub (hp.x.montMul hq.z.montSquare)
  have hr := ((hq.y.montMul hp.z.montSquare).montMul hp.z).sub
    ((hp.y.montMul hq.z.montSquare).montMul hq.z)
  rw [hh.eq_zero_iff, hr.eq_zero_iff, sub_eq_zero, sub_eq_zero, mul_assoc, mul_assoc, ← pow_succ,
    ← pow_succ, eq_comm, eq_comm (b := t 1 * u 2 ^ 3)]

/-- The sum of any two points: a point and its opposite, equal points and the point at infinity
among them. -/
theorem Represents.add (hp : p.Represents P) (hq : q.Represents Q) :
    (p + q).Represents (P + Q) := by
  rw [add_eq]
  by_cases hqz : q.z = .zero
  · rwa [if_pos hqz, hq.z_eq_zero_iff.mp hqz, add_zero]
  by_cases hpz : p.z = .zero
  · rwa [if_neg hqz, if_pos hpz, hp.z_eq_zero_iff.mp hpz, zero_add]
  rw [if_neg hqz, if_neg hpz]
  obtain ⟨t, ht, hct, rfl⟩ := hp.exists_holds
  obtain ⟨u, hu, hcu, rfl⟩ := hq.exists_holds
  have hzt : t 2 ≠ 0 := fun h => hpz (ht.z.eq_zero_iff.mpr h)
  have hzu : u 2 ≠ 0 := fun h => hqz (hu.z.eq_zero_iff.mpr h)
  split_ifs with h
  · have heq := (toPoint_eq_iff hct hcu hzt hzu).mpr ((ht.differences_eq_zero_iff hu).mp h)
    rw [← heq]
    exact hp.double
  · obtain ⟨hcurve, hpoint⟩ :=
      toPoint_chord hct hcu hzt hzu (mt (ht.differences_eq_zero_iff hu).mpr h)
    exact (ht.chordSum hu).represents hcurve hpoint

theorem Represents.neg (hp : p.Represents P) : (-p).Represents (-P) := by
  obtain ⟨t, ht, hc, rfl⟩ := hp.exists_holds
  obtain ⟨hcurve, hpoint⟩ := toPoint_neg hc
  have hn : (-p).Holds ![t 0, -t 1, t 2] := ⟨ht.x, ht.y.neg, ht.z⟩
  exact hn.represents hcurve hpoint

theorem Represents.sub (hp : p.Represents P) (hq : q.Represents Q) :
    (p - q).Represents (P - Q) := by
  rw [sub_eq_add_neg]
  exact hp.add hq.neg

theorem Represents.negateIf (hp : p.Represents P) (c : Prop) [Decidable c] :
    (p.negateIf (if c then Mask.yes else 0)).Represents (if c then -P else P) := by
  by_cases hc : c
  · rw [if_pos hc, if_pos hc, negateIf_yes]
    exact hp.neg
  · rwa [if_neg hc, if_neg hc, negateIf_zero]

theorem Represents.replaceIf (hp : p.Represents P) (hq : q.Represents Q) (c : Prop)
    [Decidable c] :
    (p.replaceIf q (if c then Mask.yes else 0)).Represents (if c then Q else P) := by
  rw [replaceIf_ite]
  by_cases hc : c
  · rwa [if_pos hc, if_pos hc]
  · rwa [if_neg hc, if_neg hc]

/-- The test of equality compares what the points stand for, on the curve or not. -/
theorem Holds.equals_eq (hp : p.Holds t) (hq : q.Holds u) :
    p.equals q = if SamePoint t u then Mask.yes else 0 := by
  have hx := (hp.x.montMul hq.z.montSquare).eq_iff (hq.x.montMul hp.z.montSquare)
  have hy := ((hp.y.montMul hq.z.montSquare).montMul hq.z).eq_iff
    ((hq.y.montMul hp.z.montSquare).montMul hp.z)
  simp only [equals, isInfinity, Residue.isZero_eq, Residue.equals_eq, Mask.not_ite, Mask.and_ite,
    Mask.or_ite]
  refine if_congr ?_ rfl rfl
  simp only [hp.z.eq_zero_iff, hq.z.eq_zero_iff, hx, hy, SamePoint, and_assoc, mul_assoc,
    ← pow_succ, ne_eq]

/-- The test of equality decides equality in the group. -/
theorem Represents.equals_iff (hp : p.Represents P) (hq : q.Represents Q) :
    p.equals q = Mask.yes ↔ P = Q := by
  obtain ⟨t, ht, hct, rfl⟩ := hp.exists_holds
  obtain ⟨u, hu, hcu, rfl⟩ := hq.exists_holds
  rw [ht.equals_eq hu, Mask.ite_eq_yes_iff, toPoint_eq_iff_samePoint hct hcu]

end JacobianPoint

end KoblitzCurve
