import KoblitzCurve.Proofs.GeneratorMultiples
import KoblitzCurve.Proofs.GroupOrder

/-! Multiples of the generator follow the arithmetic of scalars: as the generator has the group
order as its order, scalars of one class and no others have the same multiple, and sums, opposites
and products of scalars go over to those of the multiples. -/
namespace KoblitzCurve.JacobianPoint
variable {p q : JacobianPoint} {P : CurvePoint}

lemma mod_nsmul_generator (n : ℕ) :
    (n % groupOrder.toNat) • generator.toCurve = n • generator.toCurve :=
  (nsmul_generator_eq_iff _ _).mpr (Nat.mod_modEq n groupOrder.toNat)

lemma mulGenerator_represents_toNat (k : Scalar) :
    (mulGenerator .full k).Represents (k.toNat • generator.toCurve) := by
  rw [← mod_nsmul_generator]
  exact mulGenerator_represents k

lemma mul_represents_mul_nsmul {n : ℕ} (hp : p.Represents (n • generator.toCurve)) (k : Scalar) :
    (p.mul k).Represents ((n * k.toNat) • generator.toCurve) := by
  have h := hp.mul k
  rwa [nsmul_left_comm, mod_nsmul_generator, nsmul_left_comm, ← mul_nsmul] at h

lemma add_modEq {a b : Scalar} (ha : a.Reduced) :
    (a + b).toNat ≡ a.toNat + b.toNat [MOD groupOrder.toNat] := by
  rw [← ZMod.natCast_eq_natCast_iff, Nat.cast_add]
  exact Residue.toZMod_add (ha.add_lt b)

lemma neg_nsmul_generator {a : Scalar} (ha : a.Reduced) :
    (-a).toNat • generator.toCurve = -(a.toNat • generator.toCurve) := by
  apply eq_neg_of_add_eq_zero_left
  rw [← add_nsmul, ← zero_nsmul generator.toCurve, nsmul_generator_eq_iff,
    ← ZMod.natCast_eq_natCast_iff, Nat.cast_add, Nat.cast_zero]
  have h := Residue.toZMod_neg (Nat.le_of_lt ha)
  rw [Residue.toZMod, Residue.toZMod] at h
  rw [h, neg_add_cancel]

/-- From scalars modulo the group order into the points, multiples of the generator are an
injective homomorphism, and multiples of these are products of scalars. -/
theorem mulGenerator_homomorphism :
    (∀ a b : Scalar, (mulGenerator .full a).equals (mulGenerator .full b) = Mask.yes ↔
      a.toNat ≡ b.toNat [MOD groupOrder.toNat]) ∧
    (∀ a b : Scalar, ((mulGenerator .full a).mul b).equals
      (mulGenerator .full (.ofNat (a.toNat * b.toNat % groupOrder.toNat))) = Mask.yes) ∧
    (∀ a b : Scalar, ((mulGenerator .full a).mul b).equals ((mulGenerator .full b).mul a) =
      Mask.yes) ∧
    (∀ a b : Scalar, a.Reduced → b.Reduced →
      (mulGenerator .full a + mulGenerator .full b).equals (mulGenerator .full (a + b)) =
        Mask.yes) ∧
    (∀ a : Scalar, a.Reduced →
      (mulGenerator .full (-a)).equals (-mulGenerator .full a) = Mask.yes) := by
  have hgen := mulGenerator_represents_toNat
  refine ⟨fun a b => ?_, fun a b => ?_, fun a b => ?_, fun a b ha _ => ?_, fun a ha => ?_⟩
  · rw [(hgen a).equals_iff (hgen b), nsmul_generator_eq_iff]
  · have hlt : a.toNat * b.toNat % groupOrder.toNat < 2 ^ 256 :=
      (Nat.mod_lt _ (Residue.modulus_pos _)).trans groupOrder.toNat_lt
    have hproduct := hgen (.ofNat (a.toNat * b.toNat % groupOrder.toNat))
    rw [Residue.ofNat_toNat hlt, mod_nsmul_generator] at hproduct
    exact ((mul_represents_mul_nsmul (hgen a) b).equals_iff hproduct).mpr rfl
  · have hba := mul_represents_mul_nsmul (hgen b) a
    rw [Nat.mul_comm] at hba
    exact ((mul_represents_mul_nsmul (hgen a) b).equals_iff hba).mpr rfl
  · rw [((hgen a).add (hgen b)).equals_iff (hgen (a + b)), ← add_nsmul, nsmul_generator_eq_iff]
    exact (add_modEq ha).symm
  · exact ((hgen (-a)).equals_iff (hgen a).neg).mpr (neg_nsmul_generator ha)

theorem mulGenerator_homomorphism_neg_one :
    (-.one : Scalar).Reduced ∧ (.one : Scalar).Reduced ∧
      (mulGenerator .full (-.one) + mulGenerator .full .one).equals
        (mulGenerator .full (-.one + .one)) = Mask.yes ∧
      (mulGenerator .full (- -.one)).equals (-mulGenerator .full (-.one)) = Mask.yes := by
  obtain ⟨-, -, -, hadd, hneg⟩ := mulGenerator_homomorphism
  have hone : (.one : Scalar).Reduced := by decide
  exact ⟨hone.neg, hone, hadd _ _ hone.neg hone, hneg _ hone.neg⟩

end KoblitzCurve.JacobianPoint
