import KoblitzCurve.Proofs.ResidueArithmetic

/-! Halves modulo an odd number. A number or, where it is odd, its sum with the modulus is divided by
two without remainder, by a sum of two halves that stays below 2^256 for every modulus. Halving
undoes doubling and doubling undoes halving, on reduced numbers, word for word. -/
namespace KoblitzCurve

namespace Modulus

/-- The largest admissible modulus, 2^256 - 1. -/
def greatest : Modulus := ⟨⟨-1, -1, -1, -1⟩, by decide, by decide⟩

end Modulus

namespace Residue
variable {m : Modulus} {a : Residue m}

/-- An odd number that is not reduced has its half halfway between it and the modulus. -/
theorem reduced_half_iff (a : Residue m) : a.half.Reduced ↔ a.toNat % 2 = 0 ∨ a.Reduced := by
  have htwice := two_mul_half_toNat a
  have ha := a.toNat_lt
  have hm := m.le_toNat
  rw [Reduced, Reduced]
  split_ifs at htwice with heven
  · exact iff_of_true (by omega) (Or.inl heven)
  · rw [or_iff_right heven]
    omega

theorem two_mul_half_modEq (a : Residue m) : 2 * a.half.toNat ≡ a.toNat [MOD m.toNat] := by
  rw [two_mul_half_toNat]
  split_ifs
  · rfl
  · exact Nat.add_mod_right _ _

namespace Reduced

lemma double_toNat (ha : a.Reduced) :
    a.double.toNat = if 2 * a.toNat < m.toNat then 2 * a.toNat else 2 * a.toNat - m.toNat := by
  rw [Residue.double, add_toNat (ha.add_lt a), ← two_mul]

theorem double_half (ha : a.Reduced) : a.half.double = a := by
  have htwice := two_mul_half_toNat a
  apply toNat_injective
  rw [ha.half.double_toNat]
  rw [Reduced] at ha
  -- an even number is twice its half, an odd one less the modulus
  split_ifs at htwice ⊢ <;> omega

theorem half_double (ha : a.Reduced) : a.double.half = a := by
  have hodd := m.toNat_odd
  have htwice := two_mul_half_toNat a.double
  apply toNat_injective
  rw [ha.double_toNat] at htwice
  rw [Reduced] at ha
  -- the double is odd just where the modulus was subtracted from it
  split_ifs at htwice <;> omega

end Reduced

/-- Half of the modulus and the sum of a halving carry nothing out; the half is exact, and reduced
unless the number is odd and not reduced. Doubling is the inverse on reduced numbers. -/
theorem half_exact (a : Residue m) :
    m.limbs.halve.addCarry .one false = (m.halfUp, false) ∧
    2 * m.halfUp.toNat = m.toNat + 1 ∧
    a.limbs.halve.addCarry (m.halfUp.keep (0 - (a.limbs.l0 &&& 1))) false =
      (a.half.limbs, false) ∧
    (a.half.toNat = if a.toNat % 2 = 0 then a.toNat / 2 else (a.toNat + m.toNat) / 2) ∧
    (2 * a.half.toNat = if a.toNat % 2 = 0 then a.toNat else a.toNat + m.toNat) ∧
    2 * a.half.toNat ≡ a.toNat [MOD m.toNat] ∧
    (a.half.Reduced ↔ a.toNat % 2 = 0 ∨ a.toNat < m.toNat) ∧
    (a.Reduced → a.half.Reduced ∧ a.double.Reduced ∧ a.half.double = a ∧ a.double.half = a) :=
  ⟨m.halfUp_addCarry, m.halfUp_toNat, half_addCarry a, half_toNat a, two_mul_half_toNat a,
    two_mul_half_modEq a, reduced_half_iff a,
    fun ha => ⟨ha.half, ha.double, ha.double_half, ha.half_double⟩⟩

/-- At the largest modulus: the modulus itself, whose two halves sum up to 2^256 - 1, and the largest
odd number below it. -/
theorem half_exact_greatest :
    (modulus : Residue .greatest).half.toNat = 2 ^ 256 - 1 ∧
      ¬(modulus : Residue .greatest).half.Reduced ∧
      Modulus.greatest.halfUp.toNat = 2 ^ 255 ∧
      (⟨⟨-3, -1, -1, -1⟩⟩ : Residue .greatest).Reduced ∧
      (⟨⟨-3, -1, -1, -1⟩⟩ : Residue .greatest).half.toNat = 2 ^ 256 - 2 ∧
      (⟨⟨-3, -1, -1, -1⟩⟩ : Residue .greatest).half.double = ⟨⟨-3, -1, -1, -1⟩⟩ ∧
      (⟨⟨-3, -1, -1, -1⟩⟩ : Residue .greatest).double.half = ⟨⟨-3, -1, -1, -1⟩⟩ := by
  obtain ⟨-, hup, -, hvalue, -, -, hiff, -⟩ := half_exact (modulus : Residue .greatest)
  obtain ⟨-, -, -, -, htwice, -, -, hinverse⟩ :=
    half_exact (⟨⟨-3, -1, -1, -1⟩⟩ : Residue .greatest)
  have hmodulus : (modulus : Residue .greatest).toNat = 2 ^ 256 - 1 := by decide +kernel
  have hgreatest : Modulus.greatest.toNat = 2 ^ 256 - 1 := hmodulus
  have hbelow : (⟨⟨-3, -1, -1, -1⟩⟩ : Residue .greatest).toNat = 2 ^ 256 - 3 := by decide +kernel
  have hred : (⟨⟨-3, -1, -1, -1⟩⟩ : Residue .greatest).Reduced := by decide +kernel
  obtain ⟨-, -, hdouble, hhalf⟩ := hinverse hred
  rw [hmodulus, hgreatest] at hvalue hiff
  rw [hbelow, hgreatest] at htwice
  rw [hgreatest] at hup
  refine ⟨?_, ?_, ?_, hred, ?_, hdouble, hhalf⟩
  · rw [hvalue]
    norm_num
  · rw [hiff]
    norm_num
  · omega
  · norm_num at htwice
    omega

end Residue

end KoblitzCurve
