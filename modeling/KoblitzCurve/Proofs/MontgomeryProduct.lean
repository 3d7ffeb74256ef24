import KoblitzCurve.Proofs.MontgomeryDomain

/-! Products in the Montgomery domain as numbers. The products of words are summed up without loss,
the division by 2^256 is exact, and its quotient is below 2 p for any two factors, those above p
among them. One subtraction of p then leaves the only number below p in the class of the product. -/
namespace KoblitzCurve.Residue
open Montgomery WideLimbs

/-- For any two factors the product is the number below p whose class is theirs divided by 2^256. No
carry is lost on the way to it, neither from a sum of products of words nor from the division. -/
theorem montMul_exact (a b : FieldElement) :
    (∀ r : ℕ, r = (a.montMul b).toNat ↔ r < fieldModulus.toNat ∧
      (r : BaseField) = (a.toNat : BaseField) * (b.toNat : BaseField) * (2 ^ 256)⁻¹) ∧
    (∀ i, (((offDiagonal a.limbs b.limbs).take i).foldl .add (diagonal a.limbs b.limbs)).toNat =
      (diagonal a.limbs b.limbs).toNat +
        (((offDiagonal a.limbs b.limbs).take i).map WideLimbs.toNat).sum) ∧
    (product a.limbs b.limbs).toNat = a.toNat * b.toNat ∧
    (∃ f < 2 ^ 256, 2 ^ 256 * (divide (product a.limbs b.limbs)).toNat =
      a.toNat * b.toNat + f * fieldModulus.toNat) ∧
    (divide (product a.limbs b.limbs)).toNat < 2 * fieldModulus.toNat ∧
    (a.montMul b).toNat =
      if (divide (product a.limbs b.limbs)).toNat < fieldModulus.toNat then
        (divide (product a.limbs b.limbs)).toNat
      else (divide (product a.limbs b.limbs)).toNat - fieldModulus.toNat := by
  refine ⟨eq_toNat_iff (reduced_montMul a b) ?_, product_partial_toNat _ _, product_toNat _ _,
    montMul_toNat_eq a b, divide_product_lt a b, ofWide_toNat _⟩
  rw [eq_mul_inv_iff_mul_eq₀ radix_ne_zero]
  exact toZMod_montMul a b

-- a product beyond 2^256 p, the dividends below which have a quotient below 2 p whatever they are
example : 2 ^ 256 * fieldModulus.toNat <
    (product ⟨-1, -1, -1, -1⟩ ⟨-1, -1, -1, -1⟩).toNat := by decide +kernel

end KoblitzCurve.Residue
