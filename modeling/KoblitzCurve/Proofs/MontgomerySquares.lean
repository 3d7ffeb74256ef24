import KoblitzCurve.Proofs.MontgomeryDomain

/-! Squares in the Montgomery domain, and squares taken over and over. The shorter way to a square
forms each product of two different words once and doubles their sum; it gives the words that the
product of the number with itself gives. A run of squarings is then a run of such products. -/
namespace KoblitzCurve.Residue
open WideLimbs

theorem montSquares_eq_iterate (a : FieldElement) (n : ℕ) :
    a.montSquares n = (fun b : FieldElement => b.montMul b)^[n] a := by
  induction n generalizing a with
  | zero => rfl
  | succ n ih => rw [montSquares, ih, montSquare_eq, Function.iterate_succ_apply]

/-- Each squaring also squares what was divided by before, and divides by 2^256 once more. -/
theorem toZMod_montSquares (a : FieldElement) (n : ℕ) :
    (a.montSquares n).toZMod = a.toZMod ^ 2 ^ n * (2 ^ (256 * (2 ^ n - 1)))⁻¹ := by
  obtain ⟨k, hk⟩ : ∃ k, 2 ^ n = k + 1 := Nat.exists_eq_add_one.mpr (Nat.two_pow_pos n)
  rw [toZMod_eq_element, element_montSquares, element, hk, Nat.add_sub_cancel, pow_mul,
    div_pow, pow_succ (2 ^ 256), ← div_div, div_mul_cancel₀ _ radix_ne_zero, div_eq_mul_inv]

lemma reduced_montSquares_of_pos (a : FieldElement) {n : ℕ} (hn : 0 < n) :
    (a.montSquares n).Reduced := by
  cases n with
  | zero => exact absurd hn (lt_irrefl 0)
  | succ n => exact reduced_montSquares (reduced_montSquare a) n

/-- The square of four words is exact by either way to it. Squaring `n` times over is `n` products of a
number with itself, and gives the only number below p in the class of its power of exponent 2^n,
divided by 2^256 once for each factor but one. Without any squaring the number stays as it is. -/
theorem montSquares_exact (a : FieldElement) :
    square a.limbs = product a.limbs a.limbs ∧
    (square a.limbs).toNat = a.toNat ^ 2 ∧
    (crossProducts a.limbs).twice.toNat = 2 * (crossProducts a.limbs).toNat ∧
    a.montSquare = a.montMul a ∧
    (∀ n, a.montSquares n = (fun b : FieldElement => b.montMul b)^[n] a) ∧
    a.montSquares 0 = a ∧
    ∀ n, 0 < n → ∀ r : ℕ, r = (a.montSquares n).toNat ↔ r < fieldModulus.toNat ∧
      (r : BaseField) = (a.toNat : BaseField) ^ 2 ^ n * (2 ^ (256 * (2 ^ n - 1)))⁻¹ := by
  refine ⟨square_eq_product _, ?_, twice_crossProducts_toNat _, montSquare_eq a,
    montSquares_eq_iterate a, rfl, fun n hn => ?_⟩
  · rw [square_toNat, sq]
    rfl
  · exact eq_toNat_iff (reduced_montSquares_of_pos a hn) (toZMod_montSquares a n)

/-- The largest number of 256 bits, which is not reduced: its square, left as it is, and squared
twice over. -/
theorem montSquares_exact_max :
    (square ⟨-1, -1, -1, -1⟩).toNat = (2 ^ 256 - 1) ^ 2 ∧
      (⟨⟨-1, -1, -1, -1⟩⟩ : FieldElement).montSquares 0 = ⟨⟨-1, -1, -1, -1⟩⟩ ∧
      ((⟨⟨-1, -1, -1, -1⟩⟩ : FieldElement).montSquares 2).toNat < fieldModulus.toNat ∧
      (((⟨⟨-1, -1, -1, -1⟩⟩ : FieldElement).montSquares 2).toNat : BaseField) =
        ((2 ^ 256 - 1 : ℕ) : BaseField) ^ 2 ^ 2 * (2 ^ (256 * (2 ^ 2 - 1)))⁻¹ := by
  obtain ⟨-, hsquare, -, -, -, hzero, hclass⟩ := montSquares_exact ⟨⟨-1, -1, -1, -1⟩⟩
  have hmax : (⟨⟨-1, -1, -1, -1⟩⟩ : FieldElement).toNat = 2 ^ 256 - 1 := by decide +kernel
  rw [hmax] at hsquare hclass
  exact ⟨hsquare, hzero, (hclass 2 two_pos _).mp rfl⟩

end KoblitzCurve.Residue
