import Mathlib.Algebra.BigOperators.Group.Finset.Basic
import Mathlib.FieldTheory.Finite.Basic
import Mathlib.Tactic.NormNum.BigOperators
import KoblitzCurve.Proofs.MontgomeryDomain

/-! The inverse by an addition chain. Each number of the chain is a power of the first one, with
an exponent that the operations add and double; the last exponent is p - 2. -/
namespace KoblitzCurve.Residue

/-- The element of `a` is the power of exponent `i` of the element of `x`. -/
def IsPower (x a : FieldElement) (i : ℕ) : Prop := a.element = x.element ^ i

namespace IsPower
variable {x a b : FieldElement} {i j : ℕ}

lemma self (x : FieldElement) : IsPower x x 1 := (pow_one _).symm

lemma of_eq (ha : IsPower x a i) (h : i = j) : IsPower x a j := h ▸ ha

theorem montMul (ha : IsPower x a i) (hb : IsPower x b j) : IsPower x (a.montMul b) (i + j) := by
  rw [IsPower, element_montMul, ha, hb, pow_add]

theorem montSquare (ha : IsPower x a i) : IsPower x a.montSquare (i * 2) := by
  rw [IsPower, element_montSquare, ha, pow_mul]

theorem montSquares (ha : IsPower x a i) (n : ℕ) : IsPower x (a.montSquares n) (i * 2 ^ n) := by
  rw [IsPower, element_montSquares, ha, pow_mul]

lemma shifts (ha : IsPower x a i) (hb : IsPower x b j) (n : ℕ) :
    IsPower x (montInverse.shifts a b n) (i + j * ∑ t ∈ Finset.range n, 2 ^ (32 * (t + 1))) := by
  induction n generalizing a b i j with
  | zero => simpa [montInverse.shifts] using ha
  | succ n ih =>
    have h := ih (ha.montMul (hb.montSquares 32)) (hb.montSquares 32)
    have hsum : ∑ t ∈ Finset.range n, 2 ^ (32 * (t + 1 + 1)) =
        2 ^ 32 * ∑ t ∈ Finset.range n, 2 ^ (32 * (t + 1)) := by
      rw [Finset.mul_sum]
      exact Finset.sum_congr rfl fun t _ => by ring
    refine h.of_eq ?_
    rw [Finset.sum_range_succ', hsum]
    ring

end IsPower

/-- The chain computes the power of exponent p - 2. -/
theorem isPower_montInverse (x : FieldElement) :
    IsPower x x.montInverse (fieldModulus.toNat - 2) := by
  have h1 := IsPower.self x
  have h2 := h1.montSquare
  have h3 := h2.montMul h1
  have h15 := (h3.montSquares 2).montMul h3
  have h30 := h15.montSquare
  have h45 := h30.montMul h15
  have h255 := (h30.montSquares 3).montMul h15
  have hones16 := (h255.montSquares 8).montMul h255
  have h1022 := (h255.montSquare.montMul h1).montSquare
  have hones20 := (hones16.montSquares 4).montMul h15
  have hones22 := (hones20.montSquares 2).montMul h3
  have hhigh22 := hones22.montSquares 10
  have hlow := h45.montMul hhigh22
  have heven32 := hhigh22.montMul h1022
  have heven64 := heven32.montSquares 32
  have h := (hlow.montMul heven64).shifts (heven64.montMul (heven32.montMul h2)) 6
  refine h.of_eq ?_
  rw [fieldModulus_toNat]
  norm_num [Finset.sum_range_succ]

theorem element_montInverse (x : FieldElement) : x.montInverse.element = x.element⁻¹ := by
  rw [isPower_montInverse x]
  rcases eq_or_ne x.element 0 with h | h
  · rw [h, inv_zero, zero_pow (by rw [fieldModulus_toNat]; norm_num)]
  · have hfermat := ZMod.pow_card_sub_one_eq_one h
    apply eq_inv_of_mul_eq_one_left
    rw [← pow_succ, ← hfermat]
    congr 1

lemma reduced_shifts {r : FieldElement} (hr : r.Reduced) (a : FieldElement) (n : ℕ) :
    (montInverse.shifts r a n).Reduced := by
  induction n generalizing r a with
  | zero => exact hr
  | succ n ih => exact ih (reduced_montMul r _) _

theorem reduced_montInverse (x : FieldElement) : x.montInverse.Reduced := by
  rw [montInverse]
  apply reduced_shifts
  apply reduced_montMul

theorem Holds.montInverse {x : FieldElement} {v : BaseField} (hx : x.Holds v) :
    x.montInverse.Holds v⁻¹ :=
  ⟨reduced_montInverse x, by rw [element_montInverse, hx.element_eq]⟩

/-- The power of exponent `n` in the Montgomery domain, by one product after the other. -/
def montPower (x : FieldElement) : ℕ → FieldElement
  | 0 => montOne
  | n + 1 => (montPower x n).montMul x

theorem montPower_holds (x : FieldElement) (n : ℕ) : (x.montPower n).Holds (x.element ^ n) := by
  induction n with
  | zero =>
    rw [pow_zero]
    exact Holds.montOne
  | succ n ih =>
    refine ⟨reduced_montMul _ _, ?_⟩
    rw [montPower, element_montMul, ih.element_eq, pow_succ]

/-- Words and all, the chain gives what p - 2 products one after the other would give. -/
theorem montInverse_eq_montPower (x : FieldElement) :
    x.montInverse = x.montPower (fieldModulus.toNat - 2) := by
  have hchain : x.montInverse.Holds (x.element ^ (fieldModulus.toNat - 2)) :=
    ⟨reduced_montInverse x, isPower_montInverse x⟩
  exact (hchain.eq_iff (montPower_holds x _)).mpr rfl

lemma element_eq_zero_iff (x : FieldElement) : x.element = 0 ↔ fieldModulus.toNat ∣ x.toNat := by
  rw [element, div_eq_zero_iff, or_iff_left radix_ne_zero, toZMod, ZMod.natCast_eq_zero_iff]

/-- Of the numbers of 256 bits only zero and p itself are multiples of p. -/
lemma dvd_toNat_iff (x : FieldElement) :
    fieldModulus.toNat ∣ x.toNat ↔ x.toNat = 0 ∨ x.toNat = fieldModulus.toNat := by
  have hlt := x.toNat_lt
  have hle := fieldModulus.le_toNat
  constructor
  · rintro ⟨k, hk⟩
    have hk2 : k < 2 := by
      by_contra hge
      have := Nat.mul_le_mul_left fieldModulus.toNat (Nat.le_of_not_lt hge)
      omega
    interval_cases k
    · exact Or.inl hk
    · exact Or.inr (hk.trans (Nat.mul_one _))
  · rintro (h | h)
    · exact h ▸ Nat.dvd_zero _
    · exact h ▸ Nat.dvd_refl _

lemma mul_modEq_iff (m n : ℕ) : m * n ≡ 2 ^ 512 [MOD fieldModulus.toNat] ↔
    (m : BaseField) / 2 ^ 256 * (n / 2 ^ 256) = 1 := by
  rw [← ZMod.natCast_eq_natCast_iff, div_mul_div_comm,
    div_eq_one_iff_eq (mul_ne_zero radix_ne_zero radix_ne_zero), Nat.cast_mul, Nat.cast_pow,
    Nat.cast_two, ← pow_add]

lemma montMul_eq_montOne_iff (x r : FieldElement) :
    x.montMul r = montOne ↔ x.toNat * r.toNat ≡ 2 ^ 512 [MOD fieldModulus.toNat] := by
  have hproduct := (reduced_montMul x r).holds
  rw [hproduct.eq_iff Holds.montOne, element_montMul, mul_modEq_iff]
  rfl

lemma eq_montInverse_toNat_iff {x : FieldElement} (hx : ¬fieldModulus.toNat ∣ x.toNat) (r : ℕ) :
    r = x.montInverse.toNat ↔
      r < fieldModulus.toNat ∧ x.toNat * r ≡ 2 ^ 512 [MOD fieldModulus.toNat] := by
  rw [← element_eq_zero_iff] at hx
  have hclass : x.montInverse.toZMod = x.element⁻¹ * 2 ^ 256 := by
    rw [toZMod_eq_element, element_montInverse]
  rw [eq_toNat_iff (reduced_montInverse x) hclass, mul_modEq_iff, ← div_eq_iff radix_ne_zero,
    ← mul_eq_one_iff_eq_inv₀ hx, mul_comm]
  rfl

/-- The chain computes the power of exponent p - 2, which for any number that p does not divide is
the only one below p to give one in the domain with it. The inverse of zero is zero. -/
theorem montInverse_unique (x : FieldElement) :
    x.montInverse = x.montPower (fieldModulus.toNat - 2) ∧
    (∀ r : FieldElement, x.montMul r = montOne ↔
      x.toNat * r.toNat ≡ 2 ^ 512 [MOD fieldModulus.toNat]) ∧
    (¬fieldModulus.toNat ∣ x.toNat → x.montMul x.montInverse = montOne ∧
      ∀ r : ℕ, r = x.montInverse.toNat ↔
        r < fieldModulus.toNat ∧ x.toNat * r ≡ 2 ^ 512 [MOD fieldModulus.toNat]) ∧
    (fieldModulus.toNat ∣ x.toNat ↔ x.toNat = 0 ∨ x.toNat = fieldModulus.toNat) ∧
    (x.toNat = 0 ∨ x.toNat = fieldModulus.toNat → x.montInverse = zero) := by
  refine ⟨montInverse_eq_montPower x, montMul_eq_montOne_iff x, fun hx => ⟨?_, ?_⟩,
    dvd_toNat_iff x, fun hx => ?_⟩
  · rw [montMul_eq_montOne_iff]
    exact ((eq_montInverse_toNat_iff hx _).mp rfl).2
  · exact eq_montInverse_toNat_iff hx
  · rw [← dvd_toNat_iff, ← element_eq_zero_iff] at hx
    rw [(reduced_montInverse x).holds.eq_zero_iff, element_montInverse, hx, inv_zero]

/-- A number above p that has an inverse, and p itself. -/
theorem montInverse_unique_max :
    ¬fieldModulus.toNat ∣ (⟨⟨-1, -1, -1, -1⟩⟩ : FieldElement).toNat ∧
      (⟨⟨-1, -1, -1, -1⟩⟩ : FieldElement).montMul
        (⟨⟨-1, -1, -1, -1⟩⟩ : FieldElement).montInverse = montOne ∧
      (2 ^ 256 - 1) * (⟨⟨-1, -1, -1, -1⟩⟩ : FieldElement).montInverse.toNat ≡ 2 ^ 512
        [MOD fieldModulus.toNat] ∧
      (modulus : FieldElement).toNat = fieldModulus.toNat ∧
      (modulus : FieldElement).montInverse = zero := by
  obtain ⟨-, -, hinverse, -, -⟩ := montInverse_unique ⟨⟨-1, -1, -1, -1⟩⟩
  obtain ⟨-, -, -, -, hzero⟩ := montInverse_unique modulus
  have hndvd : ¬fieldModulus.toNat ∣ (⟨⟨-1, -1, -1, -1⟩⟩ : FieldElement).toNat := by
    decide +kernel
  have hmax : (⟨⟨-1, -1, -1, -1⟩⟩ : FieldElement).toNat = 2 ^ 256 - 1 := by decide +kernel
  have hproduct := ((hinverse hndvd).2 _).mp rfl
  rw [hmax] at hproduct
  exact ⟨hndvd, (hinverse hndvd).1, hproduct.2, rfl, hzero (Or.inr rfl)⟩

end KoblitzCurve.Residue
