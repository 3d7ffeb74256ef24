import KoblitzCurve.Proofs.MontgomeryDomain

/-! The division by 2^256 modulo p, for any number of eight words. With the words still to be read,
the window holds the number and a multiple of p at every stage, so that the quotient is exact. It is
below 2^256 + p, and one subtraction of p brings it back to four words. -/
namespace KoblitzCurve

namespace Montgomery

/-- The window after the first `i` steps. -/
def windowAfter (t : WideLimbs) (i : ℕ) : Window :=
  (t.high.toList.take i).foldl step ⟨t.low, false⟩

/-- The factor of p in what the first `i` steps have added. -/
def factorAfter (t : WideLimbs) (i : ℕ) : ℕ :=
  wordNumber (multipliers ⟨t.low, false⟩ (t.high.toList.take i))

lemma windowAfter_succ (t : WideLimbs) {i : ℕ} (hi : i < t.high.toList.length) :
    windowAfter t (i + 1) = step (windowAfter t i) t.high.toList[i] := by
  rw [windowAfter, ← List.take_append_getElem hi, List.foldl_concat, ← windowAfter]

lemma factorAfter_lt (t : WideLimbs) {i : ℕ} (hi : i ≤ t.high.toList.length) :
    factorAfter t i < 2 ^ (64 * i) := by
  have h := wordNumber_lt (multipliers ⟨t.low, false⟩ (t.high.toList.take i))
  rwa [multipliers_length, List.length_take_of_le hi] at h

/-- Words that no step has read yet stand above the window, and its carry counts with the lowest of
them. -/
theorem windowAfter_toNat (t : WideLimbs) {i : ℕ} (hi : i ≤ t.high.toList.length) :
    2 ^ (64 * i) * ((windowAfter t i).toNat + 2 ^ 256 * wordNumber (t.high.toList.drop i)) =
      t.toNat + factorAfter t i * fieldModulus.toNat := by
  have hsteps := foldl_step_toNat ⟨t.low, false⟩ (t.high.toList.take i)
  have hwords := wordNumber_append (t.high.toList.take i) (t.high.toList.drop i)
  rw [List.take_append_drop, wordNumber_toList, List.length_take_of_le hi] at hwords
  rw [← windowAfter, ← factorAfter, Window.toNat_clear, List.length_take_of_le hi] at hsteps
  rw [WideLimbs.toNat, hwords]
  linear_combination hsteps

/-- No step drops anything but a zero or loses a carry. With the words still to be read the window
holds the number and what the steps have added, and the last window is the quotient. -/
structure ExactDivision (t : WideLimbs) : Prop where
  dropped : ∀ i, (Word.mulAdd (windowAfter t i).multiplier fieldModulus.limbs.l0
    (windowAfter t i).limbs.l0 0).low = 0
  advance : ∀ i (hi : i < t.high.toList.length), 2 ^ 64 * (windowAfter t (i + 1)).toNat =
    (windowAfter t i).toNat + 2 ^ 256 * t.high.toList[i].toNat +
      (windowAfter t i).multiplier.toNat * fieldModulus.toNat
  stage : ∀ i ≤ 4, factorAfter t i < 2 ^ (64 * i) ∧
    2 ^ (64 * i) * ((windowAfter t i).toNat + 2 ^ 256 * wordNumber (t.high.toList.drop i)) =
      t.toNat + factorAfter t i * fieldModulus.toNat
  last : divide t = windowAfter t 4
  quotient : ∃ f < 2 ^ 256, 2 ^ 256 ∣ t.toNat + f * fieldModulus.toNat ∧
    (divide t).carry.toNat * 2 ^ 256 + (divide t).limbs.toNat =
      (t.toNat + f * fieldModulus.toNat) / 2 ^ 256
  quotient_lt : (divide t).toNat < 2 ^ 256 + fieldModulus.toNat

theorem exactDivision (t : WideLimbs) : ExactDivision t where
  dropped i := (windowAfter t i).dropped_eq_zero
  advance i hi := by
    rw [windowAfter_succ t hi]
    exact step_toNat _ _
  stage i hi := ⟨factorAfter_lt t hi, windowAfter_toNat t hi⟩
  last := rfl
  quotient := by
    obtain ⟨f, hf, h⟩ := divide_toNat t
    refine ⟨f, hf, Dvd.intro _ h, ?_⟩
    rw [← h, Nat.mul_div_cancel_left _ (by decide), Window.toNat, Nat.add_comm, Nat.mul_comm]
  quotient_lt := divide_toNat_lt t

lemma divide_toNat_lt_two_mul {t : WideLimbs} (h : t.toNat < fieldModulus.toNat * 2 ^ 256) :
    (divide t).toNat < 2 * fieldModulus.toNat := by
  obtain ⟨f, hf, hdivide⟩ := divide_toNat t
  have hadded : f * fieldModulus.toNat ≤ 2 ^ 256 * fieldModulus.toNat :=
    Nat.mul_le_mul_right _ hf.le
  omega

end Montgomery

namespace Residue
open Montgomery

/-- The division of any number of eight words is exact up to the last carry, and what it returns is
in the class of the number divided by 2^256. Below p 2^256 it returns the reduced number. -/
theorem ofWide_exact (t : WideLimbs) :
    ExactDivision t ∧
    ((ofWide t).toNat = if (divide t).toNat < fieldModulus.toNat then (divide t).toNat
      else (divide t).toNat - fieldModulus.toNat) ∧
    (ofWide t).toZMod = (t.toNat : BaseField) * (2 ^ 256)⁻¹ ∧
    (t.toNat < fieldModulus.toNat * 2 ^ 256 → (ofWide t).Reduced) := by
  refine ⟨exactDivision t, ofWide_toNat t, ?_, fun h => ?_⟩
  · rw [eq_mul_inv_iff_mul_eq₀ radix_ne_zero]
    exact toZMod_ofWide t
  · exact reduced_ofWide (divide_toNat_lt_two_mul h)

/-- The greatest number below p 2^256, which has a quotient beyond 2^256. -/
theorem ofWide_exact_greatest :
    (⟨⟨-1, -1, -1, -1⟩, ⟨0xFFFFFFFEFFFFFC2E, -1, -1, -1⟩⟩ : WideLimbs).toNat =
        fieldModulus.toNat * 2 ^ 256 - 1 ∧
      fieldModulus.toNat * 2 ^ 256 - 1 < fieldModulus.toNat * 2 ^ 256 ∧
      (divide ⟨⟨-1, -1, -1, -1⟩, ⟨0xFFFFFFFEFFFFFC2E, -1, -1, -1⟩⟩).carry = true ∧
      (divide ⟨⟨-1, -1, -1, -1⟩, ⟨0xFFFFFFFEFFFFFC2E, -1, -1, -1⟩⟩).toNat <
        2 ^ 256 + fieldModulus.toNat ∧
      (ofWide ⟨⟨-1, -1, -1, -1⟩, ⟨0xFFFFFFFEFFFFFC2E, -1, -1, -1⟩⟩).toZMod =
        ((fieldModulus.toNat * 2 ^ 256 - 1 : ℕ) : BaseField) * (2 ^ 256)⁻¹ ∧
      (ofWide ⟨⟨-1, -1, -1, -1⟩, ⟨0xFFFFFFFEFFFFFC2E, -1, -1, -1⟩⟩).Reduced := by
  obtain ⟨hdivision, -, hclass, hreduced⟩ :=
    ofWide_exact ⟨⟨-1, -1, -1, -1⟩, ⟨0xFFFFFFFEFFFFFC2E, -1, -1, -1⟩⟩
  have hvalue : (⟨⟨-1, -1, -1, -1⟩, ⟨0xFFFFFFFEFFFFFC2E, -1, -1, -1⟩⟩ : WideLimbs).toNat =
      fieldModulus.toNat * 2 ^ 256 - 1 := by decide +kernel
  have hlt : fieldModulus.toNat * 2 ^ 256 - 1 < fieldModulus.toNat * 2 ^ 256 := by decide +kernel
  rw [hvalue] at hclass hreduced
  exact ⟨hvalue, hlt, by decide +kernel, hdivision.quotient_lt, hclass, hreduced hlt⟩

-- above p 2^256 one subtraction may leave a number that is not reduced
example : ¬(ofWide ⟨fieldModulus.limbs, ⟨-1, -1, -1, -1⟩⟩).Reduced := by decide +kernel

end Residue

end KoblitzCurve
