import Mathlib.Data.Int.ModEq
import KoblitzCurve.Proofs.ResidueArithmetic

/-! The operands for which sums, differences and opposites are exact. Beyond them the one correction
by the modulus goes wrong, and the result is off by less than the modulus. -/
namespace KoblitzCurve

namespace Modulus

/-- What a mask of one leaves of the modulus: its lowest word is odd and its top word is full. -/
lemma keep_one_toNat (m : Modulus) :
    2 ^ 192 < (m.limbs.keep 1).toNat ∧ (m.limbs.keep 1).toNat < 2 ^ 193 := by
  have hbit (w : UInt64) : (1 &&& w).toNat ≤ 1 := by
    rw [UInt64.toNat_and]
    exact Nat.and_le_left
  have hodd : 1 &&& m.limbs.l0 = 1 := (UInt64.and_comm _ _).trans m.odd
  have hfull : 1 &&& m.limbs.l3 = 1 := by
    rw [m.top_full]
    rfl
  have h1 := hbit m.limbs.l1
  have h2 := hbit m.limbs.l2
  rw [Limbs.toNat, Limbs.keep, hodd, hfull]
  simp only [UInt64.toNat_one]
  omega

/-- The smallest admissible modulus, 2^256 - 2^192 + 1. -/
def least : Modulus := ⟨⟨1, 0, 0, 0xFFFFFFFFFFFFFFFF⟩, by decide, by decide⟩

end Modulus

namespace Residue
variable {m : Modulus}

lemma modEq_iff_toZMod (a : Residue m) (n : ℤ) :
    (a.toNat : ℤ) ≡ n [ZMOD m.toNat] ↔ a.toZMod = n := by
  rw [← ZMod.intCast_eq_intCast_iff, Int.cast_natCast, toZMod]

/-- Numbers that differ by a part of the modulus, and by multiples of it, are in different classes. -/
lemma not_modEq_of_offset {r s k e n : ℤ} (h : r + k * n = s + e) (hpos : 0 < e) (hlt : e < n) :
    ¬r ≡ s [ZMOD n] := by
  intro hclass
  have hdvd : n ∣ k * n - (s - r) := dvd_sub (dvd_mul_left n k) hclass.dvd
  have he : k * n - (s - r) = e := by omega
  rw [he] at hdvd
  exact absurd (Int.le_of_dvd hpos hdvd) (not_le.mpr hlt)

/-- The carry of a sum that no borrow takes up is a mask of one. -/
lemma add_toNat_of_carry {a b : Residue m} (h : 2 ^ 256 + m.toNat ≤ a.toNat + b.toNat) :
    (a + b).toNat + (2 ^ 256 + m.toNat) = a.toNat + b.toNat + (m.limbs.keep 1).toNat := by
  have hm := m.le_toNat
  have hkeep := m.keep_one_toNat
  have ha := a.toNat_lt
  have hb := b.toNat_lt
  have hmask : true.toUInt64 - false.toUInt64 = 1 := rfl
  rw [add_toNat_eq, decide_eq_true (by omega), decide_eq_false (by omega), hmask]
  omega

lemma sub_toNat_of_lt {a b : Residue m} (h : a.toNat + m.toNat < b.toNat) :
    (a - b).toNat + b.toNat = a.toNat + m.toNat + 2 ^ 256 := by
  have ha := a.toNat_lt
  have hb := b.toNat_lt
  rw [sub_toNat_eq, if_pos (by omega)]
  omega

theorem add_modEq_iff (a b : Residue m) :
    ((a + b).toNat : ℤ) ≡ a.toNat + b.toNat [ZMOD m.toNat] ↔
      a.toNat + b.toNat < 2 ^ 256 + m.toNat := by
  refine ⟨fun hclass => ?_, fun h => ?_⟩
  · by_contra h
    have hsum := add_toNat_of_carry (Nat.le_of_not_lt h)
    have hkeep := m.keep_one_toNat
    have hgap := m.gap_toNat
    have hm := m.le_toNat
    refine not_modEq_of_offset (k := 2) (e := (m.limbs.keep 1).toNat - m.gap.toNat) ?_ ?_ ?_ hclass
    all_goals omega
  · rw [modEq_iff_toZMod, toZMod_add h, Int.cast_add, Int.cast_natCast, Int.cast_natCast, toZMod,
      toZMod]

theorem sub_modEq_iff (a b : Residue m) :
    ((a - b).toNat : ℤ) ≡ a.toNat - b.toNat [ZMOD m.toNat] ↔ b.toNat ≤ a.toNat + m.toNat := by
  refine ⟨fun hclass => ?_, fun h => ?_⟩
  · by_contra h
    have hdifference := sub_toNat_of_lt (Nat.lt_of_not_le h)
    have hgap := m.gap_toNat
    have hlt := m.toNat_lt
    have hm := m.le_toNat
    refine not_modEq_of_offset (k := -2) (e := m.gap.toNat) ?_ ?_ ?_ hclass
    all_goals omega
  · rw [modEq_iff_toZMod, toZMod_sub h, Int.cast_sub, Int.cast_natCast, Int.cast_natCast, toZMod,
      toZMod]

theorem neg_modEq_iff (a : Residue m) :
    ((-a).toNat : ℤ) ≡ -a.toNat [ZMOD m.toNat] ↔ a.toNat ≤ m.toNat := by
  have h := sub_modEq_iff zero a
  rwa [zero_toNat, Nat.cast_zero, zero_sub, Nat.zero_add] at h

/-- A reduced number is the remainder of all numbers of its class. -/
lemma Reduced.toNat_eq_emod {a : Residue m} (ha : a.Reduced) {n : ℤ}
    (h : (a.toNat : ℤ) ≡ n [ZMOD m.toNat]) : (a.toNat : ℤ) = n % m.toNat := by
  rw [← h.eq]
  exact (Int.emod_eq_of_lt (Int.natCast_nonneg _) (Int.ofNat_lt.mpr ha)).symm

lemma Reduced.add_toNat_emod {a b : Residue m} (ha : a.Reduced) (hb : b.Reduced) :
    ((a + b).toNat : ℤ) = (a.toNat + b.toNat) % m.toNat :=
  (ha.add hb).toNat_eq_emod ((add_modEq_iff a b).mpr (ha.add_lt b))

lemma Reduced.sub_toNat_emod {a b : Residue m} (ha : a.Reduced) (hb : b.Reduced) :
    ((a - b).toNat : ℤ) = (a.toNat - b.toNat) % m.toNat :=
  (ha.sub hb).toNat_eq_emod ((sub_modEq_iff a b).mpr (hb.le_add a))

lemma Reduced.neg_toNat_emod {a : Residue m} (ha : a.Reduced) :
    ((-a).toNat : ℤ) = (-a.toNat) % m.toNat :=
  ha.neg.toNat_eq_emod ((neg_modEq_iff a).mpr (Nat.le_of_lt ha))

lemma Reduced.double_toNat_emod {a : Residue m} (ha : a.Reduced) :
    (a.double.toNat : ℤ) = 2 * a.toNat % m.toNat := by
  rw [Residue.double, ha.add_toNat_emod ha, two_mul]

lemma Reduced.triple_toNat_emod {a : Residue m} (ha : a.Reduced) :
    (a.triple.toNat : ℤ) = 3 * a.toNat % m.toNat := by
  rw [Residue.triple, (ha.add ha).add_toNat_emod ha, ha.add_toNat_emod ha, Int.emod_add_emod]
  congr 1
  ring

/-- The operands for which sums, differences and opposites are in the class that they should be in,
and what they are there. Reduced operands are among them and have reduced results. -/
theorem sums_exact_iff (a b : Residue m) :
    (((a + b).toNat : ℤ) ≡ a.toNat + b.toNat [ZMOD m.toNat] ↔
      a.toNat + b.toNat < 2 ^ 256 + m.toNat) ∧
    (a.Reduced ∨ b.Reduced → a.toNat + b.toNat < 2 ^ 256 + m.toNat) ∧
    (a.toNat + b.toNat < 2 ^ 256 + m.toNat → (a + b).toNat =
      if a.toNat + b.toNat < m.toNat then a.toNat + b.toNat
      else a.toNat + b.toNat - m.toNat) ∧
    (((a - b).toNat : ℤ) ≡ a.toNat - b.toNat [ZMOD m.toNat] ↔ b.toNat ≤ a.toNat + m.toNat) ∧
    (b.toNat ≤ a.toNat + m.toNat → (a - b).toNat =
      if b.toNat ≤ a.toNat then a.toNat - b.toNat else a.toNat + m.toNat - b.toNat) ∧
    (((-a).toNat : ℤ) ≡ -a.toNat [ZMOD m.toNat] ↔ a.toNat ≤ m.toNat) ∧
    (a.Reduced → b.Reduced →
      ((a + b).toNat : ℤ) = (a.toNat + b.toNat) % m.toNat ∧
      ((a - b).toNat : ℤ) = (a.toNat - b.toNat) % m.toNat ∧
      ((-a).toNat : ℤ) = (-a.toNat) % m.toNat ∧
      (a.double.toNat : ℤ) = 2 * a.toNat % m.toNat ∧
      (a.triple.toNat : ℤ) = 3 * a.toNat % m.toNat) := by
  refine ⟨add_modEq_iff a b, ?_, add_toNat, sub_modEq_iff a b, sub_toNat, neg_modEq_iff a, ?_⟩
  · rintro (ha | hb)
    · exact ha.add_lt b
    · rw [Nat.add_comm]
      exact hb.add_lt a
  · intro ha hb
    exact ⟨ha.add_toNat_emod hb, ha.sub_toNat_emod hb, ha.neg_toNat_emod, ha.double_toNat_emod,
      ha.triple_toNat_emod⟩

/-- At the smallest modulus: the largest number and the modulus itself, which have the largest sum
that is exact, and the largest reduced number and one, whose sum wraps to zero. -/
theorem sums_exact_iff_least :
    (⟨⟨-1, -1, -1, -1⟩⟩ : Residue .least).toNat + (modulus : Residue .least).toNat + 1 =
        2 ^ 256 + Modulus.least.toNat ∧
      (⟨⟨-1, -1, -1, -1⟩⟩ + modulus : Residue .least).toNat = 2 ^ 256 - 1 ∧
      (zero - modulus : Residue .least).toNat = 0 ∧
      (-one : Residue .least).Reduced ∧ (one : Residue .least).Reduced ∧
      (-one : Residue .least).toNat + (one : Residue .least).toNat <
        2 ^ 256 + Modulus.least.toNat ∧
      ((-one + one : Residue .least).toNat : ℤ) =
        ((-one : Residue .least).toNat + (one : Residue .least).toNat) % Modulus.least.toNat ∧
      ((-one : Residue .least).triple.toNat : ℤ) =
        3 * (-one : Residue .least).toNat % Modulus.least.toNat := by
  obtain ⟨-, -, hsum, -, -, -, -⟩ := sums_exact_iff (⟨⟨-1, -1, -1, -1⟩⟩ : Residue .least) modulus
  obtain ⟨-, -, -, -, hdifference, -, -⟩ := sums_exact_iff (zero : Residue .least) modulus
  obtain ⟨-, hlt, -, -, -, -, hreduced⟩ := sums_exact_iff (-one : Residue .least) one
  have htotal : (⟨⟨-1, -1, -1, -1⟩⟩ : Residue .least).toNat + (modulus : Residue .least).toNat + 1 =
      2 ^ 256 + Modulus.least.toNat := by decide +kernel
  have hone : (one : Residue .least).Reduced := by decide
  have hminus : (-one : Residue .least).Reduced := hone.neg
  obtain ⟨hadd, -, -, -, htriple⟩ := hreduced hminus hone
  refine ⟨htotal, ?_, ?_, hminus, hone, hlt (Or.inl hminus), hadd, htriple⟩
  · rw [hsum (Nat.lt_of_succ_le htotal.le)]
    decide +kernel
  · rw [hdifference (by decide)]
    decide +kernel

-- the sum of that number with one more than the modulus is in another class
example : (⟨⟨-1, -1, -1, -1⟩⟩ + ⟨⟨2, 0, 0, -1⟩⟩ : Residue .least).toNat % Modulus.least.toNat ≠
    ((2 ^ 256 - 1) + (2 ^ 256 - 2 ^ 192 + 2)) % Modulus.least.toNat := by decide +kernel

end Residue

end KoblitzCurve
