import Mathlib.Algebra.Ring.Nat
import KoblitzCurve.Limbs

/-! The values of words and of numbers of four words. Every later carry chain rests on the three
equations `addCarry_toNat`, `subBorrow_toNat` and `mulAdd_toNat`, which hold for all words. -/
namespace KoblitzCurve

namespace WordPair

def toNat (p : WordPair) : Nat := p.low.toNat + 2 ^ 64 * p.high.toNat

end WordPair

namespace Word

theorem carry_toNat (c : Bool) : c.toUInt64.toNat = c.toNat := by cases c <;> rfl

theorem addCarry_toNat (x y : UInt64) (c : Bool) :
    (addCarry x y c).1.toNat + 2 ^ 64 * (addCarry x y c).2.toNat =
      x.toNat + y.toNat + c.toNat := by
  have hx := x.toNat_lt
  have hy := y.toNat_lt
  have hc := c.toNat_le
  simp only [addCarry]
  by_cases h : x + y < x <;> by_cases h' : x + y + c.toUInt64 < x + y <;>
    simp only [h, h', decide_true, decide_false, Bool.or_true, Bool.or_false, Bool.toNat_true,
      Bool.toNat_false] <;>
    simp only [UInt64.lt_iff_toNat_lt, UInt64.toNat_add, carry_toNat] at h h' ⊢ <;> omega

theorem subBorrow_toNat (x y : UInt64) (b : Bool) :
    (subBorrow x y b).1.toNat + y.toNat + b.toNat =
      x.toNat + 2 ^ 64 * (subBorrow x y b).2.toNat := by
  have hx := x.toNat_lt
  have hy := y.toNat_lt
  have hb := b.toNat_le
  simp only [subBorrow]
  by_cases h : x < y <;> by_cases h' : x - y < x - y - b.toUInt64 <;>
    simp only [h, h', decide_true, decide_false, Bool.or_true, Bool.or_false, Bool.toNat_true,
      Bool.toNat_false] <;>
    simp only [UInt64.lt_iff_toNat_lt, UInt64.toNat_sub, carry_toNat] at h h' ⊢ <;> omega

private theorem low_half_toNat (x : UInt64) : (x &&& 0xFFFFFFFF).toNat = x.toNat % 2 ^ 32 := by
  simp [Nat.and_two_pow_sub_one_eq_mod x.toNat 32]

private theorem high_half_toNat (x : UInt64) : (x >>> 32).toNat = x.toNat / 2 ^ 32 := by
  simp [Nat.shiftRight_eq_div_pow]

private theorem half_mul_le {a b : Nat} (ha : a < 2 ^ 32) (hb : b < 2 ^ 32) :
    a * b ≤ 2 ^ 64 - 2 ^ 33 + 1 :=
  Nat.le_trans (Nat.mul_le_mul (Nat.le_pred_of_lt ha) (Nat.le_pred_of_lt hb)) (by decide)

private theorem mul_halves (x0 x1 y0 y1 : Nat) :
    (2 ^ 32 * x1 + x0) * (2 ^ 32 * y1 + y0) =
      2 ^ 64 * (x1 * y1) + 2 ^ 32 * (x1 * y0) + 2 ^ 32 * (x0 * y1) + x0 * y0 := by
  simp only [Nat.add_mul, Nat.mul_add, Nat.mul_assoc, Nat.mul_left_comm x0 (2 ^ 32),
    Nat.mul_left_comm x1 (2 ^ 32)]
  omega

theorem mulAdd_toNat (x y c d : UInt64) :
    (mulAdd x y c d).toNat = x.toNat * y.toNat + c.toNat + d.toNat := by
  have hc := c.toNat_lt
  have hd := d.toNat_lt
  have hx := x.toNat_lt
  have hy := y.toNat_lt
  have hs := addCarry_toNat (x * y) c false
  have ht := addCarry_toNat (addCarry (x * y) c false).1 d false
  have hu := Bool.toNat_le (addCarry (x * y) c false).2
  have hv := Bool.toNat_le (addCarry (addCarry (x * y) c false).1 d false).2
  have h00 := half_mul_le (Nat.mod_lt x.toNat (by decide)) (Nat.mod_lt y.toNat (by decide))
  have h01 := half_mul_le (Nat.mod_lt x.toNat (by decide))
    (show y.toNat / 2 ^ 32 < 2 ^ 32 by omega)
  have h10 := half_mul_le (show x.toNat / 2 ^ 32 < 2 ^ 32 by omega)
    (Nat.mod_lt y.toNat (by decide))
  have h11 := half_mul_le (show x.toNat / 2 ^ 32 < 2 ^ 32 by omega)
    (show y.toNat / 2 ^ 32 < 2 ^ 32 by omega)
  have hprod := mul_halves (x.toNat % 2 ^ 32) (x.toNat / 2 ^ 32) (y.toNat % 2 ^ 32)
    (y.toNat / 2 ^ 32)
  rw [Nat.div_add_mod, Nat.div_add_mod] at hprod
  simp only [mulAdd, WordPair.toNat, UInt64.toNat_add, UInt64.toNat_mul, low_half_toNat,
    high_half_toNat, carry_toNat, Bool.toNat_false, Nat.add_zero] at hs ht ⊢
  rw [hprod] at hs ⊢
  generalize x.toNat % 2 ^ 32 * (y.toNat % 2 ^ 32) = p00 at *
  generalize x.toNat % 2 ^ 32 * (y.toNat / 2 ^ 32) = p01 at *
  generalize x.toNat / 2 ^ 32 * (y.toNat % 2 ^ 32) = p10 at *
  generalize x.toNat / 2 ^ 32 * (y.toNat / 2 ^ 32) = p11 at *
  omega

theorem mul_toNat (x y : UInt64) : (mul x y).toNat = x.toNat * y.toNat := by
  simp [mul, mulAdd_toNat]

/-- A word moved down by one bit, with the lowest bit of the next word on top. -/
theorem shiftDown_toNat (x y : UInt64) :
    ((x >>> 1) ||| (y <<< 63)).toNat = x.toNat / 2 + 2 ^ 63 * (y.toNat % 2) := by
  have hx : (x >>> 1).toNat = x.toNat / 2 := by simp [Nat.shiftRight_eq_div_pow]
  have hy : (y <<< 63).toNat = 2 ^ 63 * (y.toNat % 2) := by
    simp only [UInt64.toNat_shiftLeft, Nat.shiftLeft_eq]
    show y.toNat * 2 ^ 63 % 2 ^ 64 = _
    omega
  have hlt := x.toNat_lt
  rw [UInt64.toNat_or, hx, hy, Nat.or_comm, ← Nat.two_pow_add_eq_or_of_lt (by omega), Nat.add_comm]

/-- A word moved up by one bit, with the top bit of the word before at the bottom. -/
theorem shiftUp_toNat (x y : UInt64) :
    ((x <<< 1) ||| (y >>> 63)).toNat = 2 * x.toNat % 2 ^ 64 + y.toNat / 2 ^ 63 := by
  have hx : (x <<< 1).toNat = 2 ^ 1 * (x.toNat % 2 ^ 63) := by
    simp only [UInt64.toNat_shiftLeft, Nat.shiftLeft_eq]
    show x.toNat * 2 ^ 1 % 2 ^ 64 = _
    omega
  have hy : (y >>> 63).toNat = y.toNat / 2 ^ 63 := by
    simp only [UInt64.toNat_shiftRight, Nat.shiftRight_eq_div_pow]
    rfl
  have hlt := y.toNat_lt
  rw [UInt64.toNat_or, hx, hy, ← Nat.two_pow_add_eq_or_of_lt (by omega)]
  omega

end Word

namespace Limbs
open Word

def toNat (a : Limbs) : Nat :=
  a.l0.toNat + 2 ^ 64 * (a.l1.toNat + 2 ^ 64 * (a.l2.toNat + 2 ^ 64 * a.l3.toNat))

theorem toNat_lt (a : Limbs) : a.toNat < 2 ^ 256 := by
  have h0 := a.l0.toNat_lt
  have h1 := a.l1.toNat_lt
  have h2 := a.l2.toNat_lt
  have h3 := a.l3.toNat_lt
  simp only [toNat]
  omega

theorem toNat_injective {a b : Limbs} (h : a.toNat = b.toNat) : a = b := by
  have h0 := a.l0.toNat_lt
  have h1 := a.l1.toNat_lt
  have h2 := a.l2.toNat_lt
  have k0 := b.l0.toNat_lt
  have k1 := b.l1.toNat_lt
  have k2 := b.l2.toNat_lt
  obtain ⟨a0, a1, a2, a3⟩ := a
  obtain ⟨b0, b1, b2, b3⟩ := b
  simp only [toNat] at h h0 h1 h2 k0 k1 k2
  simp only [mk.injEq, ← UInt64.toNat_inj]
  omega

theorem addCarry_toNat (a b : Limbs) (c : Bool) :
    (a.addCarry b c).1.toNat + 2 ^ 256 * (a.addCarry b c).2.toNat =
      a.toNat + b.toNat + c.toNat := by
  have h0 := Word.addCarry_toNat a.l0 b.l0 c
  have h1 := Word.addCarry_toNat a.l1 b.l1 (Word.addCarry a.l0 b.l0 c).2
  have h2 := Word.addCarry_toNat a.l2 b.l2
    (Word.addCarry a.l1 b.l1 (Word.addCarry a.l0 b.l0 c).2).2
  have h3 := Word.addCarry_toNat a.l3 b.l3 (Word.addCarry a.l2 b.l2
    (Word.addCarry a.l1 b.l1 (Word.addCarry a.l0 b.l0 c).2).2).2
  simp only [addCarry, toNat]
  omega

theorem subBorrow_toNat (a b : Limbs) (c : Bool) :
    (a.subBorrow b c).1.toNat + b.toNat + c.toNat =
      a.toNat + 2 ^ 256 * (a.subBorrow b c).2.toNat := by
  have h0 := Word.subBorrow_toNat a.l0 b.l0 c
  have h1 := Word.subBorrow_toNat a.l1 b.l1 (Word.subBorrow a.l0 b.l0 c).2
  have h2 := Word.subBorrow_toNat a.l2 b.l2
    (Word.subBorrow a.l1 b.l1 (Word.subBorrow a.l0 b.l0 c).2).2
  have h3 := Word.subBorrow_toNat a.l3 b.l3 (Word.subBorrow a.l2 b.l2
    (Word.subBorrow a.l1 b.l1 (Word.subBorrow a.l0 b.l0 c).2).2).2
  simp only [subBorrow, toNat]
  omega

theorem ofWord_toNat (w : UInt64) : (ofWord w).toNat = w.toNat := by simp [ofWord, toNat]

theorem zero_toNat : zero.toNat = 0 := rfl

theorem one_toNat : one.toNat = 1 := rfl

theorem halve_toNat (a : Limbs) : a.halve.toNat = a.toNat / 2 := by
  have h3 : (a.l3 >>> 1).toNat = a.l3.toNat / 2 := by simp [Nat.shiftRight_eq_div_pow]
  simp only [halve, toNat, Word.shiftDown_toNat, h3]
  omega

/-- A difference borrows when the number taken away is the greater one. -/
theorem borrow_eq (a b : Limbs) : (a.subBorrow b false).2 = decide (a.toNat < b.toNat) := by
  have h := subBorrow_toNat a b false
  have ha := a.toNat_lt
  have hb := b.toNat_lt
  have hd := (a.subBorrow b false).1.toNat_lt
  cases hc : (a.subBorrow b false).2 with
  | false =>
    rw [hc, Bool.toNat_false] at h
    exact (decide_eq_false (by omega)).symm
  | true =>
    rw [hc, Bool.toNat_true] at h
    exact (decide_eq_true (by simp only [Bool.toNat_false] at h; omega)).symm

theorem compare_eq (a b : Limbs) : a.compare b = Ord.compare a.toNat b.toNat := by
  simp only [compare, borrow_eq, decide_eq_true_eq]
  rcases Nat.lt_trichotomy a.toNat b.toNat with h | h | h
  · rw [Nat.compare_eq_lt.mpr h, if_neg (by omega), if_pos h]
  · rw [Nat.compare_eq_eq.mpr h, if_neg (by omega), if_neg (by omega)]
  · rw [Nat.compare_eq_gt.mpr h, if_pos h]

theorem addCarry_fst_toNat (a b : Limbs) :
    (a.addCarry b false).1.toNat = (a.toNat + b.toNat) % 2 ^ 256 := by
  have h := addCarry_toNat a b false
  have hlt := (a.addCarry b false).1.toNat_lt
  rw [Bool.toNat_false, Nat.add_zero] at h
  rw [← h, Nat.add_mul_mod_self_left, Nat.mod_eq_of_lt hlt]

theorem carry_eq (a b : Limbs) :
    (a.addCarry b false).2 = decide (2 ^ 256 ≤ a.toNat + b.toNat) := by
  have h := addCarry_toNat a b false
  have hlt := (a.addCarry b false).1.toNat_lt
  cases hc : (a.addCarry b false).2 with
  | false => 
    rw [hc] at h
    exact (decide_eq_false (by simp only [Bool.toNat_false] at h; omega)).symm
  | true =>
    rw [hc] at h
    exact (decide_eq_true (by simp only [Bool.toNat_false, Bool.toNat_true] at h; omega)).symm

theorem subBorrow_fst_toNat (a b : Limbs) :
    (a.subBorrow b false).1.toNat = (a.toNat + (2 ^ 256 - b.toNat)) % 2 ^ 256 := by
  have h := subBorrow_toNat a b false
  have hlt := (a.subBorrow b false).1.toNat_lt
  have hb := b.toNat_lt
  have hc := Bool.toNat_le (a.subBorrow b false).2
  rw [Bool.toNat_false, Nat.add_zero] at h
  omega

theorem addBack_toNat (a b : Limbs) (c : Bool) :
    (a.addCarry (b.keep (Word.fill c)) false).1.toNat =
      (a.toNat + if c then b.toNat else 0) % 2 ^ 256 := by
  rw [addCarry_fst_toNat, keep_fill]
  cases c
  · rfl
  · rfl

end Limbs

end KoblitzCurve
