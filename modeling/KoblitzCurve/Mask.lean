/-! Masks are words of 32 bits, all ones for "yes" and zero for "no". They are computed by word
operations alone; what they compute is stated with branches in `ofZero_eq` and `ofEq_eq`. -/
namespace KoblitzCurve.Mask

def yes : UInt32 := 0xFFFFFFFF

/-- The mask over 64 bits, by repeating the top bit. -/
@[inline] def widen (m : UInt32) : UInt64 := m.toInt32.toInt64.toUInt64

/-- Whether a word is zero: only for zero do it and its negation both have the top bit clear. -/
@[inline] def ofZero (w : UInt64) : UInt32 := (((w ||| (0 - w)) >>> 63) - 1).toUInt32

/-- Whether two indices are equal: only then do both differences have the top bit clear. -/
@[inline] def ofEq (i j : UInt32) : UInt32 :=
  let clear : UInt32 := (~~~((i - j) ||| (j - i))) >>> 31
  0 - clear

/-- The first word where the wide mask is zero, the second where it is all ones. -/
@[inline] def choose (a b w : UInt64) : UInt64 := a ^^^ (w &&& (a ^^^ b))

theorem widen_zero : widen 0 = 0 := by decide

theorem widen_yes : widen yes = 0xFFFFFFFFFFFFFFFF := by decide

theorem choose_zero (a b : UInt64) : choose a b 0 = a := by simp [choose]

theorem choose_ones (a b : UInt64) : choose a b 0xFFFFFFFFFFFFFFFF = b := by
  have h : (0xFFFFFFFFFFFFFFFF : UInt64) &&& (a ^^^ b) = a ^^^ b := UInt64.neg_one_and
  rw [choose, h, ← UInt64.xor_assoc, UInt64.xor_self, UInt64.zero_xor]

/-- A word or its negation reaches the top bit unless the word is zero. -/
private theorem top_bit_of_ne_zero {w : UInt64} (h : w ≠ 0) : (w ||| (0 - w)) >>> 63 = 1 := by
  have hw : w.toNat ≠ 0 := fun hz => h (UInt64.toNat_inj.mp hz)
  have hlt := w.toNat_lt
  have hneg : (0 - w).toNat = 2 ^ 64 - w.toNat := by
    rw [UInt64.toNat_sub, UInt64.toNat_zero]
    omega
  have hleft : w.toNat ≤ (w ||| (0 - w)).toNat := by
    rw [UInt64.toNat_or]
    exact Nat.left_le_or
  have hright : (0 - w).toNat ≤ (w ||| (0 - w)).toNat := by
    rw [UInt64.toNat_or]
    exact Nat.right_le_or
  have hor := (w ||| (0 - w)).toNat_lt
  rw [← UInt64.toNat_inj, UInt64.toNat_shiftRight, Nat.shiftRight_eq_div_pow]
  show _ / 2 ^ 63 = 1
  omega

theorem ofZero_eq (w : UInt64) : ofZero w = if w = 0 then yes else 0 := by
  by_cases h : w = 0
  · subst h
    decide
  · rw [if_neg h, ofZero, top_bit_of_ne_zero h]
    decide

/-- Of two different indices one difference reaches the top bit. -/
private theorem clear_of_ne {i j : UInt32} (h : i ≠ j) :
    (~~~((i - j) ||| (j - i))) >>> 31 = 0 := by
  have hij : i.toNat ≠ j.toNat := fun he => h (UInt32.toNat_inj.mp he)
  have hi := i.toNat_lt
  have hj := j.toNat_lt
  have hleft : (i - j).toNat ≤ ((i - j) ||| (j - i)).toNat := by
    rw [UInt32.toNat_or]
    exact Nat.left_le_or
  have hright : (j - i).toNat ≤ ((i - j) ||| (j - i)).toNat := by
    rw [UInt32.toNat_or]
    exact Nat.right_le_or
  rw [UInt32.toNat_sub] at hleft hright
  have hor := ((i - j) ||| (j - i)).toNat_lt
  rw [← UInt32.toNat_inj, UInt32.toNat_shiftRight, UInt32.toNat_not, Nat.shiftRight_eq_div_pow]
  show (2 ^ 32 - 1 - _) / 2 ^ 31 = 0
  omega

theorem ofEq_eq (i j : UInt32) : ofEq i j = if i = j then yes else 0 := by
  by_cases h : i = j
  · subst h
    rw [if_pos rfl, ofEq, UInt32.sub_self]
    decide
  · rw [if_neg h, ofEq, clear_of_ne h]
    rfl

end KoblitzCurve.Mask
