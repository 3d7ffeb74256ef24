import Mathlib.Tactic.IntervalCases
import Mathlib.Tactic.LinearCombination
import KoblitzCurve.SignedDigits
import KoblitzCurve.Proofs.Numerals

/-! The windows of a scalar and the sum of its signed digits. The window of a digit and all above
it are read from twice the scalar, shifted down by the bits of the digits below; a digit and the
carry into the next one are what such a number loses when it is shifted once more. -/
namespace KoblitzCurve

/-- The number of these bytes, the least significant one first. -/
def littleEndian (bytes : List UInt8) : ℕ := Nat.ofDigits 256 (bytes.map UInt8.toNat)

lemma littleEndian_eq_byteNumber (bytes : List UInt8) :
    littleEndian bytes = Radix.byteNumber bytes.reverse := by
  rw [littleEndian, Radix.byteNumber, Radix.bigEndian, List.map_reverse, List.reverse_reverse]

lemma littleEndian_cons (b : UInt8) (rest : List UInt8) :
    littleEndian (b :: rest) = b.toNat + 256 * littleEndian rest := by
  rw [littleEndian, List.map_cons, Nat.ofDigits_cons]
  rfl

lemma littleEndian_div_byte (b : UInt8) (rest : List UInt8) :
    littleEndian (b :: rest) / 2 ^ 8 = littleEndian rest := by
  have hb := b.toNat_lt
  rw [littleEndian_cons]
  omega

lemma littleEndian_mod_byte (bytes : List UInt8) :
    littleEndian bytes % 2 ^ 8 = (bytes.getD 0 0).toNat := by
  cases bytes with
  | nil => rfl
  | cons b rest =>
    have hb := b.toNat_lt
    rw [littleEndian_cons, List.getD_cons_zero]
    omega

lemma littleEndian_byte (bytes : List UInt8) (i : ℕ) :
    littleEndian bytes / 2 ^ (8 * i) % 2 ^ 8 = (bytes.getD i 0).toNat := by
  induction bytes generalizing i with
  | nil => simp [littleEndian]
  | cons b rest ih =>
    cases i with
    | zero => rw [Nat.mul_zero, pow_zero, Nat.div_one, littleEndian_mod_byte]
    | succ i =>
      rw [Nat.mul_succ, Nat.add_comm, pow_add, ← Nat.div_div_eq_div_mul, littleEndian_div_byte, ih,
        List.getD_cons_succ]

lemma littleEndian_pair (bytes : List UInt8) (i : ℕ) :
    littleEndian bytes / 2 ^ (8 * i) % 2 ^ 16 =
      (bytes.getD i 0).toNat + 2 ^ 8 * (bytes.getD (i + 1) 0).toNat := by
  have hlow := littleEndian_byte bytes i
  have hhigh := littleEndian_byte bytes (i + 1)
  rw [Nat.mul_succ, pow_add, ← Nat.div_div_eq_div_mul] at hhigh
  omega

namespace Scalar

lemma littleEndian_windowBytes (k : Scalar) :
    littleEndian (windowBytes k) = k.toNat % groupOrder.toNat := by
  rw [littleEndian_eq_byteNumber, windowBytes, List.reverse_append, List.reverse_reverse,
    Radix.byteNumber_append, Residue.byteNumber_toBytes, Residue.reduce_toNat]
  exact Nat.zero_add _

/-- Fewer than nine bits of a number, beginning at bit `i`, lie in two neighbouring bytes. -/
lemma bits_of_pair (N i : ℕ) {n : ℕ} (h : n ≤ 9) :
    N / 2 ^ (8 * (i / 8)) % 2 ^ 16 / 2 ^ (i % 8) % 2 ^ n = N / 2 ^ i % 2 ^ n := by
  have hr : i % 8 < 8 := Nat.mod_lt i (by decide)
  have hsplit : 2 ^ 16 = 2 ^ (i % 8) * 2 ^ (16 - i % 8) := by
    rw [← pow_add, Nat.add_sub_cancel' (by omega)]
  have hdvd : 2 ^ n ∣ 2 ^ (16 - i % 8) := pow_dvd_pow 2 (by omega)
  rw [hsplit, Nat.mod_mul_right_div_self, Nat.mod_mod_of_dvd _ hdvd, Nat.div_div_eq_div_mul,
    ← pow_add, Nat.div_add_mod]

lemma pair_toNat (low high : UInt8) :
    (low.toUInt32 ||| (high.toUInt32 <<< 8)).toNat = low.toNat + 2 ^ 8 * high.toNat := by
  have hlow := low.toNat_lt
  have hhigh := high.toNat_lt
  have hshift : (high.toUInt32 <<< 8).toNat = 2 ^ 8 * high.toNat := by
    rw [UInt32.toNat_shiftLeft, Nat.shiftLeft_eq, UInt8.toNat_toUInt32]
    show high.toNat * 2 ^ 8 % 2 ^ 32 = _
    omega
  rw [UInt32.toNat_or, hshift, UInt8.toNat_toUInt32, Nat.or_comm,
    ← Nat.two_pow_add_eq_or_of_lt hlow, Nat.add_comm]

lemma shift_toNat (w : UInt32) (i : ℕ) :
    (w >>> (i &&& 7).toUInt32).toNat = w.toNat / 2 ^ (i % 8) := by
  have hi : i &&& 7 = i % 8 := Nat.and_two_pow_sub_one_eq_mod i 3
  have hr : i % 8 < 8 := Nat.mod_lt i (by decide)
  have hsize : i % 8 < UInt32.size := Nat.lt_of_lt_of_le hr (by decide)
  rw [hi, UInt32.toNat_shiftRight, Nat.toUInt32_eq, UInt32.toNat_ofNat_of_lt' hsize,
    Nat.mod_eq_of_lt (by omega), Nat.shiftRight_eq_div_pow]

/-- The bits of a window and the one below it. -/
def windowMask (width : ℕ) : UInt32 := (1 <<< (width + 1).toUInt32) - 1

lemma and_windowMask_toNat {width : ℕ} (h : width ≤ 8) (w : UInt32) :
    (w &&& windowMask width).toNat = w.toNat % 2 ^ (width + 1) := by
  have hmask : (windowMask width).toNat = 2 ^ (width + 1) - 1 := by
    interval_cases width <;> rfl
  rw [UInt32.toNat_and, hmask, Nat.and_two_pow_sub_one_eq_mod]

lemma window_toNat {width : ℕ} (h : width ≤ 8) (bytes : List UInt8) (i : ℕ) :
    (window bytes (i + 1) (windowMask width)).toNat =
      littleEndian bytes / 2 ^ i % 2 ^ (width + 1) := by
  have hoffset : i >>> 3 = i / 8 := Nat.shiftRight_eq_div_pow i 3
  rw [window, and_windowMask_toNat h, Nat.add_sub_cancel, shift_toNat, hoffset, pair_toNat,
    ← littleEndian_pair, bits_of_pair _ _ (by omega)]

lemma firstWindow_toNat {width : ℕ} (h : width ≤ 8) (bytes : List UInt8) :
    (firstWindow bytes (windowMask width)).toNat = 2 * littleEndian bytes % 2 ^ (width + 1) := by
  have hbyte := (bytes.getD 0 0).toNat_lt
  have hshift : ((bytes.getD 0 0).toUInt32 <<< 1).toNat = 2 * (bytes.getD 0 0).toNat := by
    rw [UInt32.toNat_shiftLeft, Nat.shiftLeft_eq, UInt8.toNat_toUInt32]
    show (bytes.getD 0 0).toNat * 2 ^ 1 % 2 ^ 32 = _
    omega
  have hdvd : 2 ^ (width + 1) ∣ 2 ^ 9 := pow_dvd_pow 2 (by omega)
  rw [firstWindow, and_windowMask_toNat h, hshift, ← littleEndian_mod_byte, ← Nat.mul_mod_mul_left,
    ← pow_succ', Nat.mod_mod_of_dvd _ hdvd]

end Scalar

namespace SignedDigit
variable {d : SignedDigit} {width : ℕ} {bits : UInt32}

/-- A digit whose magnitude has a place in a table of that length, with a proper mask. -/
structure Within (d : SignedDigit) (bound : ℕ) : Prop where
  magnitude : d.magnitude.toNat ≤ bound
  negative : d.negative = 0 ∨ d.negative = Mask.yes

lemma Within.negative_eq {bound : ℕ} (hd : d.Within bound) :
    d.negative = if d.negative = Mask.yes then Mask.yes else 0 := by
  rcases hd.negative with h | h
  · rw [h]
    rfl
  · rw [h, if_pos rfl]

lemma Within.value_zsmul {M : Type*} [AddCommGroup M] {bound : ℕ} (hd : d.Within bound) (P : M) :
    d.value • P = if d.negative = Mask.yes then -(d.magnitude.toNat • P)
      else d.magnitude.toNat • P := by
  have hyes : Mask.yes ≠ 0 := by decide
  rw [value]
  rcases hd.negative with h | h
  · rw [h, if_pos rfl, if_neg hyes.symm, natCast_zsmul]
  · rw [h, if_neg hyes, if_pos rfl, neg_zsmul, natCast_zsmul]

lemma Within.abs_value_le {bound : ℕ} (hd : d.Within bound) : |d.value| ≤ bound := by
  have habs : |d.value| = d.magnitude.toNat := by
    rw [value]
    split_ifs
    · exact abs_of_nonneg (Int.natCast_nonneg _)
    · rw [abs_neg]
      exact abs_of_nonneg (Int.natCast_nonneg _)
  rw [habs]
  exact Int.ofNat_le.mpr hd.magnitude

lemma shiftRight_one_toNat (w : UInt32) : (w >>> 1).toNat = w.toNat / 2 := by
  rw [UInt32.toNat_shiftRight, Nat.shiftRight_eq_div_pow]
  rfl

lemma and_one_toNat (w : UInt32) : (w &&& 1).toNat = w.toNat % 2 := by
  rw [UInt32.toNat_and]
  exact Nat.and_one_is_mod _

lemma halfUp_toNat (w : UInt32) : ((w >>> 1) + (w &&& 1)).toNat = (w.toNat + 1) / 2 := by
  have hw := w.toNat_lt
  rw [UInt32.toNat_add, shiftRight_one_toNat, and_one_toNat]
  omega

lemma toNat_width (h : width ≤ 8) : width.toUInt32.toNat = width :=
  UInt32.toNat_ofNat_of_lt' (Nat.lt_of_le_of_lt h (by decide))

lemma shiftRight_width (h : width ≤ 8) (w : UInt32) :
    (w >>> width.toUInt32).toNat = w.toNat / 2 ^ width := by
  rw [UInt32.toNat_shiftRight, toNat_width h, Nat.mod_eq_of_lt (by omega),
    Nat.shiftRight_eq_div_pow]

lemma pack_toNat {bound : ℕ} (hd : d.Within bound) (hbound : bound < 2 ^ 31) :
    d.pack.toNat = 2 * d.magnitude.toNat + (d.negative &&& 1).toNat := by
  have hmagnitude := hd.magnitude
  have hshift : (d.magnitude <<< 1).toNat = 2 * d.magnitude.toNat := by
    rw [UInt32.toNat_shiftLeft, Nat.shiftLeft_eq]
    show d.magnitude.toNat * 2 ^ 1 % 2 ^ 32 = _
    omega
  have hsign : (d.negative &&& 1).toNat < 2 := by
    rw [and_one_toNat]
    exact Nat.mod_lt _ Nat.two_pos
  rw [pack, UInt32.toNat_add, hshift]
  omega

/-- The one bit that is kept of the mask is enough to restore it. -/
theorem unpack_pack {bound : ℕ} (hd : d.Within bound) (hbound : bound < 2 ^ 31) :
    unpack d.pack = d := by
  have hword := pack_toNat hd hbound
  have hmagnitude : d.pack >>> 1 = d.magnitude := by
    rw [← UInt32.toNat_inj, shiftRight_one_toNat, hword, and_one_toNat]
    omega
  have hsign : d.pack &&& 1 = d.negative &&& 1 := by
    rw [← UInt32.toNat_inj, and_one_toNat, hword, and_one_toNat]
    omega
  have hnegative : -(d.negative &&& 1) = d.negative := by
    rcases hd.negative with h | h
    · rw [h]
      rfl
    · rw [h]
      rfl
  rw [unpack, hmagnitude, hsign, hnegative]

lemma recode_low (h : width ≤ 8) (hbits : bits.toNat < 2 ^ width) :
    recode width.toUInt32 bits = pack ⟨(bits >>> 1) + (bits &&& 1), 0⟩ := by
  have htop : bits >>> width.toUInt32 = 0 := by
    apply UInt32.toNat_inj.mp
    rw [shiftRight_width h, Nat.div_eq_of_lt hbits]
    rfl
  have hnegative : ~~~((0 : UInt32) - 1) = 0 := rfl
  have hnot : ~~~(0 : UInt32) = -1 := rfl
  rw [recode, htop, hnegative, UInt32.and_zero, UInt32.zero_or, hnot, UInt32.and_neg_one]

lemma recode_high (h : width ≤ 8) (hbits : bits.toNat / 2 ^ width = 1) :
    recode width.toUInt32 bits =
      pack ⟨(((1 <<< (width.toUInt32 + 1)) - bits - 1) >>> 1) +
        (((1 <<< (width.toUInt32 + 1)) - bits - 1) &&& 1), Mask.yes⟩ := by
  have htop : bits >>> width.toUInt32 = 1 := by
    apply UInt32.toNat_inj.mp
    rw [shiftRight_width h, hbits]
    rfl
  have hnegative : ~~~((1 : UInt32) - 1) = -1 := rfl
  have hnot : ~~~(-1 : UInt32) = 0 := rfl
  rw [recode, htop, hnegative, UInt32.and_neg_one, hnot, UInt32.and_zero, UInt32.or_zero]
  rfl

lemma complement_toNat (h : width ≤ 8) (hbits : bits.toNat < 2 ^ (width + 1)) :
    ((1 <<< (width.toUInt32 + 1)) - bits - 1).toNat = 2 ^ (width + 1) - bits.toNat - 1 := by
  have hone : (1 <<< (width.toUInt32 + 1) : UInt32).toNat = 2 ^ (width + 1) := by
    interval_cases width <;> rfl
  have hle : 2 ^ (width + 1) ≤ 2 ^ 9 := Nat.pow_le_pow_right (by decide) (by omega)
  have hsub : ((1 <<< (width.toUInt32 + 1)) - bits : UInt32).toNat =
      2 ^ (width + 1) - bits.toNat := by
    rw [UInt32.toNat_sub_of_le _ _ (UInt32.le_iff_toNat_le.mpr (by omega)), hone]
  have hpos : (1 : UInt32).toNat = 1 := rfl
  rw [UInt32.toNat_sub_of_le _ _ (UInt32.le_iff_toNat_le.mpr (by omega)), hsub, hpos]

/-- The digit lies in its table, and is half the window rounded up less 2^width for a window
whose top bit is set. -/
theorem ofWindow_spec (h : width ≤ 8) (hbits : bits.toNat < 2 ^ (width + 1)) :
    (ofWindow width.toUInt32 bits).Within (2 ^ width / 2) ∧
      (ofWindow width.toUInt32 bits).value + 2 ^ width * (bits.toNat / 2 ^ width : ℕ) =
        ((bits.toNat + 1) / 2 : ℕ) := by
  have hpow : 2 ^ (width + 1) = 2 * 2 ^ width := pow_succ' 2 width
  have hbound : 2 ^ width / 2 < 2 ^ 31 := by
    have hle : 2 ^ width ≤ 2 ^ 8 := Nat.pow_le_pow_right (by decide) h
    omega
  rcases Nat.lt_or_ge bits.toNat (2 ^ width) with hlow | hhigh
  · have hd : (⟨(bits >>> 1) + (bits &&& 1), 0⟩ : SignedDigit).Within (2 ^ width / 2) := by
      refine ⟨?_, Or.inl rfl⟩
      rw [halfUp_toNat]
      omega
    rw [ofWindow, recode_low h hlow, unpack_pack hd hbound]
    refine ⟨hd, ?_⟩
    rw [value, if_pos rfl, halfUp_toNat, Nat.div_eq_of_lt hlow, Nat.cast_zero, mul_zero, add_zero]
  · have htop : bits.toNat / 2 ^ width = 1 :=
      Nat.div_eq_of_lt_le (by omega) (by omega)
    have hcomplement := complement_toNat h hbits
    have hyes : Mask.yes ≠ 0 := by decide
    have hd : (⟨(((1 <<< (width.toUInt32 + 1)) - bits - 1) >>> 1) +
        (((1 <<< (width.toUInt32 + 1)) - bits - 1) &&& 1), Mask.yes⟩ : SignedDigit).Within
          (2 ^ width / 2) := by
      refine ⟨?_, Or.inr rfl⟩
      rw [halfUp_toNat, hcomplement]
      omega
    have hsum : 2 ^ width =
        (2 ^ (width + 1) - bits.toNat - 1 + 1) / 2 + (bits.toNat + 1) / 2 := by omega
    have hcast := congrArg (Nat.cast : ℕ → ℤ) hsum
    rw [Nat.cast_pow, Nat.cast_two, Nat.cast_add] at hcast
    rw [ofWindow, recode_high h htop, unpack_pack hd hbound, htop]
    refine ⟨hd, ?_⟩
    rw [value, if_neg hyes, halfUp_toNat, hcomplement, Nat.cast_one, mul_one, hcast,
      neg_add_cancel_left]

end SignedDigit

namespace Scalar
variable {width : ℕ}

/-- The number of these digits, the lowest one first. -/
def digitSum (width : ℕ) : List SignedDigit → ℤ
  | [] => 0
  | d :: higher => d.value + 2 ^ width * digitSum width higher

/-- The digits read from a number that carries the bit below them at its bottom. -/
def windowDigits (width : ℕ) : ℕ → ℕ → List SignedDigit
  | 0, _ => []
  | count + 1, t =>
    .ofWindow width.toUInt32 (.ofNat (t % 2 ^ (width + 1))) ::
      windowDigits width count (t / 2 ^ width)

lemma windowDigits_eq_map (width count t : ℕ) :
    windowDigits width count t = (List.range count).map fun i =>
      .ofWindow width.toUInt32 (.ofNat (t / 2 ^ (width * i) % 2 ^ (width + 1))) := by
  induction count generalizing t with
  | zero => rfl
  | succ count ih =>
    rw [windowDigits, ih, List.range_succ_eq_map, List.map_cons, List.map_map, Nat.mul_zero,
      pow_zero, Nat.div_one]
    congr 2
    funext i
    rw [Function.comp_apply, Nat.div_div_eq_div_mul, ← pow_add, Nat.mul_succ,
      Nat.add_comm width]

lemma window_toNat_ofNat (h : width ≤ 8) (t : ℕ) :
    (UInt32.ofNat (t % 2 ^ (width + 1))).toNat = t % 2 ^ (width + 1) := by
  have hlt : t % 2 ^ (width + 1) < 2 ^ (width + 1) := Nat.mod_lt _ (Nat.two_pow_pos _)
  have hle : 2 ^ (width + 1) ≤ 2 ^ 9 := Nat.pow_le_pow_right (by decide) (by omega)
  exact UInt32.toNat_ofNat_of_lt' (Nat.lt_of_lt_of_le hlt (hle.trans (by decide)))

theorem digits_eq (hpos : 0 < width) (h : width ≤ 8) (count : ℕ) (k : Scalar) :
    digits width (count + 1) k =
      windowDigits width (count + 1) (2 * (k.toNat % groupOrder.toNat)) := by
  rw [← littleEndian_windowBytes]
  have hfirst : firstWindow (windowBytes k) (windowMask width) =
      .ofNat (2 * littleEndian (windowBytes k) % 2 ^ (width + 1)) := by
    apply UInt32.toNat_inj.mp
    rw [firstWindow_toNat h, window_toNat_ofNat h]
  have hothers (i : ℕ) : window (windowBytes k) (width * (i + 1)) (windowMask width) =
      .ofNat (2 * littleEndian (windowBytes k) / 2 ^ width / 2 ^ (width * i) %
        2 ^ (width + 1)) := by
    have hplace : width * (i + 1) = width * (i + 1) - 1 + 1 :=
      (Nat.sub_add_cancel (Nat.mul_pos hpos (Nat.succ_pos i))).symm
    have hshift : 2 * littleEndian (windowBytes k) / 2 ^ width / 2 ^ (width * i) =
        littleEndian (windowBytes k) / 2 ^ (width * (i + 1) - 1) := by
      rw [Nat.div_div_eq_div_mul, ← pow_add, Nat.add_comm, ← Nat.mul_succ, Nat.succ_eq_add_one,
        hplace, pow_succ', Nat.mul_div_mul_left _ _ (by decide), Nat.add_sub_cancel]
    apply UInt32.toNat_inj.mp
    rw [window_toNat_ofNat h, hshift, ← window_toNat h, ← hplace]
  rw [digits, windowDigits, windowDigits_eq_map, Nat.add_sub_cancel]
  change _ :: List.map (fun i => SignedDigit.ofWindow _ (window _ _ (windowMask width))) _ = _
  simp only [hothers]
  rw [← hfirst]
  rfl

/-- What a number and the carry into it lose when one digit is taken from them. -/
lemma carry_eq (width t : ℕ) :
    (t % 2 ^ (width + 1) + 1) / 2 + 2 ^ width * ((t / 2 ^ width + 1) / 2) =
      (t + 1) / 2 + 2 ^ width * (t % 2 ^ (width + 1) / 2 ^ width) := by
  have hpow : 2 ^ (width + 1) = 2 ^ width * 2 := pow_succ 2 width
  have htop : t / 2 ^ width = 2 * (t / 2 ^ (width + 1)) + t % 2 ^ (width + 1) / 2 ^ width := by
    rw [hpow, Nat.mod_mul_right_div_self, ← Nat.div_div_eq_div_mul, Nat.div_add_mod]
  have ht := Nat.div_add_mod t (2 ^ (width + 1))
  have hbit : t % 2 ^ (width + 1) / 2 ^ width < 2 := by
    apply Nat.div_lt_of_lt_mul
    rw [← hpow]
    exact Nat.mod_lt t (Nat.two_pow_pos _)
  have hround : (t / 2 ^ width + 1) / 2 =
      t / 2 ^ (width + 1) + t % 2 ^ (width + 1) / 2 ^ width := by
    rw [htop]
    generalize t % 2 ^ (width + 1) / 2 ^ width = bit at hbit ⊢
    omega
  rw [hround, Nat.mul_add]
  rw [hpow, Nat.mul_comm (2 ^ width) 2, Nat.mul_assoc] at ht
  rw [hpow, Nat.mul_comm (2 ^ width) 2]
  omega

/-- The digits make up the number but for the carry out of the last one. -/
lemma digitSum_windowDigits (h : width ≤ 8) (count t : ℕ) :
    digitSum width (windowDigits width count t) +
      2 ^ (width * count) * ((t / 2 ^ (width * count) + 1) / 2 : ℕ) = ((t + 1) / 2 : ℕ) := by
  induction count generalizing t with
  | zero => simp only [windowDigits, digitSum, Nat.mul_zero, pow_zero, one_mul, zero_add, Nat.div_one]
  | succ count ih =>
    have hlt : (UInt32.ofNat (t % 2 ^ (width + 1))).toNat < 2 ^ (width + 1) := by
      rw [window_toNat_ofNat h]
      exact Nat.mod_lt t (Nat.two_pow_pos _)
    have hdigit := (SignedDigit.ofWindow_spec h hlt).2
    rw [window_toNat_ofNat h] at hdigit
    have hcarry := congrArg (Nat.cast : ℕ → ℤ) (carry_eq width t)
    rw [Nat.cast_add, Nat.cast_add, Nat.cast_mul, Nat.cast_mul, Nat.cast_pow, Nat.cast_two]
      at hcarry
    have hshift : t / 2 ^ (width * (count + 1)) = t / 2 ^ width / 2 ^ (width * count) := by
      rw [Nat.div_div_eq_div_mul, ← pow_add, Nat.mul_succ, Nat.add_comm width]
    rw [windowDigits, digitSum, hshift, Nat.mul_succ, pow_add (2 : ℤ) (width * count)]
    linear_combination hdigit + hcarry + 2 ^ width * ih (t / 2 ^ width)

/-- Enough digits for all bits of the scalar, and one more, make up the reduced scalar. -/
theorem digitSum_digits (hpos : 0 < width) (h : width ≤ 8) {count : ℕ}
    (hcount : 256 < width * (count + 1)) (k : Scalar) :
    digitSum width (digits width (count + 1) k) = (k.toNat % groupOrder.toNat : ℕ) := by
  have hlt : k.toNat % groupOrder.toNat < 2 ^ 256 :=
    (Nat.mod_lt _ (Residue.modulus_pos groupOrder)).trans groupOrder.toNat_lt
  have hdouble {i j : ℕ} (hij : i < j) : 2 * 2 ^ i ≤ 2 ^ j := by
    rw [← pow_succ']
    exact Nat.pow_le_pow_right (by decide) hij
  have hsum := digitSum_windowDigits h (count + 1) (2 * (k.toNat % groupOrder.toNat))
  have hlast := Nat.lt_of_lt_of_le (Nat.mul_lt_mul_of_pos_left hlt (by decide : 0 < 2))
    (hdouble hcount)
  rw [Nat.div_eq_of_lt hlast] at hsum
  rw [digits_eq hpos h]
  have hhalf : (2 * (k.toNat % groupOrder.toNat) + 1) / 2 = k.toNat % groupOrder.toNat := by omega
  rw [hhalf] at hsum
  simpa using hsum

theorem within_digits (hpos : 0 < width) (h : width ≤ 8) (count : ℕ) (k : Scalar) :
    ∀ d ∈ digits width (count + 1) k, d.Within (2 ^ width / 2) := by
  rw [digits_eq hpos h, windowDigits_eq_map]
  intro d hd
  obtain ⟨i, -, rfl⟩ := List.mem_map.mp hd
  have hlt := Nat.mod_lt (2 * (k.toNat % groupOrder.toNat) / 2 ^ (width * i))
    (Nat.two_pow_pos (width + 1))
  rw [← window_toNat_ofNat h] at hlt
  exact (SignedDigit.ofWindow_spec h hlt).1

end Scalar

end KoblitzCurve
