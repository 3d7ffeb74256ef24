import Mathlib.Algebra.BigOperators.Ring.Finset
import KoblitzCurve.Proofs.GeneratorMultiples

/-! The recoding of a scalar, digit by digit: a digit for each window, weighted by the place of the
window, with no window read beyond the bytes of the scalar and no magnitude beyond the entries of the
table that it is looked up in. -/
namespace KoblitzCurve

namespace Scalar
variable {width : ℕ}

/-- The window of digit `i`. The lowest one has a zero below bit 0. -/
def windowOf (width : ℕ) (k : Scalar) : ℕ → UInt32
  | 0 => firstWindow (windowBytes k) (windowMask width)
  | i + 1 => window (windowBytes k) (width * (i + 1)) (windowMask width)

example : windowMask 7 = 0xFF ∧ windowMask 5 = 0x3F := by decide

lemma windowOf_of_pos {i : ℕ} (h : 0 < i) (k : Scalar) :
    windowOf width k i = window (windowBytes k) (width * i) (windowMask width) := by
  cases i with
  | zero => exact absurd h (Nat.lt_irrefl 0)
  | succ i => rfl

def digit (width : ℕ) (k : Scalar) (i : ℕ) : SignedDigit :=
  .ofWindow width.toUInt32 (windowOf width k i)

lemma digits_eq_map (width count : ℕ) (k : Scalar) :
    digits width (count + 1) k = (List.range (count + 1)).map (digit width k) := by
  rw [List.range_succ_eq_map, List.map_cons, List.map_map]
  rfl

/-- The sum by which the lowest digit is added to all others moved up by one place. -/
lemma digitSum_eq_sum (width : ℕ) (d : ℕ → SignedDigit) (count : ℕ) :
    digitSum width ((List.range count).map d) =
      ∑ i ∈ Finset.range count, (d i).value * 2 ^ (width * i) := by
  induction count generalizing d with
  | zero => rfl
  | succ count ih =>
    have hhigher : ∑ i ∈ Finset.range count, (d (i + 1)).value * 2 ^ (width * (i + 1)) =
        2 ^ width * ∑ i ∈ Finset.range count, (d (i + 1)).value * 2 ^ (width * i) := by
      rw [Finset.mul_sum]
      refine Finset.sum_congr rfl fun i _ => ?_
      rw [Nat.mul_succ, pow_add]
      ring
    rw [List.range_succ_eq_map, List.map_cons, List.map_map, digitSum, ih, Finset.sum_range_succ',
      Nat.mul_zero, pow_zero, mul_one, hhigher, add_comm]
    rfl

/-- The window from two bytes that both have to be there. -/
def window? (bytes : List UInt8) (i : ℕ) (mask : UInt32) : Option UInt32 :=
  match bytes[(i - 1) >>> 3]?, bytes[((i - 1) >>> 3) + 1]? with
  | some low, some high =>
    some (((low.toUInt32 ||| (high.toUInt32 <<< 8)) >>> ((i - 1) &&& 7).toUInt32) &&& mask)
  | _, _ => none

theorem window?_eq_some {bytes : List UInt8} {i : ℕ} (h : i - 1 + 8 < 8 * bytes.length)
    (mask : UInt32) : window? bytes i mask = some (window bytes i mask) := by
  have hoffset : (i - 1) >>> 3 = (i - 1) / 8 := Nat.shiftRight_eq_div_pow (i - 1) 3
  have hhigh : (i - 1) >>> 3 + 1 < bytes.length := by omega
  have hlow : (i - 1) >>> 3 < bytes.length := Nat.lt_of_succ_lt hhigh
  rw [window?, window, List.getElem?_eq_getElem hlow, List.getElem?_eq_getElem hhigh,
    List.getD_eq_getElem _ _ hlow, List.getD_eq_getElem _ _ hhigh]

lemma windowBytes_length (k : Scalar) : (windowBytes k).length = 33 := by
  rw [windowBytes, List.length_append, List.length_reverse]
  rfl

lemma within_digit (hpos : 0 < width) (h : width ≤ 8) (k : Scalar) (i : ℕ) :
    (digit width k i).Within (2 ^ width / 2) := by
  apply within_digits hpos h i k
  rw [digits_eq_map]
  exact List.mem_map_of_mem (List.mem_range.mpr (Nat.lt_succ_self i))

/-- The digits are the list that multiples are computed from, their weighted sum is the reduced
scalar, each has at most half of the place above it, and each window lies in the bytes. -/
structure Recoding (width count : ℕ) (k : Scalar) : Prop where
  digits_eq : digits width count k = (List.range count).map (digit width k)
  sum_eq : ∑ i ∈ Finset.range count, (digit width k i).value * 2 ^ (width * i) =
    (k.toNat % groupOrder.toNat : ℕ)
  abs_le : ∀ i, |(digit width k i).value| ≤ 2 ^ (width - 1)
  window_inside : ∀ i < count, 0 < i → window? (windowBytes k) (width * i) (windowMask width) =
    some (windowOf width k i)

/-- Any width serves whose digits reach past bit 255 with windows that begin no later. -/
theorem recoding (hpos : 0 < width) (h : width ≤ 8) {count : ℕ}
    (hcount : 256 < width * (count + 1)) (hlast : width * count ≤ 256) (k : Scalar) :
    Recoding width (count + 1) k where
  digits_eq := digits_eq_map width count k
  sum_eq := by
    rw [← digitSum_eq_sum, ← digits_eq_map, digitSum_digits hpos h hcount]
  abs_le i := by
    have hhalf : 2 ^ width / 2 = 2 ^ (width - 1) := by
      rw [← Nat.sub_add_cancel hpos, pow_succ, Nat.mul_div_cancel _ (by decide),
        Nat.add_sub_cancel]
    have hd := (within_digit hpos h k i).abs_value_le
    rwa [hhalf, Nat.cast_pow, Nat.cast_two] at hd
  window_inside i hi hzero := by
    have hplace : width * i ≤ 256 :=
      (Nat.mul_le_mul_left width (Nat.le_of_lt_succ hi)).trans hlast
    rw [windowOf_of_pos hzero]
    apply window?_eq_some
    rw [windowBytes_length]
    omega

/-- Both recodings restore every scalar, reduced or not, by digits that lie inside their tables. -/
theorem digits_restore_scalar (k : Scalar) :
    (windowBytes k).length = 33 ∧ Recoding 7 37 k ∧ Recoding 5 52 k ∧
    (∀ i < 37, (digit 7 k i).magnitude.toNat ≤ (GeneratorTable.full.rows.getD i []).length) ∧
    ∀ i < 52, ∀ q : JacobianPoint,
      (digit 5 k i).magnitude.toNat ≤ (WindowTable.ofPoint q).entries.length := by
  have hseven : Recoding 7 37 k := recoding (by decide) (by decide) (by decide) (by decide) k
  have hfive : Recoding 5 52 k := recoding (by decide) (by decide) (by decide) (by decide) k
  refine ⟨windowBytes_length k, hseven, hfive, fun i hi => ?_, fun i _ q => ?_⟩
  · rw [(GeneratorTable.full_row_holds hi).length]
    exact (within_digit (by decide) (by decide) k i).magnitude
  · rw [WindowTable.ofPoint_length]
    exact (within_digit (by decide) (by decide) k i).magnitude

/-- The scalar 2^256 - 1, which is not reduced, and its highest digits. -/
theorem digits_restore_scalar_max :
    ∑ i ∈ Finset.range 37, (digit 7 ⟨⟨-1, -1, -1, -1⟩⟩ i).value * 2 ^ (7 * i) =
        ((2 ^ 256 - 1) % groupOrder.toNat : ℕ) ∧
      ∑ i ∈ Finset.range 52, (digit 5 ⟨⟨-1, -1, -1, -1⟩⟩ i).value * 2 ^ (5 * i) =
        ((2 ^ 256 - 1) % groupOrder.toNat : ℕ) ∧
      window? (windowBytes ⟨⟨-1, -1, -1, -1⟩⟩) 252 0xFF =
        some (windowOf 7 ⟨⟨-1, -1, -1, -1⟩⟩ 36) ∧
      (digit 7 ⟨⟨-1, -1, -1, -1⟩⟩ 36).magnitude.toNat ≤
        (GeneratorTable.full.rows.getD 36 []).length ∧
      window? (windowBytes ⟨⟨-1, -1, -1, -1⟩⟩) 255 0x3F =
        some (windowOf 5 ⟨⟨-1, -1, -1, -1⟩⟩ 51) ∧
      (digit 5 ⟨⟨-1, -1, -1, -1⟩⟩ 51).magnitude.toNat ≤
        (WindowTable.ofPoint .generator).entries.length := by
  obtain ⟨-, hseven, hfive, hrow, hentry⟩ := digits_restore_scalar ⟨⟨-1, -1, -1, -1⟩⟩
  have hk : (⟨⟨-1, -1, -1, -1⟩⟩ : Scalar).toNat = 2 ^ 256 - 1 := by decide +kernel
  have hsumSeven := hseven.sum_eq
  have hsumFive := hfive.sum_eq
  rw [hk] at hsumSeven hsumFive
  exact ⟨hsumSeven, hsumFive, hseven.window_inside 36 (by decide) (by decide),
    hrow 36 (by decide), hfive.window_inside 51 (by decide) (by decide),
    hentry 51 (by decide) .generator⟩

end Scalar

end KoblitzCurve
