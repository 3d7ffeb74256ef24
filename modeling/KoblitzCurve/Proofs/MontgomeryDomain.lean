import Mathlib.Algebra.Field.ZMod
import Mathlib.Data.Nat.Digits.Defs
import Mathlib.Tactic.LinearCombination
import Mathlib.Tactic.Linarith
import KoblitzCurve.Proofs.PrimeModuli
import KoblitzCurve.Proofs.WideArithmetic

/-! The Montgomery domain as a copy of the base field. A product is reduced whatever its operands
are, and every residue stands for the element that its class is after division by 2^256; products,
sums, differences and halves of residues stand for those of their elements. -/
namespace KoblitzCurve

namespace Montgomery

/-- The number of these words, the least significant one first. -/
def wordNumber (words : List UInt64) : ℕ := Nat.ofDigits (2 ^ 64) (words.map UInt64.toNat)

lemma wordNumber_nil : wordNumber [] = 0 := rfl

lemma wordNumber_cons (w : UInt64) (rest : List UInt64) :
    wordNumber (w :: rest) = w.toNat + 2 ^ 64 * wordNumber rest := rfl

lemma wordNumber_append (low high : List UInt64) :
    wordNumber (low ++ high) = wordNumber low + 2 ^ (64 * low.length) * wordNumber high := by
  simp only [wordNumber, List.map_append, Nat.ofDigits_append, List.length_map, pow_mul]

lemma wordNumber_lt (words : List UInt64) : wordNumber words < 2 ^ (64 * words.length) := by
  have h := Nat.ofDigits_lt_base_pow_length (b := 2 ^ 64) (l := words.map UInt64.toNat) (by decide)
    fun d hd => by
      obtain ⟨w, -, rfl⟩ := List.mem_map.mp hd
      exact w.toNat_lt
  rwa [List.length_map, ← pow_mul] at h

lemma wordNumber_toList (a : Limbs) : wordNumber a.toList = a.toNat := rfl

def Window.toNat (r : Window) : Nat := r.limbs.toNat + 2 ^ 256 * r.carry.toNat

lemma Window.toNat_clear (a : Limbs) : Window.toNat ⟨a, false⟩ = a.toNat := rfl

/-- What makes the window divisible by 2^64 when that multiple of p is added. -/
def Window.multiplier (r : Window) : UInt64 := r.limbs.l0 * fieldNegInverse

/-- The multipliers of the steps that read these words one after the other. -/
def multipliers : Window → List UInt64 → List UInt64
  | _, [] => []
  | r, w :: rest => r.multiplier :: multipliers (step r w) rest

lemma multipliers_length (r : Window) (words : List UInt64) :
    (multipliers r words).length = words.length := by
  induction words generalizing r with
  | nil => rfl
  | cons w rest ih => simp only [multipliers, List.length_cons, ih]

lemma fieldNegInverse_mul : fieldNegInverse * fieldModulus.limbs.l0 + 1 = 0 := by decide

private theorem lowest_cleared (r : Window) :
    (r.multiplier.toNat * fieldModulus.limbs.l0.toNat + r.limbs.l0.toNat) % 2 ^ 64 = 0 := by
  have h : r.limbs.l0 * fieldNegInverse * fieldModulus.limbs.l0 + r.limbs.l0 = 0 := by
    have := congrArg (r.limbs.l0 * ·) fieldNegInverse_mul
    simp only [UInt64.mul_add, UInt64.mul_zero, UInt64.mul_one] at this
    rw [UInt64.mul_assoc]
    exact this
  have h' := congrArg UInt64.toNat h
  rw [UInt64.toNat_add, UInt64.toNat_mul, Nat.mod_add_mod] at h'
  exact h'

/-- The lowest word, which a step drops, is zero by then. -/
theorem Window.dropped_eq_zero (r : Window) :
    (Word.mulAdd r.multiplier fieldModulus.limbs.l0 r.limbs.l0 0).low = 0 := by
  have hc := lowest_cleared r
  have h := Word.mulAdd_toNat r.multiplier fieldModulus.limbs.l0 r.limbs.l0 0
  have hl := (Word.mulAdd r.multiplier fieldModulus.limbs.l0 r.limbs.l0 0).low.toNat_lt
  rw [WordPair.toNat, UInt64.toNat_zero] at h
  apply UInt64.toNat_inj.mp
  rw [UInt64.toNat_zero]
  omega

/-- A step adds a multiple of p to the window with its new word on top, and divides by 2^64
without remainder. -/
theorem step_toNat (r : Window) (next : UInt64) :
    2 ^ 64 * (step r next).toNat = r.toNat + 2 ^ 256 * next.toNat +
      r.multiplier.toNat * fieldModulus.toNat := by
  have hc := congrArg UInt64.toNat r.dropped_eq_zero
  simp only [step, Window.toNat, Modulus.toNat, Limbs.toNat]
  rw [← Window.multiplier]
  generalize r.multiplier = f at *
  generalize fieldModulus.limbs = p at *
  have h0 := Word.mulAdd_toNat f p.l0 r.limbs.l0 0
  generalize Word.mulAdd f p.l0 r.limbs.l0 0 = u0 at *
  have h1 := Word.mulAdd_toNat f p.l1 r.limbs.l1 u0.high
  generalize Word.mulAdd f p.l1 r.limbs.l1 u0.high = u1 at *
  have h2 := Word.mulAdd_toNat f p.l2 r.limbs.l2 u1.high
  generalize Word.mulAdd f p.l2 r.limbs.l2 u1.high = u2 at *
  have h3 := Word.mulAdd_toNat f p.l3 r.limbs.l3 u2.high
  generalize Word.mulAdd f p.l3 r.limbs.l3 u2.high = u3 at *
  have hs := Word.addCarry_toNat next u3.high r.carry
  simp only [WordPair.toNat, UInt64.toNat_zero, Nat.add_zero] at hc h0 h1 h2 h3
  simp only [Nat.mul_add, Nat.mul_left_comm f.toNat (2 ^ 64)]
  omega

/-- Steps one after the other divide by a power of 2^64. The multiples of p that they add come
together as one, with a word for each step. -/
theorem foldl_step_toNat (r : Window) (words : List UInt64) :
    2 ^ (64 * words.length) * (words.foldl step r).toNat =
      r.toNat + 2 ^ 256 * wordNumber words +
        wordNumber (multipliers r words) * fieldModulus.toNat := by
  induction words generalizing r with
  | nil => simp [multipliers, wordNumber_nil]
  | cons w rest ih =>
    have hstep := step_toNat r w
    have hrest := ih (step r w)
    rw [List.length_cons, List.foldl_cons, multipliers, wordNumber_cons, wordNumber_cons,
      Nat.mul_succ, pow_add]
    linear_combination hstep + 2 ^ 64 * hrest

/-- The four steps together: a multiple of p below 2^256 p is added, and the sum divided. -/
theorem divide_toNat (t : WideLimbs) :
    ∃ f < 2 ^ 256, 2 ^ 256 * (divide t).toNat = t.toNat + f * fieldModulus.toNat := by
  have hlt := wordNumber_lt (multipliers ⟨t.low, false⟩ t.high.toList)
  rw [multipliers_length] at hlt
  have h := foldl_step_toNat ⟨t.low, false⟩ t.high.toList
  rw [Window.toNat_clear, wordNumber_toList] at h
  exact ⟨_, hlt, h⟩

lemma divide_toNat_lt (t : WideLimbs) : (divide t).toNat < 2 ^ 256 + fieldModulus.toNat := by
  obtain ⟨f, hf, h⟩ := divide_toNat t
  have ht := t.toNat_lt
  rw [fieldModulus_toNat] at h ⊢
  omega

/-- Offsets α and β above p with a quotient 2 p + γ, of which γ c = α β would follow. -/
private theorem offsets_absurd {p c α β γ f : ℤ} (hc : c * c < p) (hα : 0 ≤ α ∧ α < c)
    (hβ : 0 ≤ β ∧ β < c) (hγ : 0 ≤ γ ∧ γ < c) (hf : f < p + c)
    (h : (p + c) * (2 * p + γ) = (p + α) * (p + β) + f * p) : False := by
  have hdvd : p ∣ c * γ - α * β := ⟨f + α + β - p - γ - 2 * c, by linear_combination h⟩
  have habs : |c * γ - α * β| < p := by
    rw [abs_lt]
    constructor <;> nlinarith
  have heq : c * γ = α * β := sub_eq_zero.mp (Int.eq_zero_of_abs_lt_dvd hdvd habs)
  have hf' : f = p + γ + 2 * c - α - β := by
    have hp : p ≠ 0 := by nlinarith
    apply mul_right_cancel₀ hp
    linear_combination heq - h
  have hlt : c * (γ + c) < c * (α + β) := by
    apply mul_lt_mul_of_pos_left <;> linarith
  nlinarith [mul_nonneg (sub_nonneg.mpr hα.2.le) (sub_nonneg.mpr hβ.2.le)]

/-- The quotient of a product stays below 2 p although the product may reach p (p + c): both
factors would have to exceed p, and by too little. -/
theorem quotient_lt {p c x y f r : ℕ} (hc : c * c < p) (hx : x < p + c) (hy : y < p + c)
    (hf : f < p + c) (h : (p + c) * r = x * y + f * p) : r < 2 * p := by
  by_contra hr
  obtain ⟨γ, rfl⟩ := Nat.exists_eq_add_of_le (Nat.le_of_not_lt hr)
  have hge {u v : ℕ} (hv : v < p + c) (h : (p + c) * (2 * p + γ) = u * v + f * p) : p ≤ u := by
    by_contra hlt
    have huv : u * v ≤ p * v := Nat.mul_le_mul_right v (Nat.le_of_not_le hlt)
    nlinarith
  obtain ⟨α, rfl⟩ := Nat.exists_eq_add_of_le (hge hy h)
  obtain ⟨β, rfl⟩ := Nat.exists_eq_add_of_le (hge hx (by rw [h, Nat.mul_comm (p + α)]))
  have hγ : γ < c := by
    by_contra hle
    nlinarith
  exact @offsets_absurd p c α β γ f (by exact_mod_cast hc) (by omega) (by omega) (by omega)
    (by omega) (by exact_mod_cast h)

end Montgomery

namespace Residue
open Montgomery

theorem ofWide_toNat (t : WideLimbs) :
    (ofWide t).toNat = if (divide t).toNat < fieldModulus.toNat then (divide t).toNat
      else (divide t).toNat - fieldModulus.toNat := by
  have hlt := divide_toNat_lt t
  have hm := fieldModulus.toNat_lt
  have hr := (divide t).limbs.toNat_lt
  change (Limbs.addCarry _ _ _).1.toNat = _
  rw [Limbs.addBack_toNat, Limbs.subBorrow_fst_toNat, Limbs.borrow_eq, ← Modulus.toNat]
  rw [Window.toNat] at hlt ⊢
  generalize (divide t).carry = c at *
  cases c
  · simp only [Bool.toNat_false, Bool.not_false, Bool.and_true, decide_eq_true_eq] at *
    split_ifs <;> omega
  · simp only [Bool.toNat_true, Bool.not_true, Bool.and_false, Bool.false_eq_true, if_false] at *
    split_ifs <;> omega

lemma reduced_ofWide {t : WideLimbs} (h : (divide t).toNat < 2 * fieldModulus.toNat) :
    (ofWide t).Reduced := by
  rw [Reduced, ofWide_toNat]
  split_ifs <;> omega

lemma montMul_toNat_eq (a b : FieldElement) :
    ∃ f < 2 ^ 256, 2 ^ 256 * (divide (WideLimbs.product a.limbs b.limbs)).toNat =
      a.toNat * b.toNat + f * fieldModulus.toNat := by
  have h := divide_toNat (WideLimbs.product a.limbs b.limbs)
  rwa [WideLimbs.product_toNat] at h

/-- The quotient of a product is below 2 p for any two factors. -/
theorem divide_product_lt (a b : FieldElement) :
    (divide (WideLimbs.product a.limbs b.limbs)).toNat < 2 * fieldModulus.toNat := by
  obtain ⟨f, hf, h⟩ := montMul_toNat_eq a b
  have hsum : 2 ^ 256 = fieldModulus.toNat + (2 ^ 32 + 977) := by
    rw [fieldModulus_toNat]
    norm_num
  have ha := a.toNat_lt
  have hb := b.toNat_lt
  have hc : (2 ^ 32 + 977) * (2 ^ 32 + 977) < fieldModulus.toNat := by
    rw [fieldModulus_toNat]
    norm_num
  rw [hsum] at h ha hb hf
  exact quotient_lt hc ha hb hf h

theorem reduced_montMul (a b : FieldElement) : (a.montMul b).Reduced :=
  reduced_ofWide (divide_product_lt a b)

theorem montSquare_eq (a : FieldElement) : a.montSquare = a.montMul a := by
  rw [montSquare, montMul, WideLimbs.square_eq_product]

theorem reduced_montSquare (a : FieldElement) : a.montSquare.Reduced := by
  rw [montSquare_eq]
  exact reduced_montMul a a

end Residue

abbrev BaseField := ZMod fieldModulus.toNat

lemma two_ne_zero_baseField : (2 : BaseField) ≠ 0 := by decide

lemma radix_ne_zero : (2 : BaseField) ^ 256 ≠ 0 := pow_ne_zero _ two_ne_zero_baseField

namespace Residue
open Montgomery
variable {a b : FieldElement}

/-- The element of the base field that a number in the Montgomery domain stands for. -/
def element (a : FieldElement) : BaseField := a.toZMod / 2 ^ 256

lemma toZMod_eq_element (a : FieldElement) : a.toZMod = a.element * 2 ^ 256 :=
  (div_mul_cancel₀ _ radix_ne_zero).symm

lemma element_zero : (zero : FieldElement).element = 0 := by
  rw [element, toZMod_zero, zero_div]

theorem toZMod_ofWide (t : WideLimbs) : (ofWide t).toZMod * 2 ^ 256 = (t.toNat : BaseField) := by
  obtain ⟨f, -, h⟩ := divide_toNat t
  have hr : (ofWide t).toZMod = ((divide t).toNat : BaseField) := by
    rw [toZMod, ofWide_toNat]
    split_ifs with hlt
    · rfl
    · rw [Nat.cast_sub (Nat.le_of_not_lt hlt), ZMod.natCast_self, sub_zero]
  have hcast := congrArg (Nat.cast : ℕ → BaseField) h
  rw [Nat.cast_mul, Nat.cast_add, Nat.cast_mul, ZMod.natCast_self, mul_zero, add_zero] at hcast
  rw [hr, mul_comm, ← hcast, Nat.cast_pow, Nat.cast_two]

theorem toZMod_montMul (a b : FieldElement) :
    (a.montMul b).toZMod * 2 ^ 256 = a.toZMod * b.toZMod := by
  have h := toZMod_ofWide (WideLimbs.product a.limbs b.limbs)
  rwa [WideLimbs.product_toNat, Nat.cast_mul] at h

theorem element_montMul (a b : FieldElement) :
    (a.montMul b).element = a.element * b.element := by
  rw [element, element, element, div_mul_div_comm, ← toZMod_montMul,
    mul_div_mul_right _ _ radix_ne_zero]

lemma element_montSquare (a : FieldElement) : a.montSquare.element = a.element ^ 2 := by
  rw [montSquare_eq, element_montMul, sq]

theorem element_montSquares (a : FieldElement) (n : ℕ) :
    (a.montSquares n).element = a.element ^ 2 ^ n := by
  induction n generalizing a with
  | zero => rw [montSquares, pow_zero, pow_one]
  | succ n ih => rw [montSquares, ih, element_montSquare, ← pow_mul, ← pow_succ']

theorem reduced_montSquares (ha : a.Reduced) (n : ℕ) : (a.montSquares n).Reduced := by
  induction n generalizing a with
  | zero => exact ha
  | succ n ih => exact ih (reduced_montSquare a)

theorem element_montOne : (montOne : FieldElement).element = 1 := by
  have h : (montOne : FieldElement).toZMod = 2 ^ 256 := by decide +kernel
  rw [element, h, div_self radix_ne_zero]

theorem reduced_montOne : montOne.Reduced := by decide

theorem element_toMont (a : FieldElement) : a.toMont.element = a.toZMod := by
  have h : montRadix.toZMod = 2 ^ 256 * 2 ^ 256 := by decide +kernel
  rw [toMont, element_montMul, element, element, h, mul_div_cancel_right₀ _ radix_ne_zero,
    div_mul_cancel₀ _ radix_ne_zero]

theorem toZMod_fromMont (a : FieldElement) : a.fromMont.toZMod = a.element := by
  have h : (one : FieldElement).element = 1 / 2 ^ 256 := by
    rw [element, toZMod, one_toNat, Nat.cast_one]
  rw [toZMod_eq_element, fromMont, element_montMul, h, mul_assoc,
    div_mul_cancel₀ _ radix_ne_zero, mul_one]

theorem element_add (ha : a.Reduced) : (a + b).element = a.element + b.element := by
  rw [element, toZMod_add (ha.add_lt b), add_div, element, element]

theorem element_sub (hb : b.Reduced) : (a - b).element = a.element - b.element := by
  rw [element, toZMod_sub (hb.le_add a), sub_div, element, element]

theorem element_neg (ha : a.Reduced) : (-a).element = -a.element := by
  rw [element, toZMod_neg (Nat.le_of_lt ha), neg_div, element]

theorem element_triple (ha : a.Reduced) : a.triple.element = 3 * a.element := by
  rw [element, toZMod_triple ha, mul_div_assoc, element]

theorem element_half (a : FieldElement) : a.half.element = a.element / 2 := by
  rw [eq_div_iff two_ne_zero_baseField, mul_comm, element, ← mul_div_assoc, two_mul_toZMod_half,
    element]

theorem element_mulWord (a : FieldElement) (w : UInt64) :
    (a.mulWord w).element = a.element * (w.toNat : BaseField) := by
  rw [element, toZMod_mulWord, mul_div_right_comm, element]

/-- A reduced number that stands for the given element. -/
structure Holds (a : FieldElement) (v : BaseField) : Prop where
  reduced : a.Reduced
  element_eq : a.element = v

namespace Holds
variable {v w : BaseField}

theorem montMul (ha : a.Holds v) (hb : b.Holds w) : (a.montMul b).Holds (v * w) :=
  ⟨reduced_montMul a b, by rw [element_montMul, ha.element_eq, hb.element_eq]⟩

theorem montSquare (ha : a.Holds v) : a.montSquare.Holds (v ^ 2) :=
  ⟨reduced_montSquare a, by rw [element_montSquare, ha.element_eq]⟩

theorem add (ha : a.Holds v) (hb : b.Holds w) : (a + b).Holds (v + w) :=
  ⟨ha.reduced.add hb.reduced, by rw [element_add ha.reduced, ha.element_eq, hb.element_eq]⟩

theorem sub (ha : a.Holds v) (hb : b.Holds w) : (a - b).Holds (v - w) :=
  ⟨ha.reduced.sub hb.reduced, by rw [element_sub hb.reduced, ha.element_eq, hb.element_eq]⟩

theorem neg (ha : a.Holds v) : (-a).Holds (-v) :=
  ⟨ha.reduced.neg, by rw [element_neg ha.reduced, ha.element_eq]⟩

theorem double (ha : a.Holds v) : a.double.Holds (v + v) := ha.add ha

theorem triple (ha : a.Holds v) : a.triple.Holds (3 * v) :=
  ⟨ha.reduced.triple, by rw [element_triple ha.reduced, ha.element_eq]⟩

theorem half (ha : a.Holds v) : a.half.Holds (v / 2) :=
  ⟨ha.reduced.half, by rw [element_half, ha.element_eq]⟩

theorem mulWord (ha : a.Holds v) (n : UInt64) : (a.mulWord n).Holds (v * (n.toNat : BaseField)) :=
  ⟨reduced_mulWord a n, by rw [element_mulWord, ha.element_eq]⟩

theorem eq_iff (ha : a.Holds v) (hb : b.Holds w) : a = b ↔ v = w := by
  rw [← ha.element_eq, ← hb.element_eq]
  refine ⟨congrArg element, fun h => eq_of_toZMod_eq ha.reduced hb.reduced ?_⟩
  rw [toZMod_eq_element, toZMod_eq_element, h]

theorem zero : (zero : FieldElement).Holds 0 := ⟨reduced_zero, element_zero⟩

theorem montOne : (montOne : FieldElement).Holds 1 := ⟨reduced_montOne, element_montOne⟩

theorem eq_zero_iff (ha : a.Holds v) : a = Residue.zero ↔ v = 0 := ha.eq_iff zero

end Holds

lemma Reduced.holds (ha : a.Reduced) : a.Holds a.element := ⟨ha, rfl⟩

end Residue

end KoblitzCurve
