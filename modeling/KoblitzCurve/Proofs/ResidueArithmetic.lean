import Mathlib.Data.ZMod.Basic
import Mathlib.Tactic.Ring
import KoblitzCurve.Residue
import KoblitzCurve.Proofs.LimbArithmetic

/-! What the operations on residues compute, as natural numbers and as classes modulo m. Each of
them is exact on the operands for which its one subtraction or addition of the modulus is
enough; reduced operands always are such. -/
namespace KoblitzCurve

namespace Modulus

def toNat (m : Modulus) : Nat := m.limbs.toNat

theorem toNat_lt (m : Modulus) : m.toNat < 2 ^ 256 := m.limbs.toNat_lt

/-- The top word is full, so that all of 2^256 but less than 2^192 is below the modulus. -/
theorem le_toNat (m : Modulus) : 2 ^ 256 - 2 ^ 192 ≤ m.toNat := by
  have h : m.limbs.l3.toNat = 2 ^ 64 - 1 := by rw [m.top_full]; rfl
  simp only [toNat, Limbs.toNat, h]
  omega

theorem toNat_odd (m : Modulus) : m.toNat % 2 = 1 := by
  have h := congrArg UInt64.toNat m.odd
  rw [UInt64.toNat_and] at h
  have h' : m.limbs.l0.toNat % 2 = 1 := by
    rw [← Nat.and_one_is_mod]
    exact h
  simp only [toNat, Limbs.toNat]
  omega

theorem gap_toNat (m : Modulus) : m.gap.toNat + m.toNat = 2 ^ 256 := by
  have h := Limbs.subBorrow_toNat Limbs.zero m.limbs false
  have hb := Limbs.borrow_eq Limbs.zero m.limbs
  have hm : 0 < m.limbs.toNat := Nat.lt_of_lt_of_le (by decide) m.le_toNat
  rw [Limbs.zero_toNat, decide_eq_true hm] at hb
  rw [hb, Limbs.zero_toNat] at h
  simp only [gap, toNat]
  simpa using h

/-- Half of the modulus and one more do not reach 2^256, whatever the modulus is. -/
theorem halfUp_addCarry (m : Modulus) :
    m.limbs.halve.addCarry Limbs.one false = (m.halfUp, false) := by
  have hlt := m.limbs.toNat_lt
  refine Prod.ext rfl ?_
  rw [Limbs.carry_eq, Limbs.halve_toNat, Limbs.one_toNat]
  apply decide_eq_false
  omega

theorem halfUp_toNat (m : Modulus) : 2 * m.halfUp.toNat = m.toNat + 1 := by
  have hodd := m.toNat_odd
  have hsum := Limbs.addCarry_toNat m.limbs.halve Limbs.one false
  rw [halfUp_addCarry, Limbs.halve_toNat, Limbs.one_toNat, ← toNat] at hsum
  simp only [Bool.toNat_false] at hsum
  omega

end Modulus

namespace Residue
variable {m : Modulus} {a b : Residue m}

def toNat (a : Residue m) : Nat := a.limbs.toNat

theorem toNat_lt (a : Residue m) : a.toNat < 2 ^ 256 := a.limbs.toNat_lt

theorem toNat_injective {a b : Residue m} (h : a.toNat = b.toNat) : a = b := by
  obtain ⟨a⟩ := a
  obtain ⟨b⟩ := b
  exact congrArg mk (Limbs.toNat_injective h)

theorem zero_toNat : (zero : Residue m).toNat = 0 := rfl

theorem one_toNat : (one : Residue m).toNat = 1 := rfl

theorem ofWord_toNat (w : UInt64) : (ofWord w : Residue m).toNat = w.toNat :=
  Limbs.ofWord_toNat w

theorem compare_eq (a b : Residue m) : a.compare b = Ord.compare a.toNat b.toNat :=
  Limbs.compare_eq a.limbs b.limbs

/-- One subtraction is enough for every number of 256 bits. -/
theorem reduce_toNat (a : Residue m) : a.reduce.toNat = a.toNat % m.toNat := by
  have hs := Limbs.subBorrow_toNat a.limbs m.limbs false
  have hb := Limbs.borrow_eq a.limbs m.limbs
  have ha := a.limbs.toNat_lt
  have hm := m.le_toNat
  rw [reduce, Limbs.choose_fill, hb]
  simp only [toNat, Modulus.toNat, decide_eq_true_eq] at *
  by_cases h : a.limbs.toNat < m.limbs.toNat
  · rw [if_pos h, Nat.mod_eq_of_lt h]
  · rw [hb, decide_eq_false h] at hs
    rw [if_neg h, Nat.mod_eq_sub_mod (by omega), Nat.mod_eq_of_lt (by omega)]
    simp only [Bool.toNat_false] at hs
    omega

/-- A number below the modulus, the only one such in its class. -/
def Reduced (a : Residue m) : Prop := a.toNat < m.toNat

instance (a : Residue m) : Decidable a.Reduced := inferInstanceAs (Decidable (_ < _))

lemma modulus_pos (m : Modulus) : 0 < m.toNat := Nat.lt_of_lt_of_le (by decide) m.le_toNat

theorem reduced_zero : (zero : Residue m).Reduced := modulus_pos m

theorem reduced_reduce (a : Residue m) : a.reduce.Reduced := by
  rw [Reduced, reduce_toNat]
  exact Nat.mod_lt _ (modulus_pos m)

/-- A borrow that comes with the carry takes it up, and nothing is added back. -/
lemma carry_sub_borrow {c e : Bool} (h : c = true → e = true) :
    c.toUInt64 - e.toUInt64 = Word.fill (e && !c) := by
  cases c <;> cases e
  · rfl
  · rfl
  · exact absurd (h rfl) Bool.false_ne_true
  · rfl

/-- The difference of a sum and the modulus, and what the mask of carry less borrow adds to it. -/
lemma add_toNat_eq (a b : Residue m) :
    (a + b).toNat = (((a.toNat + b.toNat) % 2 ^ 256 + (2 ^ 256 - m.toNat)) % 2 ^ 256 +
      (m.limbs.keep ((decide (2 ^ 256 ≤ a.toNat + b.toNat)).toUInt64 -
        (decide ((a.toNat + b.toNat) % 2 ^ 256 < m.toNat)).toUInt64)).toNat) % 2 ^ 256 := by
  have hs : (a.limbs.addCarry b.limbs false).1.toNat = (a.toNat + b.toNat) % 2 ^ 256 :=
    Limbs.addCarry_fst_toNat _ _
  have hc : (a.limbs.addCarry b.limbs false).2 = decide (2 ^ 256 ≤ a.toNat + b.toNat) :=
    Limbs.carry_eq _ _
  have hd := Limbs.subBorrow_fst_toNat (a.limbs.addCarry b.limbs false).1 m.limbs
  have he := Limbs.borrow_eq (a.limbs.addCarry b.limbs false).1 m.limbs
  rw [hs, ← Modulus.toNat] at hd he
  change (add a b).toNat = _
  rw [add, hc, he]
  change (Limbs.addCarry _ _ _).1.toNat = _
  rw [Limbs.addCarry_fst_toNat, hd]

/-- The sum is exact below 2^256 + m: beyond, the difference still has a carry that no borrow
takes up. -/
theorem add_toNat (h : a.toNat + b.toNat < 2 ^ 256 + m.toNat) :
    (a + b).toNat =
      if a.toNat + b.toNat < m.toNat then a.toNat + b.toNat else a.toNat + b.toNat - m.toNat := by
  have hm := m.toNat_lt
  have ha := a.toNat_lt
  have hb := b.toNat_lt
  have hback : decide (2 ^ 256 ≤ a.toNat + b.toNat) = true →
      decide ((a.toNat + b.toNat) % 2 ^ 256 < m.toNat) = true := by
    rw [decide_eq_true_eq, decide_eq_true_eq]
    omega
  rw [add_toNat_eq, carry_sub_borrow hback, Limbs.keep_fill]
  simp only [Bool.and_eq_true, Bool.not_eq_true', decide_eq_true_eq, decide_eq_false_iff_not]
  rw [apply_ite Limbs.toNat, Limbs.zero_toNat, ← Modulus.toNat]
  split_ifs <;> omega

lemma sub_toNat_eq (a b : Residue m) :
    (a - b).toNat = ((a.toNat + (2 ^ 256 - b.toNat)) % 2 ^ 256 +
      if a.toNat < b.toNat then m.toNat else 0) % 2 ^ 256 := by
  have hd : (a.limbs.subBorrow b.limbs false).1.toNat =
      (a.toNat + (2 ^ 256 - b.toNat)) % 2 ^ 256 := Limbs.subBorrow_fst_toNat _ _
  have he : (a.limbs.subBorrow b.limbs false).2 = decide (a.toNat < b.toNat) :=
    Limbs.borrow_eq _ _
  change (Limbs.addCarry _ _ _).1.toNat = _
  rw [Limbs.addBack_toNat, hd, he, ← Modulus.toNat]
  simp only [decide_eq_true_eq]

theorem sub_toNat (h : b.toNat ≤ a.toNat + m.toNat) :
    (a - b).toNat =
      if b.toNat ≤ a.toNat then a.toNat - b.toNat else a.toNat + m.toNat - b.toNat := by
  have hm := m.toNat_lt
  have ha := a.toNat_lt
  have hb := b.toNat_lt
  rw [sub_toNat_eq]
  split_ifs <;> omega

private theorem lowBit_fill (a : Limbs) :
    0 - (a.l0 &&& 1) = Word.fill (decide (a.toNat % 2 = 1)) := by
  have hand : (a.l0 &&& 1).toNat = a.l0.toNat % 2 := by
    rw [UInt64.toNat_and]
    exact Nat.and_one_is_mod _
  have hmod : a.toNat % 2 = a.l0.toNat % 2 := by
    rw [Limbs.toNat]
    omega
  rw [hmod]
  rcases Nat.mod_two_eq_zero_or_one a.l0.toNat with h | h
  · rw [show a.l0 &&& 1 = 0 from UInt64.toNat_inj.mp (hand.trans h), h]
    rfl
  · rw [show a.l0 &&& 1 = 1 from UInt64.toNat_inj.mp (hand.trans h), h]
    rfl

/-- The mask of the lowest bit keeps the half of one for odd numbers alone. -/
private lemma halfUp_keep_toNat (a : Residue m) :
    (m.halfUp.keep (0 - (a.limbs.l0 &&& 1))).toNat =
      if a.toNat % 2 = 0 then 0 else m.halfUp.toNat := by
  rw [lowBit_fill, Limbs.keep_fill, apply_ite Limbs.toNat, Limbs.zero_toNat]
  change (if decide (a.toNat % 2 = 1) = true then m.halfUp.toNat else 0) = _
  simp only [decide_eq_true_eq]
  split_ifs <;> omega

/-- The sum of a halving carries nothing out of the top word. -/
theorem half_addCarry (a : Residue m) :
    a.limbs.halve.addCarry (m.halfUp.keep (0 - (a.limbs.l0 &&& 1))) false =
      (a.half.limbs, false) := by
  have hhalf := m.halfUp_toNat
  have hm := m.toNat_lt
  have ha := a.limbs.toNat_lt
  refine Prod.ext rfl ?_
  rw [Limbs.carry_eq, Limbs.halve_toNat, halfUp_keep_toNat]
  apply decide_eq_false
  split_ifs <;> omega

/-- An odd number becomes even with the modulus. -/
theorem half_toNat (a : Residue m) :
    a.half.toNat = if a.toNat % 2 = 0 then a.toNat / 2 else (a.toNat + m.toNat) / 2 := by
  have hhalf := m.halfUp_toNat
  have hsum := Limbs.addCarry_toNat a.limbs.halve (m.halfUp.keep (0 - (a.limbs.l0 &&& 1))) false
  rw [half_addCarry, Limbs.halve_toNat, halfUp_keep_toNat] at hsum
  simp only [Bool.toNat_false] at hsum
  change a.half.toNat + _ = a.toNat / 2 + _ + _ at hsum
  split_ifs at hsum ⊢ <;> omega

/-- The halves of even numbers are exact, and so are those of odd ones with the modulus. -/
theorem two_mul_half_toNat (a : Residue m) :
    2 * a.half.toNat = if a.toNat % 2 = 0 then a.toNat else a.toNat + m.toNat := by
  have hodd := m.toNat_odd
  rw [half_toNat]
  split_ifs <;> omega

private theorem gap_toNat_lt (m : Modulus) : m.gap.toNat < 2 ^ 192 := by
  have h := m.gap_toNat
  have hle := m.le_toNat
  have hodd := m.toNat_odd
  omega

/-- The first folding gives four words and a carry; the second takes up the carry. -/
private theorem fold_eq (m : Modulus) (d : Limbs) (h : UInt64) :
    ∃ t : Limbs, ∃ c : Bool, t.toNat + 2 ^ 256 * c.toNat = d.toNat + h.toNat * m.gap.toNat ∧
      fold d h = reduce (m := m) ⟨(t.addCarry (m.gap.keep (Word.fill c)) false).1⟩ := by
  refine ⟨_, _, ?_, rfl⟩
  have hlt := gap_toNat_lt m
  have htop : m.gap.l3.toNat = 0 := by
    rw [Limbs.toNat] at hlt
    omega
  have h0 := Word.mulAdd_toNat h m.gap.l0 d.l0 0
  generalize Word.mulAdd h m.gap.l0 d.l0 0 = t0 at *
  have h1 := Word.mulAdd_toNat h m.gap.l1 d.l1 t0.high
  generalize Word.mulAdd h m.gap.l1 d.l1 t0.high = t1 at *
  have h2 := Word.mulAdd_toNat h m.gap.l2 d.l2 t1.high
  generalize Word.mulAdd h m.gap.l2 d.l2 t1.high = t2 at *
  have h3 := Word.addCarry_toNat d.l3 t2.high false
  generalize Word.addCarry d.l3 t2.high false = t3 at *
  rw [Limbs.toNat, Limbs.toNat, Limbs.toNat, htop]
  simp only [WordPair.toNat, UInt64.toNat_zero, Bool.toNat_false, Nat.mul_zero, Nat.add_zero,
    Nat.mul_add, Nat.mul_left_comm h.toNat (2 ^ 64)] at *
  omega

/-- The second pass has room: what is left of a number that carried lies below its multiple of the
gap, and with the gap once more stays below 2^256. -/
private theorem second_pass_lt {t d h gap : ℕ} {c : Bool} (ht : t < 2 ^ 256) (hd : d < 2 ^ 256)
    (hh : h < 2 ^ 64) (hgap : gap < 2 ^ 192) (hsum : t + 2 ^ 256 * c.toNat = d + h * gap) :
    t + c.toNat * gap < 2 ^ 256 := by
  have hprod : h * gap ≤ (2 ^ 64 - 1) * (2 ^ 192 - 1) :=
    Nat.mul_le_mul (Nat.le_pred_of_lt hh) (Nat.le_pred_of_lt hgap)
  cases c
  · rw [Bool.toNat_false, Nat.zero_mul, Nat.add_zero]
    exact ht
  · rw [Bool.toNat_true] at hsum
    rw [Bool.toNat_true, Nat.one_mul]
    omega

/-- A folding in two passes and one subtraction: the first pass is exact with its carry, the second
one has none, and the number subtracted from is below twice the modulus. -/
theorem fold_passes (m : Modulus) (d : Limbs) (h : UInt64) :
    ∃ (t : Limbs) (c : Bool) (r : Residue m),
      t.toNat + 2 ^ 256 * c.toNat = d.toNat + h.toNat * m.gap.toNat ∧
      t.addCarry (m.gap.keep (Word.fill c)) false = (r.limbs, false) ∧
      r.toNat = t.toNat + c.toNat * m.gap.toNat ∧
      r.toNat < 2 * m.toNat ∧
      fold d h = r.reduce := by
  obtain ⟨t, c, hsum, hfold⟩ := fold_eq m d h
  have hlt := second_pass_lt t.toNat_lt d.toNat_lt h.toNat_lt (gap_toNat_lt m) hsum
  have hkeep : (m.gap.keep (Word.fill c)).toNat = c.toNat * m.gap.toNat := by
    rw [Limbs.keep_fill]
    cases c
    · exact (Nat.zero_mul _).symm
    · exact (Nat.one_mul _).symm
  have hcarry := Limbs.carry_eq t (m.gap.keep (Word.fill c))
  have hvalue := Limbs.addCarry_fst_toNat t (m.gap.keep (Word.fill c))
  rw [hkeep, decide_eq_false (Nat.not_le_of_lt hlt)] at hcarry
  rw [hkeep, Nat.mod_eq_of_lt hlt] at hvalue
  refine ⟨t, c, ⟨(t.addCarry (m.gap.keep (Word.fill c)) false).1⟩, hsum,
    Prod.ext rfl hcarry, hvalue, ?_, hfold⟩
  have hm := m.le_toNat
  rw [toNat, hvalue]
  omega

/-- Two foldings and one subtraction are enough for every word on top of every four. -/
theorem fold_toNat (d : Limbs) (h : UInt64) :
    (fold d h : Residue m).toNat = (d.toNat + 2 ^ 256 * h.toNat) % m.toNat := by
  obtain ⟨t, c, r, hsum, -, hr, -, hfold⟩ := fold_passes m d h
  have hgap := m.gap_toNat
  have hback : r.toNat + c.toNat * m.toNat = d.toNat + h.toNat * m.gap.toNat := by
    rw [hr, Nat.add_assoc, ← Nat.mul_add, hgap, Nat.mul_comm c.toNat, hsum]
  have hmod : d.toNat + 2 ^ 256 * h.toNat =
      d.toNat + h.toNat * m.gap.toNat + m.toNat * h.toNat := by
    rw [← hgap]
    ring
  rw [hfold, reduce_toNat, hmod, ← hback, Nat.add_mul_mod_self_left, Nat.add_mul_mod_self_right]

private theorem mulWord_eq (a : Residue m) (w : UInt64) :
    ∃ d : Limbs, ∃ h : UInt64, d.toNat + 2 ^ 256 * h.toNat = a.toNat * w.toNat ∧
      a.mulWord w = fold d h := by
  refine ⟨_, _, ?_, rfl⟩
  have h0 := Word.mul_toNat a.limbs.l0 w
  generalize Word.mul a.limbs.l0 w = p0 at *
  have h1 := Word.mulAdd_toNat a.limbs.l1 w p0.high 0
  generalize Word.mulAdd a.limbs.l1 w p0.high 0 = p1 at *
  have h2 := Word.mulAdd_toNat a.limbs.l2 w p1.high 0
  generalize Word.mulAdd a.limbs.l2 w p1.high 0 = p2 at *
  have h3 := Word.mulAdd_toNat a.limbs.l3 w p2.high 0
  generalize Word.mulAdd a.limbs.l3 w p2.high 0 = p3 at *
  simp only [WordPair.toNat, UInt64.toNat_zero, Nat.add_zero, toNat, Limbs.toNat, Nat.add_mul,
    Nat.mul_assoc] at *
  omega

theorem mulWord_toNat (a : Residue m) (w : UInt64) :
    (a.mulWord w).toNat = a.toNat * w.toNat % m.toNat := by
  obtain ⟨d, h, hsum, hfold⟩ := mulWord_eq a w
  rw [hfold, fold_toNat, hsum]

def toZMod (a : Residue m) : ZMod m.toNat := (a.toNat : ZMod m.toNat)

/-- The residue that holds the number, taken modulo 2^256. -/
def ofNat (n : ℕ) : Residue m :=
  ofWords (.ofNat n) (.ofNat (n / 2 ^ 64)) (.ofNat (n / 2 ^ 128)) (.ofNat (n / 2 ^ 192))

theorem ofNat_toNat {n : ℕ} (h : n < 2 ^ 256) : (ofNat n : Residue m).toNat = n := by
  simp only [ofNat, ofWords, toNat, Limbs.toNat, UInt64.toNat_ofNat']
  omega

lemma toZMod_eq_iff : a.toZMod = b.toZMod ↔ a.toNat % m.toNat = b.toNat % m.toNat :=
  ZMod.natCast_eq_natCast_iff' _ _ _

theorem eq_of_toZMod_eq (ha : a.Reduced) (hb : b.Reduced) (h : a.toZMod = b.toZMod) : a = b := by
  rw [toZMod_eq_iff, Nat.mod_eq_of_lt ha, Nat.mod_eq_of_lt hb] at h
  exact toNat_injective h

/-- A reduced number is the only one below the modulus in its class. -/
theorem eq_toNat_iff (ha : a.Reduced) {v : ZMod m.toNat} (h : a.toZMod = v) (r : ℕ) :
    r = a.toNat ↔ r < m.toNat ∧ (r : ZMod m.toNat) = v := by
  subst h
  refine ⟨fun hr => hr ▸ ⟨ha, rfl⟩, fun ⟨hlt, hclass⟩ => ?_⟩
  have hmod := (ZMod.natCast_eq_natCast_iff' _ _ _).mp hclass
  rwa [Nat.mod_eq_of_lt hlt, Nat.mod_eq_of_lt ha] at hmod

lemma toZMod_zero : (zero : Residue m).toZMod = 0 := Nat.cast_zero

theorem toZMod_reduce (a : Residue m) : a.reduce.toZMod = a.toZMod := by
  rw [toZMod, reduce_toNat, ZMod.natCast_mod, toZMod]

theorem toZMod_add (h : a.toNat + b.toNat < 2 ^ 256 + m.toNat) :
    (a + b).toZMod = a.toZMod + b.toZMod := by
  rw [toZMod, toZMod, toZMod, add_toNat h]
  split_ifs with hlt
  · push_cast
    rfl
  · rw [Nat.cast_sub (Nat.le_of_not_lt hlt), ZMod.natCast_self, sub_zero]
    push_cast
    rfl

theorem toZMod_sub (h : b.toNat ≤ a.toNat + m.toNat) : (a - b).toZMod = a.toZMod - b.toZMod := by
  rw [toZMod, toZMod, toZMod, sub_toNat h]
  split_ifs with hle
  · exact Nat.cast_sub hle
  · rw [Nat.cast_sub h, Nat.cast_add, ZMod.natCast_self, add_zero]

theorem toZMod_neg (h : a.toNat ≤ m.toNat) : (-a).toZMod = -a.toZMod := by
  change (zero - a).toZMod = _
  rw [toZMod_sub (by rw [zero_toNat]; omega), toZMod_zero, zero_sub]

theorem two_mul_toZMod_half (a : Residue m) : 2 * a.half.toZMod = a.toZMod := by
  have hcast : 2 * a.half.toZMod = ((2 * a.half.toNat : ℕ) : ZMod m.toNat) := by
    rw [Nat.cast_mul, Nat.cast_two, toZMod]
  rw [hcast, two_mul_half_toNat]
  split_ifs
  · rw [toZMod]
  · rw [Nat.cast_add, ZMod.natCast_self, add_zero, toZMod]

theorem toZMod_mulWord (a : Residue m) (w : UInt64) :
    (a.mulWord w).toZMod = a.toZMod * (w.toNat : ZMod m.toNat) := by
  rw [toZMod, mulWord_toNat, ZMod.natCast_mod, Nat.cast_mul, toZMod]

namespace Reduced

lemma add_lt (ha : a.Reduced) (b : Residue m) : a.toNat + b.toNat < 2 ^ 256 + m.toNat :=
  Nat.add_comm (2 ^ 256) m.toNat ▸ Nat.add_lt_add ha b.toNat_lt

lemma le_add (hb : b.Reduced) (a : Residue m) : b.toNat ≤ a.toNat + m.toNat :=
  (Nat.le_of_lt hb).trans (Nat.le_add_left _ _)

theorem add (ha : a.Reduced) (hb : b.Reduced) : (a + b).Reduced := by
  rw [Reduced, add_toNat (ha.add_lt b)]
  rw [Reduced] at ha hb
  split_ifs <;> omega

theorem sub (ha : a.Reduced) (hb : b.Reduced) : (a - b).Reduced := by
  rw [Reduced, sub_toNat (hb.le_add a)]
  rw [Reduced] at ha hb
  split_ifs <;> omega

theorem neg (ha : a.Reduced) : (-a).Reduced := reduced_zero.sub ha

theorem double (ha : a.Reduced) : a.double.Reduced := ha.add ha

theorem triple (ha : a.Reduced) : a.triple.Reduced := (ha.add ha).add ha

theorem half (ha : a.Reduced) : a.half.Reduced := by
  rw [Reduced, half_toNat]
  rw [Reduced] at ha
  split_ifs <;> omega

end Reduced

theorem reduced_mulWord (a : Residue m) (w : UInt64) : (a.mulWord w).Reduced := by
  rw [Reduced, mulWord_toNat]
  exact Nat.mod_lt _ (modulus_pos m)

theorem toZMod_triple (ha : a.Reduced) : a.triple.toZMod = 3 * a.toZMod := by
  rw [triple, toZMod_add ((ha.add ha).add_lt a), toZMod_add (ha.add_lt a)]
  ring

end Residue

end KoblitzCurve
