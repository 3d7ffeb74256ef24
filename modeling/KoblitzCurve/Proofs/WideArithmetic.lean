import KoblitzCurve.WideLimbs
import KoblitzCurve.Proofs.LimbArithmetic

/-! The values of numbers of eight words. Products and squares of numbers of four words are exact:
no carry between the words is lost. -/
namespace KoblitzCurve.WideLimbs

def toNat (t : WideLimbs) : Nat := t.low.toNat + 2 ^ 256 * t.high.toNat

theorem toNat_lt (t : WideLimbs) : t.toNat < 2 ^ 512 := by
  have hl := t.low.toNat_lt
  have hh := t.high.toNat_lt
  simp only [toNat]
  omega

theorem toNat_injective {s t : WideLimbs} (h : s.toNat = t.toNat) : s = t := by
  have hs := s.low.toNat_lt
  have ht := t.low.toNat_lt
  obtain ⟨sl, sh⟩ := s
  obtain ⟨tl, th⟩ := t
  simp only [toNat] at h hs ht
  rw [Limbs.toNat_injective (show sl.toNat = tl.toNat by omega),
    Limbs.toNat_injective (show sh.toNat = th.toNat by omega)]

theorem add_toNat (s t : WideLimbs) : (s.add t).toNat = (s.toNat + t.toNat) % 2 ^ 512 := by
  have hl := Limbs.addCarry_toNat s.low t.low false
  have hh := Limbs.addCarry_toNat s.high t.high (s.low.addCarry t.low false).2
  have ha := (s.add t).toNat_lt
  simp only [add, toNat, Bool.toNat_false] at *
  omega

theorem ofPairs_toNat (p q r s : WordPair) : (ofPairs p q r s).toNat =
    p.toNat + 2 ^ 128 * q.toNat + 2 ^ 256 * r.toNat + 2 ^ 384 * s.toNat := by
  simp only [ofPairs, toNat, Limbs.toNat, WordPair.toNat]
  omega

theorem ofPairsAtOne_toNat (p q r : WordPair) : (ofPairsAtOne p q r).toNat =
    2 ^ 64 * p.toNat + 2 ^ 192 * q.toNat + 2 ^ 320 * r.toNat := by
  simp only [ofPairsAtOne, toNat, Limbs.toNat, WordPair.toNat, UInt64.toNat_zero]
  omega

theorem ofPairsAtTwo_toNat (p q : WordPair) :
    (ofPairsAtTwo p q).toNat = 2 ^ 128 * p.toNat + 2 ^ 256 * q.toNat := by
  simp only [ofPairsAtTwo, toNat, Limbs.toNat, WordPair.toNat, UInt64.toNat_zero]
  omega

theorem ofSumAtThree_toNat (p q : WordPair) :
    (ofSumAtThree p q).toNat = 2 ^ 192 * (p.toNat + q.toNat) := by
  have hl := Word.addCarry_toNat p.low q.low false
  have hh := Word.addCarry_toNat p.high q.high (Word.addCarry p.low q.low false).2
  simp only [ofSumAtThree, toNat, Limbs.toNat, WordPair.toNat, UInt64.toNat_zero,
    Word.carry_toNat, Bool.toNat_false] at *
  omega

theorem twice_toNat (t : WideLimbs) : t.twice.toNat = 2 * t.toNat % 2 ^ 512 := by
  have h0 : (t.low.l0 <<< 1).toNat = 2 * t.low.l0.toNat % 2 ^ 64 := by
    simp [Nat.shiftLeft_eq, Nat.mul_comm]
  have := t.low.l0.toNat_lt
  have := t.low.l1.toNat_lt
  have := t.low.l2.toNat_lt
  have := t.low.l3.toNat_lt
  have := t.high.l0.toNat_lt
  have := t.high.l1.toNat_lt
  have := t.high.l2.toNat_lt
  have := t.high.l3.toNat_lt
  simp only [twice, toNat, Limbs.toNat, Word.shiftUp_toNat, h0]
  omega

/-- The product of two sums of four terms, by the words that it reaches up. -/
private theorem mul_words (a0 a1 a2 a3 b0 b1 b2 b3 : Nat) :
    (a0 + 2 ^ 64 * (a1 + 2 ^ 64 * (a2 + 2 ^ 64 * a3))) *
        (b0 + 2 ^ 64 * (b1 + 2 ^ 64 * (b2 + 2 ^ 64 * b3))) =
      a0 * b0 + 2 ^ 64 * (a0 * b1 + a1 * b0) + 2 ^ 128 * (a0 * b2 + a1 * b1 + a2 * b0) +
        2 ^ 192 * (a0 * b3 + a1 * b2 + a2 * b1 + a3 * b0) +
        2 ^ 256 * (a1 * b3 + a2 * b2 + a3 * b1) + 2 ^ 320 * (a2 * b3 + a3 * b2) +
        2 ^ 384 * (a3 * b3) := by
  simp only [Nat.add_mul, Nat.mul_add, Nat.mul_assoc, Nat.mul_left_comm _ (2 ^ 64)]
  omega

/-- The products of words that stand side by side when no two of them overlap. -/
def diagonal (a b : Limbs) : WideLimbs :=
  ofPairs (Word.mul a.l0 b.l0) (Word.mul a.l1 b.l1) (Word.mul a.l2 b.l2) (Word.mul a.l3 b.l3)

/-- The other products, in the groups in which they are added to the diagonal. -/
def offDiagonal (a b : Limbs) : List WideLimbs :=
  [ofPairsAtOne (Word.mul a.l0 b.l1) (Word.mul a.l0 b.l3) (Word.mul a.l2 b.l3),
    ofPairsAtOne (Word.mul a.l1 b.l0) (Word.mul a.l3 b.l0) (Word.mul a.l3 b.l2),
    ofPairsAtTwo (Word.mul a.l0 b.l2) (Word.mul a.l1 b.l3),
    ofPairsAtTwo (Word.mul a.l2 b.l0) (Word.mul a.l3 b.l1),
    ofSumAtThree (Word.mul a.l1 b.l2) (Word.mul a.l2 b.l1)]

lemma product_eq_foldl (a b : Limbs) : product a b = (offDiagonal a b).foldl add (diagonal a b) :=
  rfl

lemma diagonal_add_offDiagonal (a b : Limbs) :
    (diagonal a b).toNat + ((offDiagonal a b).map toNat).sum = a.toNat * b.toNat := by
  rw [Limbs.toNat, Limbs.toNat, mul_words]
  simp only [diagonal, offDiagonal, List.map_cons, List.map_nil, List.sum_cons, List.sum_nil,
    ofPairs_toNat, ofPairsAtOne_toNat, ofPairsAtTwo_toNat, ofSumAtThree_toNat, Word.mul_toNat]
  omega

/-- As long as the total fits into eight words, no sum on the way loses a carry. -/
theorem foldl_add_toNat {t : WideLimbs} {ts : List WideLimbs}
    (h : t.toNat + (ts.map toNat).sum < 2 ^ 512) :
    (ts.foldl add t).toNat = t.toNat + (ts.map toNat).sum := by
  induction ts generalizing t with
  | nil => simp
  | cons s rest ih =>
    rw [List.map_cons, List.sum_cons, ← Nat.add_assoc] at h
    have hadd : (t.add s).toNat = t.toNat + s.toNat := by
      rw [add_toNat, Nat.mod_eq_of_lt (Nat.lt_of_le_of_lt (Nat.le_add_right _ _) h)]
    rw [List.foldl_cons, ih (by rwa [hadd]), hadd, List.map_cons, List.sum_cons, Nat.add_assoc]

private theorem mul_lt (a b : Limbs) : a.toNat * b.toNat < 2 ^ 512 := by
  have ha := a.toNat_lt
  exact Nat.lt_of_le_of_lt (Nat.mul_le_mul_left _ (Nat.le_of_lt b.toNat_lt)) (by omega)

theorem product_toNat (a b : Limbs) : (product a b).toNat = a.toNat * b.toNat := by
  rw [product_eq_foldl, foldl_add_toNat, diagonal_add_offDiagonal]
  rw [diagonal_add_offDiagonal]
  exact mul_lt a b

/-- After any number of the groups, what has been summed up is exact. -/
theorem product_partial_toNat (a b : Limbs) (i : Nat) :
    (((offDiagonal a b).take i).foldl add (diagonal a b)).toNat =
      (diagonal a b).toNat + (((offDiagonal a b).take i).map toNat).sum := by
  have hsplit : (((offDiagonal a b).take i).map toNat).sum +
      (((offDiagonal a b).drop i).map toNat).sum = ((offDiagonal a b).map toNat).sum := by
    rw [← List.sum_append, ← List.map_append, List.take_append_drop]
  have htotal := diagonal_add_offDiagonal a b
  have hlt := mul_lt a b
  apply foldl_add_toNat
  omega

theorem crossProducts_toNat (a : Limbs) : (crossProducts a).toNat =
    2 ^ 64 * (a.l0.toNat * a.l1.toNat) + 2 ^ 128 * (a.l0.toNat * a.l2.toNat) +
      2 ^ 192 * (a.l0.toNat * a.l3.toNat + a.l1.toNat * a.l2.toNat) +
      2 ^ 256 * (a.l1.toNat * a.l3.toNat) + 2 ^ 320 * (a.l2.toNat * a.l3.toNat) := by
  have h1 := Word.mul_toNat a.l0 a.l1
  have h2 := fun c => Word.mulAdd_toNat a.l0 a.l2 c 0
  have h3 := fun c => Word.mulAdd_toNat a.l0 a.l3 c 0
  have k3 := fun c => Word.mulAdd_toNat a.l1 a.l2 c 0
  have k4 := fun c d => Word.mulAdd_toNat a.l1 a.l3 c d
  have k5 := fun c => Word.mulAdd_toNat a.l2 a.l3 c 0
  simp only [WordPair.toNat, UInt64.toNat_zero, Nat.add_zero] at h1 h2 h3 k3 k4 k5
  simp only [crossProducts, toNat, Limbs.toNat, UInt64.toNat_zero, ← h1]
  generalize Word.mul a.l0 a.l1 = r1 at *
  have h2 := h2 r1.high
  generalize Word.mulAdd a.l0 a.l2 r1.high 0 = r2 at *
  have h3 := h3 r2.high
  generalize Word.mulAdd a.l0 a.l3 r2.high 0 = r3 at *
  have k3 := k3 r3.low
  generalize Word.mulAdd a.l1 a.l2 r3.low 0 = s3 at *
  have k4 := k4 r3.high s3.high
  generalize Word.mulAdd a.l1 a.l3 r3.high s3.high = s4 at *
  have k5 := k5 s4.high
  omega

/-- The products of two different words twice, and the squares of the words, make up the square. -/
lemma two_mul_crossProducts_add (a : Limbs) :
    2 * (crossProducts a).toNat + (diagonal a a).toNat = a.toNat * a.toNat := by
  rw [Limbs.toNat, mul_words, crossProducts_toNat, diagonal, ofPairs_toNat]
  simp only [Word.mul_toNat, Nat.mul_comm a.l1.toNat a.l0.toNat,
    Nat.mul_comm a.l2.toNat a.l0.toNat, Nat.mul_comm a.l2.toNat a.l1.toNat,
    Nat.mul_comm a.l3.toNat a.l0.toNat, Nat.mul_comm a.l3.toNat a.l1.toNat,
    Nat.mul_comm a.l3.toNat a.l2.toNat]
  omega

/-- No bit leaves the eight words when the products of different words are doubled. -/
theorem twice_crossProducts_toNat (a : Limbs) :
    (crossProducts a).twice.toNat = 2 * (crossProducts a).toNat := by
  have hsum := two_mul_crossProducts_add a
  have hlt := mul_lt a a
  rw [twice_toNat, Nat.mod_eq_of_lt (by omega)]

lemma square_eq_add (a : Limbs) : square a = (crossProducts a).twice.add (diagonal a a) := rfl

theorem square_toNat (a : Limbs) : (square a).toNat = a.toNat * a.toNat := by
  rw [square_eq_add, add_toNat, twice_crossProducts_toNat, two_mul_crossProducts_add,
    Nat.mod_eq_of_lt (mul_lt a a)]

/-- The two ways to a square agree in every word. -/
theorem square_eq_product (a : Limbs) : square a = product a a :=
  toNat_injective (by rw [square_toNat, product_toNat])

end KoblitzCurve.WideLimbs
