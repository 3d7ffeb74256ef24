import KoblitzCurve.Proofs.ExactSums

/-! Operations with one word. A product by a word leaves one word above the four, which is folded in
as a multiple of the gap. What this carries out is folded in again and carries no further; the number
is then below twice the modulus, so that one subtraction reduces it. -/
namespace KoblitzCurve.Residue
variable {m : Modulus}

theorem addWord_toNat (a : Residue m) (w : UInt64) :
    (a.addWord w).toNat = (a.toNat + w.toNat) % m.toNat := by
  have hsum := Limbs.addCarry_toNat a.limbs (Limbs.ofWord w) false
  rw [Limbs.ofWord_toNat, Bool.toNat_false, Nat.add_zero] at hsum
  rw [addWord, fold_toNat, Word.carry_toNat, hsum]
  rfl

theorem reduced_addWord (a : Residue m) (w : UInt64) : (a.addWord w).Reduced := by
  rw [Reduced, addWord_toNat]
  exact Nat.mod_lt _ (modulus_pos m)

lemma reduced_ofWord (w : UInt64) : (ofWord w : Residue m).Reduced := by
  have hw := w.toNat_lt
  have hm := m.le_toNat
  rw [Reduced, ofWord_toNat]
  omega

theorem subWord_modEq (a : Residue m) (w : UInt64) :
    ((a.subWord w).toNat : ℤ) ≡ a.toNat - w.toNat [ZMOD m.toNat] := by
  have h := (sub_modEq_iff a (ofWord w)).mpr ((reduced_ofWord w).le_add a)
  rwa [ofWord_toNat] at h

/-- Products and sums with a word are exact and reduced for every number, as the reduction is.
Differences are in their class, and reduced for reduced numbers. Two passes and one subtraction fold
any word on top of any four words. -/
theorem word_operands_exact (a : Residue m) (w : UInt64) :
    (a.mulWord w).toNat = a.toNat * w.toNat % m.toNat ∧
    (a.addWord w).toNat = (a.toNat + w.toNat) % m.toNat ∧
    a.reduce.toNat = a.toNat % m.toNat ∧
    (a.mulWord w).Reduced ∧ (a.addWord w).Reduced ∧ a.reduce.Reduced ∧
    ((a.subWord w).toNat : ℤ) ≡ a.toNat - w.toNat [ZMOD m.toNat] ∧
    (a.Reduced → (a.subWord w).Reduced) ∧
    ∀ (d : Limbs) (h : UInt64),
      (fold d h : Residue m).toNat = (d.toNat + 2 ^ 256 * h.toNat) % m.toNat ∧
      ∃ (t : Limbs) (c : Bool) (r : Residue m),
        t.toNat + 2 ^ 256 * c.toNat = d.toNat + h.toNat * m.gap.toNat ∧
        t.addCarry (m.gap.keep (Word.fill c)) false = (r.limbs, false) ∧
        r.toNat = t.toNat + c.toNat * m.gap.toNat ∧
        r.toNat < 2 * m.toNat ∧
        fold d h = r.reduce := by
  refine ⟨mulWord_toNat a w, addWord_toNat a w, reduce_toNat a, reduced_mulWord a w,
    reduced_addWord a w, reduced_reduce a, subWord_modEq a w, fun ha => ?_, fun d h => ?_⟩
  · exact ha.sub (reduced_ofWord w)
  · exact ⟨fold_toNat d h, fold_passes m d h⟩

/-- At the smallest modulus, which has the widest gap, with the largest word: the largest number and
a reduced one below the word. -/
theorem word_operands_exact_least :
    ((⟨⟨-1, -1, -1, -1⟩⟩ : Residue .least).mulWord (-1)).toNat =
        (2 ^ 256 - 1) * (2 ^ 64 - 1) % Modulus.least.toNat ∧
      (fold ⟨-1, -1, -1, -1⟩ (-1) : Residue .least).toNat =
        (2 ^ 256 - 1 + 2 ^ 256 * (2 ^ 64 - 1)) % Modulus.least.toNat ∧
      (one : Residue .least).Reduced ∧ ((one : Residue .least).subWord (-1)).Reduced ∧
      (((one : Residue .least).subWord (-1)).toNat : ℤ) ≡ 1 - (2 ^ 64 - 1)
        [ZMOD Modulus.least.toNat] := by
  obtain ⟨hproduct, -, -, -, -, -, -, -, hfold⟩ :=
    word_operands_exact (⟨⟨-1, -1, -1, -1⟩⟩ : Residue .least) (-1)
  obtain ⟨-, -, -, -, -, -, hdifference, hreduced, -⟩ :=
    word_operands_exact (one : Residue .least) (-1)
  have hone : (one : Residue .least).Reduced := by decide
  exact ⟨hproduct, (hfold _ _).1, hone, hreduced hone, hdifference⟩

end KoblitzCurve.Residue
