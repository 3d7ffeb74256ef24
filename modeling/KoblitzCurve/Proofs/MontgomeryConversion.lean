import KoblitzCurve.Proofs.MontgomeryDomain

/-! Conversion into the Montgomery domain and out of it. Both directions reduce whatever they are
given, they are inverse to each other on reduced numbers, and the operations that need no other
form inside the domain give the same words before and after a conversion. -/
namespace KoblitzCurve.Residue

theorem reduced_toMont (a : FieldElement) : a.toMont.Reduced := reduced_montMul a _

theorem reduced_fromMont (a : FieldElement) : a.fromMont.Reduced := reduced_montMul a _

/-- A number enters the domain as the element that its class is. -/
theorem toMont_holds (a : FieldElement) : a.toMont.Holds a.toZMod :=
  ⟨reduced_toMont a, element_toMont a⟩

lemma eq_toMont_iff {a b : FieldElement} {v : BaseField} (ha : a.Holds v) :
    b.toMont = a ↔ b.toZMod = v := (toMont_holds b).eq_iff ha

/-- A number leaves the domain as the reduced number of the element that it stands for. -/
theorem fromMont_toNat {a : FieldElement} {n : ℕ} (h : a.element = n) :
    a.fromMont.toNat = n % fieldModulus.toNat := by
  have hclass : (a.fromMont.toNat : BaseField) = n := (toZMod_fromMont a).trans h
  have hmod := (ZMod.natCast_eq_natCast_iff' _ _ _).mp hclass
  rwa [Nat.mod_eq_of_lt (reduced_fromMont a)] at hmod

/-- A reduced number comes back from a way out of the domain and in again. -/
theorem toMont_fromMont {a : FieldElement} (ha : a.Reduced) : a.fromMont.toMont = a :=
  (eq_toMont_iff ha.holds).mpr (toZMod_fromMont a)

theorem fromMont_inj {a b : FieldElement} : a.fromMont = b.fromMont ↔ a.element = b.element := by
  rw [← toZMod_fromMont, ← toZMod_fromMont]
  exact ⟨congrArg toZMod, eq_of_toZMod_eq (reduced_fromMont a) (reduced_fromMont b)⟩

lemma toMont_one : (one : FieldElement).toMont = montOne := by
  rw [eq_toMont_iff Holds.montOne, toZMod, one_toNat, Nat.cast_one]

lemma toZMod_half (a : FieldElement) : a.half.toZMod = a.toZMod / 2 := by
  rw [eq_div_iff two_ne_zero_baseField, mul_comm, two_mul_toZMod_half]

/-- The conversions are a ring isomorphism of the reduced numbers with those of the Montgomery
domain, for which reduced and other operands may be given alike. -/
theorem montgomery_conversion :
    (∀ x : FieldElement, x.toMont.fromMont.toNat = x.toNat % fieldModulus.toNat) ∧
    (∀ x : FieldElement, x.fromMont.toMont.toNat = x.toNat % fieldModulus.toNat) ∧
    (∀ x y : FieldElement, (x.toMont.montMul y.toMont).fromMont.toNat =
      x.toNat * y.toNat % fieldModulus.toNat) ∧
    (one : FieldElement).toMont = montOne ∧
    (∀ x y : FieldElement, x.Reduced → y.Reduced → (x + y).toMont = x.toMont + y.toMont) ∧
    (∀ x y : FieldElement, x.Reduced → y.Reduced → (x - y).toMont = x.toMont - y.toMont) ∧
    (∀ x : FieldElement, x.Reduced → (-x).toMont = -x.toMont) ∧
    (∀ x : FieldElement, x.half.toMont = x.toMont.half) ∧
    (∀ (x : FieldElement) (w : UInt64), (x.mulWord w).toMont = x.toMont.mulWord w) := by
  refine ⟨?_, ?_, ?_, toMont_one, ?_, ?_, ?_, ?_, ?_⟩
  · intro x
    exact fromMont_toNat (element_toMont x)
  · intro x
    have hback : x.fromMont.toMont = x.reduce := by
      refine (eq_toMont_iff (reduced_reduce x).holds).mpr ?_
      rw [toZMod_fromMont, element, element, toZMod_reduce]
    rw [hback, reduce_toNat]
  · intro x y
    apply fromMont_toNat
    rw [element_montMul, element_toMont, element_toMont, Nat.cast_mul]
    rfl
  · intro x y hx _
    rw [eq_toMont_iff ((toMont_holds x).add (toMont_holds y)), toZMod_add (hx.add_lt y)]
  · intro x y _ hy
    rw [eq_toMont_iff ((toMont_holds x).sub (toMont_holds y)), toZMod_sub (hy.le_add x)]
  · intro x hx
    rw [eq_toMont_iff (toMont_holds x).neg, toZMod_neg (Nat.le_of_lt hx)]
  · intro x
    rw [eq_toMont_iff (toMont_holds x).half, toZMod_half]
  · intro x w
    rw [eq_toMont_iff ((toMont_holds x).mulWord w), toZMod_mulWord]

/-- The largest reduced number and one, whose sum wraps to zero, and a number that is not
reduced. -/
theorem montgomery_conversion_neg_one :
    (-one : FieldElement).Reduced ∧ (one : FieldElement).Reduced ∧
      (-one + one : FieldElement).toMont = (-one).toMont + one.toMont ∧
      (one - -one : FieldElement).toMont = one.toMont - (-one).toMont ∧
      (- -one : FieldElement).toMont = -(-one).toMont ∧
      (⟨⟨-1, -1, -1, -1⟩⟩ : FieldElement).toMont.fromMont.toNat =
        (2 ^ 256 - 1) % fieldModulus.toNat := by
  obtain ⟨hinverse, -, -, -, hadd, hsub, hneg, -, -⟩ := montgomery_conversion
  have hone : (one : FieldElement).Reduced := by decide
  have hminus : (-one : FieldElement).Reduced := hone.neg
  have hfull : (⟨⟨-1, -1, -1, -1⟩⟩ : FieldElement).toNat = 2 ^ 256 - 1 := by decide +kernel
  refine ⟨hminus, hone, hadd _ _ hminus hone, hsub _ _ hone hminus, hneg _ hminus, ?_⟩
  rw [hinverse, hfull]

end KoblitzCurve.Residue
