import Mathlib.GroupTheory.OrderOfElement
import KoblitzCurve.Proofs.AffinePoints

/-! The order of the generator. A climb along the bits of a number, by doubling and adding, is
carried out on natural numbers and refuses the sums that its formula leaves out; it reaches the
point at infinity at the group order, which is prime. -/
namespace KoblitzCurve
open JacobianPoint CurveGroup

namespace OrderClimb

/-- Coordinates as natural numbers, of which only the classes modulo p matter. -/
structure Numbers where
  x : ℕ
  y : ℕ
  z : ℕ

namespace Numbers

def triple (s : Numbers) : Triple := ![(s.x : BaseField), (s.y : BaseField), (s.z : BaseField)]

lemma triple_zero (s : Numbers) : s.triple 0 = s.x := rfl

lemma triple_one (s : Numbers) : s.triple 1 = s.y := rfl

lemma triple_two (s : Numbers) : s.triple 2 = s.z := rfl

def minus (a b : ℕ) : ℕ := (a + (fieldModulus.toNat - b % fieldModulus.toNat)) % fieldModulus.toNat

def times (a b : ℕ) : ℕ := a * b % fieldModulus.toNat

lemma cast_minus (a b : ℕ) : (minus a b : BaseField) = a - b := by
  have hle : b % fieldModulus.toNat ≤ fieldModulus.toNat :=
    (Nat.mod_lt b (Residue.modulus_pos _)).le
  rw [minus, ZMod.natCast_mod, Nat.cast_add, Nat.cast_sub hle, ZMod.natCast_self, ZMod.natCast_mod,
    zero_sub, ← sub_eq_add_neg]

lemma cast_times (a b : ℕ) : (times a b : BaseField) = a * b := by
  rw [times, ZMod.natCast_mod, Nat.cast_mul]

def double (s : Numbers) : Numbers :=
  let yy := times (2 * s.y) (2 * s.y)
  let m := 3 * times s.x s.x
  let v := times yy s.x
  let x := minus (times m m) (2 * v)
  ⟨x, minus (times (minus v x) m) (8 * times (times s.y s.y) (times s.y s.y)), times (2 * s.y) s.z⟩

lemma triple_double (s : Numbers) : s.double.triple = CurveGroup.double s.triple := by
  rw [CurveGroup.double, triple_zero, triple_one, triple_two]
  simp only [triple, double, cast_minus, cast_times, Nat.cast_mul, Nat.cast_ofNat]
  apply triple_congr
  · ring
  · ring
  · ring

/-- The sum of two different finite points, and `none` for any others. -/
def chord? (s t : Numbers) : Option Numbers :=
  let u1 := times s.x (times t.z t.z)
  let s1 := times (times s.y (times t.z t.z)) t.z
  let h := minus (times t.x (times s.z s.z)) u1
  let r := minus (times (times t.y (times s.z s.z)) s.z) s1
  let hhh := times (times h h) h
  let v := times u1 (times h h)
  let x := minus (minus (times r r) hhh) (2 * v)
  if s.z % fieldModulus.toNat ≠ 0 ∧ t.z % fieldModulus.toNat ≠ 0 ∧ (h ≠ 0 ∨ r ≠ 0) then
    some ⟨x, minus (times r (minus v x)) (times s1 hhh), times (times h s.z) t.z⟩
  else none

lemma cast_ne_zero {a : ℕ} (h : a % fieldModulus.toNat ≠ 0) : (a : BaseField) ≠ 0 := by
  intro hzero
  exact h (Nat.mod_eq_zero_of_dvd ((ZMod.natCast_eq_zero_iff a _).mp hzero))

lemma cast_minus_ne_zero {a b : ℕ} (h : minus a b ≠ 0) : (a : BaseField) ≠ b := by
  intro heq
  have hne : (minus a b : BaseField) ≠ 0 := cast_ne_zero (by rwa [minus, Nat.mod_mod, ← minus])
  exact hne (by rw [cast_minus, heq, sub_self])

lemma triple_chord? {s t w : Numbers} (h : s.chord? t = some w) :
    w.triple = CurveGroup.chord s.triple t.triple ∧ s.triple 2 ≠ 0 ∧ t.triple 2 ≠ 0 ∧
      ¬(s.triple 0 * t.triple 2 ^ 2 = t.triple 0 * s.triple 2 ^ 2 ∧
        s.triple 1 * t.triple 2 ^ 3 = t.triple 1 * s.triple 2 ^ 3) := by
  simp only [chord?] at h
  split_ifs at h with hfin
  cases h
  obtain ⟨hs, ht, hne⟩ := hfin
  refine ⟨?_, cast_ne_zero hs, cast_ne_zero ht, ?_⟩
  · rw [CurveGroup.chord]
    simp only [triple_zero, triple_one, triple_two]
    simp only [triple, cast_minus, cast_times, Nat.cast_mul, Nat.cast_ofNat]
    apply triple_congr
    · ring
    · ring
    · ring
  · simp only [triple_zero, triple_one, triple_two]
    rintro ⟨hx, hy⟩
    rcases hne with h | h
    · have hx' := cast_minus_ne_zero h
      simp only [cast_times] at hx'
      exact hx' (by linear_combination -hx)
    · have hy' := cast_minus_ne_zero h
      simp only [cast_times] at hy'
      exact hy' (by linear_combination -hy)

/-- The numbers stand for a point of the curve. -/
structure StandFor (s : Numbers) (P : CurvePoint) : Prop where
  onCurve : OnCurve s.triple
  toPoint_eq : toPoint s.triple = P

lemma StandFor.double {s : Numbers} {P : CurvePoint} (hs : s.StandFor P) :
    s.double.StandFor (P + P) := by
  obtain ⟨hcurve, hpoint⟩ := toPoint_double hs.onCurve
  rw [← triple_double] at hcurve hpoint
  exact ⟨hcurve, by rw [hpoint, hs.toPoint_eq]⟩

lemma StandFor.chord? {s t w : Numbers} {P Q : CurvePoint} (hs : s.StandFor P)
    (ht : t.StandFor Q) (h : s.chord? t = some w) : w.StandFor (P + Q) := by
  obtain ⟨htriple, hzs, hzt, hne⟩ := triple_chord? h
  obtain ⟨hcurve, hpoint⟩ := toPoint_chord hs.onCurve ht.onCurve hzs hzt hne
  rw [← htriple] at hcurve hpoint
  exact ⟨hcurve, by rw [hpoint, hs.toPoint_eq, ht.toPoint_eq]⟩

end Numbers

def climb (base : Numbers) : List Bool → ℕ → Numbers → Option (ℕ × Numbers)
  | [], n, s => some (n, s)
  | false :: rest, n, s => climb base rest (2 * n) s.double
  | true :: rest, n, s =>
    match s.double.chord? base with
    | some t => climb base rest (2 * n + 1) t
    | none => none

def base : Numbers :=
  ⟨0x79BE667EF9DCBBAC55A06295CE870B07029BFCDB2DCE28D959F2815B16F81798,
    0x483ADA7726A3C4655DA4FBFC0E1108A8FD17B448A68554199C47D08FFB10D4B8, 1⟩

/-- The bits below the top one. -/
def bitsBelowTop (n : ℕ) : List Bool := (List.range (Nat.log2 n)).reverse.map n.testBit

lemma climb_groupOrder : (climb base (bitsBelowTop groupOrder.toNat) 1 base).any
    (fun s => s.1 = groupOrder.toNat ∧ s.2.z % fieldModulus.toNat = 0) = true := by
  decide +kernel

lemma climb_standFor {b t : Numbers} {P : CurvePoint} (hb : b.StandFor P) (bits : List Bool)
    {n m : ℕ} {s : Numbers} (hs : s.StandFor (n • P)) (h : climb b bits n s = some (m, t)) :
    t.StandFor (m • P) := by
  induction bits generalizing n s with
  | nil =>
    cases h
    exact hs
  | cons bit rest ih =>
    have hdouble := hs.double
    rw [← add_nsmul, ← Nat.two_mul] at hdouble
    cases bit with
    | false => exact ih hdouble h
    | true =>
      rw [climb] at h
      cases hc : s.double.chord? b with
      | none =>
        rw [hc] at h
        contradiction
      | some w =>
        rw [hc] at h
        have hsum := hdouble.chord? hb hc
        rw [← succ_nsmul] at hsum
        exact ih hsum h

lemma base_standFor : base.StandFor generator.toCurve := by
  have hx : generator.x.element = (base.x : BaseField) := by
    rw [Residue.element, div_eq_iff radix_ne_zero]
    decide +kernel
  have hy : generator.y.element = (base.y : BaseField) := by
    rw [Residue.element, div_eq_iff radix_ne_zero]
    decide +kernel
  have hz : generator.z.element = (base.z : BaseField) := by
    rw [base, Nat.cast_one]
    exact Residue.element_montOne
  have htriple : generator.triple = base.triple := triple_congr hx hy hz
  refine ⟨?_, ?_⟩
  · rw [← htriple]
    exact represents_generator.onCurve
  · rw [← htriple]
    rfl

end OrderClimb
open OrderClimb

theorem groupOrder_nsmul_generator : groupOrder.toNat • generator.toCurve = 0 := by
  have hclimb := climb_groupOrder
  cases h : climb base (bitsBelowTop groupOrder.toNat) 1 base with
  | none =>
    rw [h] at hclimb
    contradiction
  | some s =>
    obtain ⟨m, t⟩ := s
    rw [h] at hclimb
    obtain ⟨hm, hz⟩ := of_decide_eq_true hclimb
    have hbase : base.StandFor (1 • generator.toCurve) := by
      rw [one_nsmul]
      exact base_standFor
    have ht := climb_standFor base_standFor _ hbase h
    have hz0 : t.triple 2 = 0 := (ZMod.natCast_eq_zero_iff _ _).mpr (Nat.dvd_of_mod_eq_zero hz)
    dsimp only at hm
    rw [← hm, ← ht.toPoint_eq, toPoint_of_zero hz0]

theorem generator_ne_zero : generator.toCurve ≠ 0 := by
  rw [Ne, ← represents_generator.z_eq_zero_iff]
  decide

theorem addOrderOf_generator : addOrderOf generator.toCurve = groupOrder.toNat :=
  addOrderOf_eq_prime groupOrder_nsmul_generator generator_ne_zero

theorem nsmul_generator_eq_iff (a b : ℕ) :
    a • generator.toCurve = b • generator.toCurve ↔ a ≡ b [MOD groupOrder.toNat] := by
  rw [nsmul_eq_nsmul_iff_modEq, addOrderOf_generator]

end KoblitzCurve
