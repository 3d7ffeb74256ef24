import Mathlib.NumberTheory.LucasPrimality
import Mathlib.Tactic.NormNum.Prime
import KoblitzCurve.FieldElement
import KoblitzCurve.SignedDigits
import KoblitzCurve.Proofs.ResidueArithmetic

/-! The modulus of the base field and the order of the group are prime. A chain of certificates
leads to each of them: a number q is certified by the factors of q - 1, known to be prime from
before, and a residue of order q - 1. Trial division starts the chains. -/
namespace KoblitzCurve

namespace PrimeModuli

/-- The power `a ^ n` modulo `m`, for an exponent of at most `bits` bits. -/
def powMod (m a : ℕ) : ℕ → ℕ → ℕ
  | 0, _ => 1
  | bits + 1, n =>
    let r := powMod m a bits (n / 2)
    if n % 2 = 0 then r * r % m else r * r % m * a % m

lemma powMod_modEq (m a : ℕ) {bits n : ℕ} (h : n < 2 ^ bits) :
    powMod m a bits n ≡ a ^ n [MOD m] := by
  induction bits generalizing n with
  | zero =>
    obtain rfl : n = 0 := by omega
    rfl
  | succ bits ih =>
    have hr := ih (n := n / 2) (by omega)
    have hsq := (Nat.mod_modEq _ _).trans (hr.mul hr)
    rw [← pow_add] at hsq
    simp only [powMod]
    split_ifs with hn
    · rwa [show n / 2 + n / 2 = n by omega] at hsq
    · have hodd := (Nat.mod_modEq _ _).trans (hsq.mul_right a)
      rwa [← pow_succ, show n / 2 + n / 2 + 1 = n by omega] at hodd

lemma pow_eq_one_iff {q a bits n : ℕ} (hq : 1 < q) (h : n < 2 ^ bits) :
    (a : ZMod q) ^ n = 1 ↔ powMod q a bits n % q = 1 := by
  rw [powMod_modEq q a h, ← Nat.cast_pow, ← Nat.cast_one, ZMod.natCast_eq_natCast_iff',
    Nat.mod_eq_of_lt hq]

/-- A number with a residue of order one less, and the factors of that order with their
exponents. -/
structure Certificate where
  number : ℕ
  root : ℕ
  factors : List (ℕ × ℕ)

/-- Lucas's test for numbers of at most 256 bits, with all factors among the known primes. -/
def Certificate.passes (known : List ℕ) (c : Certificate) : Bool :=
  1 < c.number && c.number - 1 < 2 ^ 256 &&
    (c.factors.map fun f => f.1 ^ f.2).prod == c.number - 1 &&
    powMod c.number c.root 256 (c.number - 1) % c.number == 1 &&
    c.factors.all fun f => known.contains f.1 &&
      powMod c.number c.root 256 ((c.number - 1) / f.1) % c.number != 1

theorem Certificate.prime {known : List ℕ} {c : Certificate} (hknown : ∀ q ∈ known, q.Prime)
    (h : c.passes known = true) : c.number.Prime := by
  simp only [passes, Bool.and_eq_true, decide_eq_true_eq, beq_iff_eq, List.all_eq_true,
    bne_iff_ne, List.contains_iff_mem] at h
  obtain ⟨⟨⟨⟨hlt, hbits⟩, hprod⟩, hone⟩, hfactor⟩ := h
  refine lucas_primality c.number c.root ((pow_eq_one_iff hlt hbits).mpr hone) ?_
  intro q hq hdvd
  rw [← hprod] at hdvd
  obtain ⟨r, hr, hqr⟩ := hq.prime.dvd_prod_iff.mp hdvd
  obtain ⟨f, hf, rfl⟩ := List.mem_map.mp hr
  obtain ⟨hmem, hne⟩ := hfactor f hf
  have hqf : q = f.1 :=
    (Nat.prime_dvd_prime_iff_eq hq (hknown _ hmem)).mp (hq.dvd_of_dvd_pow hqr)
  rw [Ne, pow_eq_one_iff hlt (lt_of_le_of_lt (Nat.div_le_self _ _) hbits), hqf]
  exact hne

/-- The certificates in turn, each with the numbers certified before it among the known ones. -/
def passAll : List ℕ → List Certificate → Bool
  | _, [] => true
  | known, c :: rest => c.passes known && passAll (c.number :: known) rest

theorem prime_of_passAll {known : List ℕ} {chain : List Certificate} {c : Certificate}
    (hknown : ∀ q ∈ known, q.Prime) (h : passAll known chain = true) (hc : c ∈ chain) :
    c.number.Prime := by
  induction chain generalizing known with
  | nil => exact absurd hc List.not_mem_nil
  | cons d rest ih =>
    simp only [passAll, Bool.and_eq_true] at h
    have hd := d.prime hknown h.1
    rcases List.mem_cons.mp hc with rfl | hc
    · exact hd
    · exact ih (List.forall_mem_cons.mpr ⟨hd, hknown⟩) h.2 hc

def smallPrimes : List ℕ :=
  [2, 3, 5, 7, 11, 17, 29, 31, 41, 53, 59, 109, 149, 293, 461, 631, 797, 971, 1373, 1627, 2621,
    2657, 4051, 4423, 5323, 7723, 9349, 13441, 16699, 24809, 28181, 41201, 85831, 96557, 120233,
    305873, 1627771, 4681609, 7240687]

lemma smallPrimes_prime : ∀ q ∈ smallPrimes, q.Prime := by norm_num [smallPrimes]

def fieldCertificate : Certificate :=
  ⟨115792089237316195423570985008687907853269984665640564039457584007908834671663, 3,
    [(2, 1), (3, 1), (7, 1), (13441, 1),
      (205115282021455665897114700593932402728804164701536103180137503955397371, 1)]⟩

def fieldChain : List Certificate :=
  [⟨13331831, 13, [(2, 1), (5, 1), (971, 1), (1373, 1)]⟩,
    ⟨173378833005251801, 6, [(2, 3), (5, 2), (2621, 1), (24809, 1), (13331831, 1)]⟩,
    ⟨22149492674086928081353, 5, [(2, 3), (3, 1), (5323, 1), (173378833005251801, 1)]⟩,
    ⟨132896956044521568488119, 6, [(2, 1), (3, 1), (22149492674086928081353, 1)]⟩,
    ⟨107590001, 3, [(2, 4), (5, 4), (7, 1), (29, 1), (53, 1)]⟩,
    ⟨255515944373312847190720520512484175977, 3,
      [(2, 3), (7, 2), (11, 1), (1627, 1), (2657, 1), (4423, 1), (41201, 1), (96557, 1),
        (7240687, 1), (107590001, 1)]⟩,
    ⟨205115282021455665897114700593932402728804164701536103180137503955397371, 10,
      [(2, 1), (3, 1), (5, 1), (29, 2), (31, 1), (7723, 1), (132896956044521568488119, 1),
        (255515944373312847190720520512484175977, 1)]⟩,
    fieldCertificate]

def orderCertificate : Certificate :=
  ⟨115792089237316195423570985008687907852837564279074904382605163141518161494337, 7,
    [(2, 6), (3, 1), (149, 1), (631, 1), (107361793816595537, 1), (174723607534414371449, 1),
      (341948486974166000522343609283189, 1)]⟩

def orderChain : List Certificate :=
  [⟨107361793816595537, 3, [(2, 4), (16699, 1), (85831, 1), (4681609, 1)]⟩,
    ⟨44706919, 6, [(2, 1), (3, 1), (797, 1), (9349, 1)]⟩,
    ⟨174723607534414371449, 3, [(2, 3), (17, 1), (59, 1), (4051, 1), (120233, 1), (44706919, 1)]⟩,
    ⟨545358713, 5, [(2, 3), (41, 1), (59, 1), (28181, 1)]⟩,
    ⟨297159362677, 2, [(2, 2), (3, 2), (11, 1), (461, 1), (1627771, 1)]⟩,
    ⟨29047611873442575647497758179, 2,
      [(2, 1), (293, 1), (305873, 1), (545358713, 1), (297159362677, 1)]⟩,
    ⟨341948486974166000522343609283189, 2,
      [(2, 2), (3, 3), (109, 1), (29047611873442575647497758179, 1)]⟩,
    orderCertificate]

end PrimeModuli

open PrimeModuli

theorem fieldModulus_toNat : fieldModulus.toNat = 2 ^ 256 - 2 ^ 32 - 977 := by decide

theorem fieldModulus_prime : fieldModulus.toNat.Prime := by
  have h := prime_of_passAll (c := fieldCertificate) smallPrimes_prime
    (show passAll smallPrimes fieldChain = true by decide +kernel) (by simp [fieldChain])
  rwa [fieldModulus_toNat]

theorem groupOrder_prime : groupOrder.toNat.Prime := by
  have h := prime_of_passAll (c := orderCertificate) smallPrimes_prime
    (show passAll smallPrimes orderChain = true by decide +kernel) (by simp [orderChain])
  rwa [show groupOrder.toNat = orderCertificate.number by decide]

instance : Fact fieldModulus.toNat.Prime := ⟨fieldModulus_prime⟩

instance : Fact groupOrder.toNat.Prime := ⟨groupOrder_prime⟩

end KoblitzCurve
