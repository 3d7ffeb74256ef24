import Mathlib.Data.Nat.Digits.Lemmas
import KoblitzCurve.Radix
import KoblitzCurve.Proofs.ResidueArithmetic

/-! The numbers that lists of digits stand for, and residues as numbers of 32 bytes. Bytes padded on
the left have the same number, and of all lists of one length only one has it. -/
namespace KoblitzCurve

namespace Radix

/-- The number of these digits, the most significant one first. -/
def bigEndian (base : ℕ) (digits : List ℕ) : ℕ := Nat.ofDigits base digits.reverse

/-- The number of these bytes, the most significant one first. -/
def byteNumber (bytes : List UInt8) : ℕ := bigEndian 256 (bytes.map UInt8.toNat)

lemma bigEndian_eq_foldl (base : ℕ) (digits : List ℕ) :
    bigEndian base digits = digits.foldl (fun n d => base * n + d) 0 := by
  rw [bigEndian, Nat.ofDigits_eq_foldr, List.foldr_reverse]
  simp only [Nat.cast_id, Nat.add_comm]

lemma bigEndian_append (base : ℕ) (high low : List ℕ) :
    bigEndian base (high ++ low) =
      base ^ low.length * bigEndian base high + bigEndian base low := by
  rw [bigEndian, List.reverse_append, Nat.ofDigits_append, List.length_reverse, Nat.add_comm]
  rfl

lemma bigEndian_cons (base d : ℕ) (low : List ℕ) :
    bigEndian base (d :: low) = base ^ low.length * d + bigEndian base low := by
  rw [← List.singleton_append, bigEndian_append]
  rw [bigEndian, List.reverse_singleton, Nat.ofDigits_singleton]

lemma bigEndian_concat (base d : ℕ) (high : List ℕ) :
    bigEndian base (high ++ [d]) = base * bigEndian base high + d := by
  rw [bigEndian_eq_foldl, List.foldl_append, ← bigEndian_eq_foldl, List.foldl_cons, List.foldl_nil]

lemma bigEndian_replicate_zero_append (base n : ℕ) (digits : List ℕ) :
    bigEndian base (List.replicate n 0 ++ digits) = bigEndian base digits := by
  rw [bigEndian, List.reverse_append, List.reverse_replicate, Nat.ofDigits_append_replicate_zero]
  rfl

lemma byteNumber_append (high low : List UInt8) :
    byteNumber (high ++ low) = 256 ^ low.length * byteNumber high + byteNumber low := by
  rw [byteNumber, List.map_append, bigEndian_append, List.length_map]
  rfl

lemma byteNumber_concat (high : List UInt8) (b : UInt8) :
    byteNumber (high ++ [b]) = 256 * byteNumber high + b.toNat := by
  rw [byteNumber, List.map_append, List.map_singleton, bigEndian_concat]
  rfl

lemma map_toNat_lt (bytes : List UInt8) : ∀ d ∈ bytes.map UInt8.toNat, d < 256 := by
  intro d hd
  obtain ⟨b, -, rfl⟩ := List.mem_map.mp hd
  exact b.toNat_lt

lemma byteNumber_lt (bytes : List UInt8) : byteNumber bytes < 256 ^ bytes.length := by
  have h := Nat.ofDigits_lt_base_pow_length (b := 256) (l := (bytes.map UInt8.toNat).reverse)
    (by decide) fun d hd => map_toNat_lt bytes d (List.mem_reverse.mp hd)
  rwa [List.length_reverse, List.length_map] at h

theorem byteNumber_injective {bytes bytes' : List UInt8} (hlength : bytes.length = bytes'.length)
    (h : byteNumber bytes = byteNumber bytes') : bytes = bytes' := by
  have hdigits := Nat.ofDigits_inj_of_len_eq (b := 256) (by decide)
    (by simpa only [List.length_reverse, List.length_map] using hlength)
    (fun d hd => map_toNat_lt bytes d (List.mem_reverse.mp hd))
    (fun d hd => map_toNat_lt bytes' d (List.mem_reverse.mp hd)) h
  exact List.map_injective_iff.mpr (fun _ _ => UInt8.toNat_inj.mp) (List.reverse_injective hdigits)

lemma padLeft_length {n : ℕ} {s : List UInt8} (h : s.length ≤ n) (c : UInt8) :
    (padLeft n c s).length = n := by
  rw [padLeft, List.length_append, List.length_replicate, Nat.sub_add_cancel h]

lemma byteNumber_padLeft (n : ℕ) (bytes : List UInt8) :
    byteNumber (padLeft n 0 bytes) = byteNumber bytes := by
  rw [byteNumber, padLeft, List.map_append, List.map_replicate]
  exact bigEndian_replicate_zero_append _ _ _

end Radix

namespace Word
open Radix

/-- A byte is what a number shifted down to it loses by the next shift. -/
lemma div_byte (n i : ℕ) : 256 * (n / 2 ^ (i + 8)) + n / 2 ^ i % 256 = n / 2 ^ i := by
  rw [pow_add, ← Nat.div_div_eq_div_mul]
  exact Nat.div_add_mod _ _

lemma byteNumber_toBytes (w : UInt64) : byteNumber (toBytes w) = w.toNat := by
  have hw := w.toNat_lt
  have htop : w.toNat / 2 ^ 56 % 256 = w.toNat / 2 ^ 56 := by omega
  simp only [byteNumber, bigEndian_eq_foldl, toBytes, List.map_cons, List.map_nil, List.foldl_cons,
    List.foldl_nil, UInt64.toNat_toUInt8, UInt64.toNat_shiftRight, Nat.shiftRight_eq_div_pow,
    UInt64.reduceToNat, Nat.reduceMod, Nat.mul_zero, Nat.zero_add, htop]
  rw [div_byte _ 48, div_byte _ 40, div_byte _ 32, div_byte _ 24, div_byte _ 16, div_byte _ 8]
  exact Nat.div_add_mod _ 256

/-- No bit leaves the word before the ninth byte. -/
theorem ofBytes_toNat {bytes : List UInt8} (h : bytes.length ≤ 8) :
    (ofBytes bytes).toNat = byteNumber bytes := by
  induction bytes using List.reverseRecOn with
  | nil => rfl
  | append_singleton high b ih =>
    rw [List.length_append, List.length_singleton] at h
    have hhigh := ih (by omega)
    have hlt : byteNumber high < 2 ^ 56 :=
      (byteNumber_lt high).trans_le (Nat.pow_le_pow_right (by decide) (by omega : _ ≤ 7))
    have hb := b.toNat_lt
    have hshift : (ofBytes high <<< 8).toNat = 2 ^ 8 * byteNumber high := by
      rw [UInt64.toNat_shiftLeft, Nat.shiftLeft_eq, hhigh]
      show byteNumber high * 2 ^ 8 % 2 ^ 64 = _
      omega
    rw [ofBytes, List.foldl_append, List.foldl_cons, List.foldl_nil, ← ofBytes, UInt64.toNat_or,
      hshift, UInt8.toNat_toUInt64, ← Nat.two_pow_add_eq_or_of_lt hb, byteNumber_concat]

end Word

namespace Residue
open Radix
variable {m : Modulus} {a : Residue m} {bytes : List UInt8}

lemma toBytes_length (a : Residue m) : a.toBytes.length = 32 := rfl

theorem byteNumber_toBytes (a : Residue m) : byteNumber a.toBytes = a.toNat := by
  rw [toBytes, byteNumber_append, byteNumber_append, byteNumber_append, Word.byteNumber_toBytes,
    Word.byteNumber_toBytes, Word.byteNumber_toBytes, Word.byteNumber_toBytes, toNat, Limbs.toNat]
  show 256 ^ 8 * (256 ^ 8 * (256 ^ 8 * _ + _) + _) + _ = _
  omega

/-- Eight bytes at a time. -/
lemma byteNumber_drop (bytes : List UInt8) (i : ℕ) :
    byteNumber (bytes.drop i) = 256 ^ (bytes.length - (i + 8)) *
      (Word.ofBytes ((bytes.drop i).take 8)).toNat + byteNumber (bytes.drop (i + 8)) := by
  rw [Word.ofBytes_toNat (List.length_take_le 8 _), ← List.length_drop, ← List.drop_drop,
    ← byteNumber_append, List.take_append_drop]

theorem assignBytes_of_long (h : 32 < bytes.length) (a : Residue m) :
    (assignBytes bytes).run.run a = (.error (.wrongLength bytes.length 32), zero) := by
  simp only [assignBytes, if_pos h]
  rfl

/-- Fewer than 32 bytes may end within a word; the padding fills that word up. -/
theorem assignBytes_eq_ok (h : bytes.length ≤ 32) : ∃ b : Residue m,
    b.toNat = byteNumber bytes ∧ ∀ a, (assignBytes bytes).run.run a = (.ok (), b) := by
  have hlength := padLeft_length h 0
  simp only [assignBytes, if_neg (Nat.not_lt.mpr h)]
  refine ⟨_, ?_, fun a => rfl⟩
  rw [← byteNumber_padLeft 32, ofWordsBig, toNat, Limbs.toNat]
  generalize padLeft 32 0 bytes = padded at hlength ⊢
  have h0 := byteNumber_drop padded 0
  have h1 := byteNumber_drop padded 8
  have h2 := byteNumber_drop padded 16
  have h3 : (Word.ofBytes (padded.drop 24)).toNat = byteNumber (padded.drop 24) :=
    Word.ofBytes_toNat (by rw [List.length_drop, hlength])
  simp only [hlength, List.drop_zero, Nat.reduceAdd, Nat.reduceSub] at h0 h1 h2
  rw [h0, h1, h2, ← h3]
  ring

lemma ofZero_eq {assignment : Assignment m} {result : Except Fault Unit}
    (h : assignment.run.run zero = (result, a)) : ofZero assignment = result.map fun () => a := by
  rw [ofZero, h]

lemma ofBytes_of_long (h : 32 < bytes.length) :
    ofBytes bytes = (.error (.wrongLength bytes.length 32) : Except Fault (Residue m)) :=
  ofZero_eq (assignBytes_of_long h zero)

theorem ofBytes_eq_ok (h : bytes.length ≤ 32) :
    ∃ a : Residue m, ofBytes bytes = .ok a ∧ a.toNat = byteNumber bytes := by
  obtain ⟨a, hnumber, hassign⟩ := assignBytes_eq_ok (m := m) h
  exact ⟨a, ofZero_eq (hassign zero), hnumber⟩

/-- A number has one form of 32 bytes, which is the only one it is read from. -/
theorem ofBytes_toBytes (a : Residue m) : ofBytes a.toBytes = .ok a := by
  obtain ⟨b, hb, hnumber⟩ := ofBytes_eq_ok (m := m) a.toBytes_length.le
  rw [hb, toNat_injective (hnumber.trans a.byteNumber_toBytes)]

theorem toBytes_eq_padLeft (h : bytes.length ≤ 32) (ha : a.toNat = byteNumber bytes) :
    a.toBytes = padLeft 32 0 bytes := by
  apply byteNumber_injective
  · rw [toBytes_length, padLeft_length h]
  · rw [byteNumber_toBytes, ha, byteNumber_padLeft]

end Residue

end KoblitzCurve
