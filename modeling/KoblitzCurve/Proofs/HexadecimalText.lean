import Mathlib.Data.List.Induction
import Mathlib.Tactic.IntervalCases
import KoblitzCurve.SignedDigits
import KoblitzCurve.Proofs.Numerals

/-! Reading hexadecimal text. A text of at most 64 digits in either case is read as the number that
its digits stand for, whether their count is even or odd; any other text has one fault, its length
before its characters, and leaves zero. -/
namespace KoblitzCurve

namespace Radix
variable {c : UInt8} {v : ℕ} {text : List UInt8} {digits : List ℕ}

/-- The character code of a digit, in lower or upper case, and the value of the digit. -/
def IsDigit (c : UInt8) (v : ℕ) : Prop :=
  v < 16 ∧ (c = v.digitChar.toUInt8 ∨ c = v.digitChar.toUpper.toUInt8)

lemma lowerCode_toNat (h : v < 16) :
    v.digitChar.toUInt8.toNat = if v < 10 then v + 48 else v + 87 := by
  interval_cases v <;> rfl

lemma upperCode_toNat (h : v < 16) :
    v.digitChar.toUpper.toUInt8.toNat = if v < 10 then v + 48 else v + 55 := by
  interval_cases v <;> rfl

lemma isDigit_iff : IsDigit c v ↔ v < 10 ∧ c.toNat = v + 48 ∨
    10 ≤ v ∧ v < 16 ∧ (c.toNat = v + 87 ∨ c.toNat = v + 55) := by
  rw [IsDigit]
  by_cases h : v < 16
  · rw [← UInt8.toNat_inj, ← UInt8.toNat_inj, lowerCode_toNat h, upperCode_toNat h]
    split_ifs <;> omega
  · exact iff_of_false (fun hd => h hd.1) (by omega)

lemma isDigit_rightUnique : Relator.RightUnique IsDigit := by
  intro c v w hv hw
  rw [isDigit_iff] at hv hw
  omega

/-- A text stands for some digits unless there is another character in it. -/
lemma exists_digits_iff :
    (∃ digits, List.Forall₂ IsDigit text digits) ↔ ∀ c ∈ text, ∃ v, IsDigit c v := by
  constructor
  · rintro ⟨digits, h⟩
    induction h with
    | nil => simp
    | cons hdigit _ ih => exact List.forall_mem_cons.mpr ⟨⟨_, hdigit⟩, ih⟩
  · intro h
    choose! digit hdigit using h
    refine ⟨text.map digit, ?_⟩
    rw [List.forall₂_map_right_iff, List.forall₂_same]
    exact hdigit

/-- Two digits of base 16 are one of base 256. -/
lemma bigEndian_pair {low : List ℕ} {n : ℕ} (h : low.length = 2 * n) (v w : ℕ) :
    bigEndian 16 (v :: w :: low) = 256 ^ n * (16 * v + w) + bigEndian 16 low := by
  have hplace : 16 ^ low.length = 256 ^ n := by
    rw [h, pow_mul]
    norm_num
  rw [bigEndian_cons, bigEndian_cons, List.length_cons, pow_succ, hplace]
  ring

lemma byteNumber_cons (b : UInt8) (low : List UInt8) :
    byteNumber (b :: low) = 256 ^ low.length * b.toNat + byteNumber low := by
  rw [byteNumber, List.map_cons, bigEndian_cons, List.length_map]
  rfl

/-- Two digits of base 16 for each byte. -/
def halves (bytes : List UInt8) : List ℕ := bytes.flatMap fun b => [b.toNat / 16, b.toNat % 16]

lemma halves_cons (b : UInt8) (rest : List UInt8) :
    halves (b :: rest) = b.toNat / 16 :: b.toNat % 16 :: halves rest := rfl

lemma halves_length (bytes : List UInt8) : (halves bytes).length = 2 * bytes.length := by
  induction bytes with
  | nil => rfl
  | cons b rest ih =>
    rw [halves_cons, List.length_cons, List.length_cons, List.length_cons, ih, Nat.mul_succ]

lemma bigEndian_halves (bytes : List UInt8) : bigEndian 16 (halves bytes) = byteNumber bytes := by
  induction bytes with
  | nil => rfl
  | cons b rest ih =>
    rw [halves_cons, bigEndian_pair (halves_length rest), Nat.div_add_mod, ih, byteNumber_cons]

lemma forall₂_padLeft (n : ℕ) (h : List.Forall₂ IsDigit text digits) :
    List.Forall₂ IsDigit (padLeft n 48 text) (List.replicate (n - text.length) 0 ++ digits) := by
  have hzero : IsDigit 48 0 := ⟨by decide, Or.inl rfl⟩
  rw [padLeft]
  generalize n - text.length = k
  induction k with
  | zero => exact h
  | succ k ih => exact .cons hzero ih

end Radix

namespace HexCodec
open Radix
variable {c d : UInt8} {v : ℕ} {text bytes : List UInt8} {digits : List ℕ} {n : ℕ}

/-- 64 characters are decoded to the 32 bytes that their digits are the halves of, if and only if all
of them are digits. -/
structure Decodes (codec : HexCodec) : Prop where
  refused : ∀ {text : List UInt8}, text.length = 64 →
    (codec.decode text 32 = none ↔ ∃ c ∈ text, ∀ v, ¬IsDigit c v)
  digits : ∀ {text : List UInt8} {bytes : Vector UInt8 32}, text.length = 64 →
    codec.decode text 32 = some bytes → List.Forall₂ IsDigit text (halves bytes.toList)

theorem digit?_eq_some_iff : digit? c = some d ↔ IsDigit c d.toNat := by
  have hc := c.toNat_lt
  have hd := d.toNat_lt
  rw [isDigit_iff, digit?]
  simp only [UInt8.le_iff_toNat_le, UInt8.reduceToNat]
  split_ifs with hdecimal hupper hlower
  all_goals
    simp only [Option.some.injEq, ← UInt8.toNat_inj, UInt8.toNat_sub, UInt8.reduceToNat, false_iff]
    omega

lemma digit?_eq_of_isDigit (h : IsDigit c v) : ∃ d, digit? c = some d ∧ d.toNat = v := by
  have hv : (UInt8.ofNat v).toNat = v := UInt8.toNat_ofNat_of_lt' (h.1.trans (by decide))
  exact ⟨.ofNat v, digit?_eq_some_iff.mpr (by rwa [hv]), hv⟩

lemma digit?_eq_none (h : ∀ v, ¬IsDigit c v) : digit? c = none := by
  cases hd : digit? c with
  | none => rfl
  | some d => exact absurd (digit?_eq_some_iff.mp hd) (h _)

lemma join_toNat {h l : UInt8} (hh : h.toNat < 16) (hl : l.toNat < 16) :
    ((h <<< 4) ||| l).toNat = 16 * h.toNat + l.toNat := by
  have hshift : (h <<< 4).toNat = 2 ^ 4 * h.toNat := by
    rw [UInt8.toNat_shiftLeft, Nat.shiftLeft_eq]
    show h.toNat * 2 ^ 4 % 2 ^ 8 = _
    omega
  rw [UInt8.toNat_or, hshift, ← Nat.two_pow_add_eq_or_of_lt hl]

/-- An even count of digits makes up the bytes that they are the halves of. -/
lemma bytesOfDigits?_eq_some (h : List.Forall₂ IsDigit text digits) (heven : Even text.length) :
    ∃ bytes, bytesOfDigits? text = some bytes ∧ halves bytes = digits := by
  induction text using List.twoStepInduction generalizing digits with
  | nil =>
    cases h
    exact ⟨[], rfl, rfl⟩
  | singleton c => exact absurd heven Nat.not_even_one
  | cons_cons c d rest ih _ =>
    cases h with
    | cons hhigh h =>
      cases h with
      | cons hlow hrest =>
        obtain ⟨bytes, hbytes, rfl⟩ := ih hrest (by simpa [Nat.even_add] using heven)
        obtain ⟨high, hc, rfl⟩ := digit?_eq_of_isDigit hhigh
        obtain ⟨low, hd, rfl⟩ := digit?_eq_of_isDigit hlow
        have hlt := hlow.1
        refine ⟨((high <<< 4) ||| low) :: bytes, by rw [bytesOfDigits?, hc, hd, hbytes], ?_⟩
        rw [halves_cons, join_toNat hhigh.1 hlt]
        congr 1
        · omega
        · congr 1
          omega

lemma bytesOfDigits?_eq_none (hc : c ∈ text) (h : ∀ v, ¬IsDigit c v) :
    bytesOfDigits? text = none := by
  have hnone := digit?_eq_none h
  induction text using List.twoStepInduction with
  | nil => exact absurd hc List.not_mem_nil
  | singleton d => rfl
  | cons_cons high low rest ih _ =>
    rw [bytesOfDigits?]
    rcases List.mem_cons.mp hc with rfl | hc
    · rw [hnone]
    · rcases List.mem_cons.mp hc with rfl | hc
      · rw [hnone]
        cases digit? high <;> rfl
      · rw [ih hc]
        cases digit? high <;> cases digit? low <;> rfl

lemma fill_eq_some (h : bytes.length = n) : ∃ filled, fill bytes n = some filled ∧
    filled.toList = bytes :=
  ⟨⟨bytes.toArray, h⟩, dif_pos h, rfl⟩

lemma plain_decode (hlength : text.length = 64) (h : List.Forall₂ IsDigit text digits) :
    ∃ bytes, plain.decode text 32 = some bytes ∧ halves bytes.toList = digits := by
  obtain ⟨bytes, hbytes, rfl⟩ := bytesOfDigits?_eq_some h (by rw [hlength]; decide)
  have hcount := h.length_eq
  rw [halves_length] at hcount
  obtain ⟨filled, hfilled, rfl⟩ := fill_eq_some (by omega : bytes.length = 32)
  exact ⟨filled, by simp only [plain, hbytes, Option.bind_some, hfilled], rfl⟩

lemma plain_decodes : plain.Decodes := by
  have hrefused : ∀ {text : List UInt8}, (∃ c ∈ text, ∀ v, ¬IsDigit c v) →
      plain.decode text 32 = none := by
    rintro text ⟨c, hc, hno⟩
    simp only [plain, bytesOfDigits?_eq_none hc hno, Option.bind_none]
  refine ⟨fun hlength => ⟨fun hnone => ?_, hrefused⟩, fun {text _} hlength hbytes => ?_⟩
  · by_contra! h
    obtain ⟨digits, hdigits⟩ := exists_digits_iff.mpr h
    obtain ⟨bytes, hsome, -⟩ := plain_decode hlength hdigits
    simp [hnone] at hsome
  · have h : ∀ c ∈ text, ∃ v, IsDigit c v := by
      by_contra! h
      simp [hrefused h] at hbytes
    obtain ⟨digits, hdigits⟩ := exists_digits_iff.mpr h
    obtain ⟨bytes, hsome, rfl⟩ := plain_decode hlength hdigits
    obtain rfl := Option.some.inj (hbytes.symm.trans hsome)
    exact hdigits

end HexCodec

namespace Residue
open Radix HexCodec
variable {m : Modulus} {codec : HexCodec} {text : List UInt8} {digits : List ℕ}

/-- The text is a hexadecimal number, or has one of two faults. No more is required of a text that
is too long than its length. -/
inductive HexReading (text : List UInt8) : Except Fault Unit → Residue m → Prop
  | tooLong (hlength : 64 < text.length) :
      HexReading text (.error (.wrongLength text.length 64)) zero
  | notDigit {c : UInt8} (hlength : text.length ≤ 64) (hc : c ∈ text) (h : ∀ v, ¬IsDigit c v) :
      HexReading text (.error .invalidDigit) zero
  | number {digits : List ℕ} {a : Residue m} (hlength : text.length ≤ 64)
      (h : List.Forall₂ IsDigit text digits) (ha : a.toNat = bigEndian 16 digits) :
      HexReading text (.ok ()) a

/-- The digits that the text is filled up with change neither its number nor its other digits. -/
theorem assignHex_eq_ok (hcodec : codec.Decodes) (hlength : text.length ≤ 64)
    (h : List.Forall₂ IsDigit text digits) : ∃ b : Residue m,
      b.toNat = bigEndian 16 digits ∧ ∀ a, (assignHex codec text).run.run a = (.ok (), b) := by
  have hpadded := forall₂_padLeft 64 h
  have hcount := padLeft_length hlength 48
  cases hdecode : codec.decode (padLeft 64 48 text) 32 with
  | none =>
    obtain ⟨c, hc, hno⟩ := (hcodec.refused hcount).mp hdecode
    obtain ⟨v, hv⟩ := exists_digits_iff.mp ⟨_, hpadded⟩ c hc
    exact absurd hv (hno v)
  | some bytes =>
    have hhalves := List.right_unique_forall₂' isDigit_rightUnique
      (hcodec.digits hcount hdecode) hpadded
    obtain ⟨b, hnumber, hassign⟩ := assignBytes_eq_ok (m := m) bytes.length_toList.le
    refine ⟨b, ?_, fun a => ?_⟩
    · rw [hnumber, ← bigEndian_halves, hhalves, bigEndian_replicate_zero_append]
    · simp only [assignHex, if_neg (Nat.not_lt.mpr hlength), hdecode]
      exact hassign zero

theorem ofHex_eq_ok (hcodec : codec.Decodes) (hlength : text.length ≤ 64)
    (h : List.Forall₂ IsDigit text digits) :
    ∃ a : Residue m, ofHex codec text = .ok a ∧ a.toNat = bigEndian 16 digits := by
  obtain ⟨a, hnumber, hassign⟩ := assignHex_eq_ok (m := m) hcodec hlength h
  exact ⟨a, ofZero_eq (hassign zero), hnumber⟩

/-- Every text has a reading. -/
lemma exists_hexReading (hcodec : codec.Decodes) (text : List UInt8) :
    ∃ result, ∃ a : Residue m, HexReading text result a := by
  rcases Nat.lt_or_ge 64 text.length with hlength | hlength
  · exact ⟨_, _, .tooLong hlength⟩
  by_cases h : ∀ c ∈ text, ∃ v, IsDigit c v
  · obtain ⟨digits, hdigits⟩ := exists_digits_iff.mpr h
    obtain ⟨a, ha, -⟩ := assignHex_eq_ok (m := m) hcodec hlength hdigits
    exact ⟨_, _, .number hlength hdigits ha⟩
  · push Not at h
    obtain ⟨c, hc, hno⟩ := h
    exact ⟨_, _, .notDigit hlength hc hno⟩

lemma HexReading.assignHex_eq {result : Except Fault Unit} {b : Residue m}
    (h : HexReading text result b) (hcodec : codec.Decodes) (a : Residue m) :
    (assignHex codec text).run.run a = (result, b) := by
  cases h with
  | tooLong hlength =>
    simp only [assignHex, if_pos hlength]
    rfl
  | @notDigit c hlength hc hno =>
    have hmem : c ∈ padLeft 64 48 text := List.mem_append_right _ hc
    have hnone := (hcodec.refused (padLeft_length hlength 48)).mpr ⟨c, hmem, hno⟩
    simp only [assignHex, if_neg (Nat.not_lt.mpr hlength), hnone]
    rfl
  | number hlength hdigits hb =>
    obtain ⟨r, hvalue, hassign⟩ := assignHex_eq_ok (m := m) hcodec hlength hdigits
    rw [hassign, toNat_injective (hb.trans hvalue.symm)]

/-- Whatever the number was before, it becomes the one that the text stands for, or zero with the
fault of the text. -/
theorem assignHex_eq_iff (hcodec : codec.Decodes) (text : List UInt8) (a b : Residue m)
    (result : Except Fault Unit) :
    (assignHex codec text).run.run a = (result, b) ↔ HexReading text result b := by
  refine ⟨fun h => ?_, fun h => h.assignHex_eq hcodec a⟩
  obtain ⟨result', b', hread⟩ := exists_hexReading (m := m) hcodec text
  rw [hread.assignHex_eq hcodec a] at h
  cases h
  exact hread

/-- Three digits of both cases, 65 characters that are no digits either, and two that are none. -/
theorem assignHex_eq_iff_mixedCase :
    plain.Decodes ∧
      HexReading [0x61, 0x42, 0x33] (.ok ()) (ofWord 0xAB3 : Scalar) ∧
      HexReading (List.replicate 65 0x21) (.error (.wrongLength 65 64)) (zero : Scalar) ∧
      HexReading [0xC3, 0xA9] (.error .invalidDigit) (zero : Scalar) :=
  ⟨plain_decodes, (assignHex_eq_iff plain_decodes _ modulus _ _).mp rfl,
    (assignHex_eq_iff plain_decodes _ modulus _ _).mp rfl,
    (assignHex_eq_iff plain_decodes _ modulus _ _).mp rfl⟩

end Residue

end KoblitzCurve
