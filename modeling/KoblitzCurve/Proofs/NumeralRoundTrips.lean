import KoblitzCurve.Proofs.HexadecimalText

/-! Bytes and text of a number and the number read back from them. Each number of 256 bits has one
form of 32 bytes and one of 64 lower-case digits, which is also the text it is shown by. -/
namespace KoblitzCurve

namespace Radix
variable {v : ℕ} {bytes : List UInt8} {digits : List ℕ}

lemma lt_of_mem_halves (hv : v ∈ halves bytes) : v < 16 := by
  obtain ⟨b, -, hb⟩ := List.mem_flatMap.mp hv
  have hlt := b.toNat_lt
  rcases List.mem_pair.mp hb with rfl | rfl
  · omega
  · omega

lemma forall₂_codes {code : ℕ → UInt8} (hcode : ∀ v < 16, IsDigit (code v) v) (bytes : List UInt8) :
    List.Forall₂ IsDigit ((halves bytes).map code) (halves bytes) := by
  rw [List.forall₂_map_left_iff, List.forall₂_same]
  exact fun v hv => hcode v (lt_of_mem_halves hv)

/-- Characters below 128 are encoded by their codes. -/
lemma utf8_ofList {text : List Char} (h : ∀ c ∈ text, c.val.toNat ≤ 127) :
    (String.ofList text).toUTF8.data.toList = text.map Char.toUInt8 := by
  rw [String.toUTF8, String.toByteArray_ofList, List.utf8Encode, List.data_toByteArray]
  change text.flatMap String.utf8EncodeChar = _
  induction text with
  | nil => rfl
  | cons c rest ih =>
    rw [List.flatMap_cons, List.map_cons, ih fun d hd => h d (List.mem_cons_of_mem c hd),
      String.utf8EncodeChar, if_pos (h c List.mem_cons_self)]
    rfl

lemma utf8_halves {digit : ℕ → Char} (hdigit : ∀ v < 16, (digit v).val.toNat ≤ 127)
    (bytes : List UInt8) : (String.ofList ((halves bytes).map digit)).toUTF8.data.toList =
      (halves bytes).map fun v => (digit v).toUInt8 := by
  rw [utf8_ofList, List.map_map]
  · rfl
  · intro c hc
    obtain ⟨v, hv, rfl⟩ := List.mem_map.mp hc
    exact hdigit v (lt_of_mem_halves hv)

end Radix

namespace HexCodec
open Radix
variable {d : UInt8}

/-- Two digits in lower case are written for each byte, into a place that is twice as long. -/
structure Encodes (codec : HexCodec) : Prop where
  refused : ∀ {bytes : List UInt8} {n : ℕ}, codec.encode bytes n = none ↔ n ≠ 2 * bytes.length
  digits : ∀ {bytes : List UInt8} {n : ℕ} {text : Vector UInt8 n}, codec.encode bytes n = some text →
    text.toList = (halves bytes).map fun v => v.digitChar.toUInt8

lemma Encodes.exists_text {codec : HexCodec} (hcodec : codec.Encodes) {bytes : List UInt8} {n : ℕ}
    (hlength : n = 2 * bytes.length) : ∃ text, codec.encode bytes n = some text ∧
      text.toList = (halves bytes).map fun v => v.digitChar.toUInt8 := by
  cases h : codec.encode bytes n with
  | none => exact absurd hlength (hcodec.refused.mp h)
  | some text => exact ⟨text, rfl, hcodec.digits h⟩

lemma digitCode_eq (h : d.toNat < 16) : digitCode d = d.toNat.digitChar.toUInt8 := by
  rw [← UInt8.toNat_inj, lowerCode_toNat h, digitCode]
  simp only [UInt8.lt_iff_toNat_lt, UInt8.reduceToNat]
  split_ifs
  all_goals
    simp only [UInt8.toNat_add, UInt8.reduceToNat]
    omega

lemma digitsOfBytes_eq (bytes : List UInt8) :
    digitsOfBytes bytes = (halves bytes).map fun v => v.digitChar.toUInt8 := by
  rw [digitsOfBytes, halves, List.map_flatMap]
  congr 1
  funext b
  have hb := b.toNat_lt
  have hhigh : (b >>> 4).toNat = b.toNat / 16 := by
    rw [UInt8.toNat_shiftRight, Nat.shiftRight_eq_div_pow]
    rfl
  have hlow : (b &&& 15).toNat = b.toNat % 16 := by
    rw [UInt8.toNat_and]
    exact Nat.and_two_pow_sub_one_eq_mod _ 4
  rw [digitCode_eq (by omega), digitCode_eq (by omega), hhigh, hlow]
  rfl

lemma plain_encodes : plain.Encodes := by
  have hlength : ∀ bytes, (digitsOfBytes bytes).length = 2 * bytes.length := by
    intro bytes
    rw [digitsOfBytes_eq, List.length_map, halves_length]
  refine ⟨?_, ?_⟩
  · intro bytes n
    simp only [plain, fill, dite_eq_right_iff, hlength]
    exact ⟨fun h hn => Option.some_ne_none _ (h hn.symm), fun h hn => absurd hn.symm h⟩
  · intro bytes n text h
    simp only [plain, fill] at h
    split_ifs at h with hn
    cases h
    exact digitsOfBytes_eq bytes

end HexCodec

namespace Residue
open Radix HexCodec
variable {m : Modulus} {codec : HexCodec} {bytes text : List UInt8}

/-- A byte that is shown with two digits at least has two. -/
lemma toDigits_leftpad (b : UInt8) : (Nat.toDigits 16 b.toNat).leftpad 2 '0' =
    [(b.toNat / 16).digitChar, (b.toNat % 16).digitChar] := by
  have hb := b.toNat_lt
  rcases Nat.lt_or_ge b.toNat 16 with h | h
  · rw [Nat.toDigits_of_lt_base h, Nat.div_eq_of_lt h, Nat.mod_eq_of_lt h]
    rfl
  · have hsplit := Nat.toDigits_append_toDigits (b := 16) (n := b.toNat / 16) (d := b.toNat % 16)
      (by decide) (by omega) (by omega)
    rw [Nat.div_add_mod, Nat.toDigits_of_lt_base (by omega), Nat.toDigits_of_lt_base (by omega)]
      at hsplit
    rw [← hsplit]
    rfl

/-- The number is shown by its digits in lower case. -/
lemma toString_eq (a : Residue m) :
    toString a = String.ofList ((halves a.toBytes).map Nat.digitChar) := by
  rw [halves, List.map_flatMap]
  exact congrArg String.ofList (congrArg a.toBytes.flatMap (funext toDigits_leftpad))

lemma utf8_toString (a : Residue m) : (toString a).toUTF8.data.toList =
    (halves a.toBytes).map fun v => v.digitChar.toUInt8 := by
  rw [toString_eq, utf8_halves (by decide)]

lemma utf8_toUpper (a : Residue m) : (toString a).toUpper.toUTF8.data.toList =
    (halves a.toBytes).map fun v => v.digitChar.toUpper.toUInt8 := by
  have hupper : (toString a).toUpper =
      String.ofList ((halves a.toBytes).map fun v => v.digitChar.toUpper) := by
    rw [toString_eq, String.toUpper, ← String.toList_inj, String.toList_map, String.toList_ofList,
      String.toList_ofList, List.map_map]
    rfl
  rw [hupper, utf8_halves (by decide)]

/-- The text of a number is 64 digits in lower case that stand for it. -/
lemma exists_digits_toString (a : Residue m) : ∃ digits : List ℕ, digits.length = 64 ∧
    bigEndian 16 digits = a.toNat ∧ (∀ v ∈ digits, v < 16) ∧
    toString a = String.ofList (digits.map Nat.digitChar) := by
  refine ⟨halves a.toBytes, ?_, ?_, fun v => lt_of_mem_halves, toString_eq a⟩
  · rw [halves_length, toBytes_length]
  · rw [bigEndian_halves, byteNumber_toBytes]

theorem writeHex_eq (hcodec : codec.Encodes) (a : Residue m) :
    a.writeHex codec 64 = .ok (toString a).toUTF8.data.toList := by
  have hlength : 64 = 2 * a.toBytes.length := by rw [toBytes_length]
  obtain ⟨text, htext, hdigits⟩ := hcodec.exists_text hlength
  rw [utf8_toString, writeHex, htext]
  exact congrArg Except.ok hdigits

theorem writeHex_of_ne (hcodec : codec.Encodes) (a : Residue m) {length : ℕ} (h : length ≠ 64) :
    a.writeHex codec length = .error (.wrongLength length 64) := by
  have hnone : codec.encode a.toBytes length = none := hcodec.refused.mpr h
  rw [writeHex, hnone]

/-- Text of the digits of bytes is read as the number of the bytes. -/
lemma ofHex_halves (hcodec : codec.Decodes) (h : List.Forall₂ IsDigit text (halves bytes))
    (hlength : bytes.length ≤ 32) :
    ∃ a : Residue m, ofHex codec text = .ok a ∧ a.toNat = byteNumber bytes := by
  have htext : text.length ≤ 64 := by
    rw [h.length_eq, halves_length]
    omega
  rw [← bigEndian_halves]
  exact ofHex_eq_ok hcodec htext h

lemma ofHex_halves_toBytes (hcodec : codec.Decodes) {a : Residue m}
    (h : List.Forall₂ IsDigit text (halves a.toBytes)) : ofHex codec text = .ok a := by
  obtain ⟨b, hb, hnumber⟩ := ofHex_halves (m := m) hcodec h a.toBytes_length.le
  rw [hb, toNat_injective (hnumber.trans a.byteNumber_toBytes)]

theorem ofHex_toString (hcodec : codec.Decodes) (a : Residue m) :
    ofHex codec (toString a).toUTF8.data.toList = .ok a := by
  rw [utf8_toString]
  exact ofHex_halves_toBytes hcodec (forall₂_codes (fun v hv => ⟨hv, Or.inl rfl⟩) _)

theorem ofHex_toUpper (hcodec : codec.Decodes) (a : Residue m) :
    ofHex codec (toString a).toUpper.toUTF8.data.toList = .ok a := by
  rw [utf8_toUpper]
  exact ofHex_halves_toBytes hcodec (forall₂_codes (fun v hv => ⟨hv, Or.inr rfl⟩) _)

/-- Bytes and their digits are read as one number, whose bytes are the same filled up to 32. -/
theorem ofBytes_padded (hcodec : codec.Decodes) (h : bytes.length ≤ 32) :
    ∃ a : Residue m, ofBytes bytes = .ok a ∧ a.toNat = byteNumber bytes ∧
      a.toBytes = List.replicate (32 - bytes.length) 0 ++ bytes ∧
      ∀ text, List.Forall₂ IsDigit text (halves bytes) → ofHex codec text = .ok a := by
  obtain ⟨a, ha, hnumber⟩ := ofBytes_eq_ok (m := m) h
  refine ⟨a, ha, hnumber, toBytes_eq_padLeft h hnumber, fun text htext => ?_⟩
  obtain ⟨b, hb, hnumber'⟩ := ofHex_halves (m := m) hcodec htext h
  rw [hb, toNat_injective (hnumber'.trans hnumber.symm)]

/-- Bytes and text give every number back, reduced or not, and the text in either case; bytes and
their digits are read alike, at every length up to 32. -/
theorem codecs_inverse (hdecodes : codec.Decodes) (hencodes : codec.Encodes) (a : Residue m)
    (bytes : List UInt8) :
    (a.toBytes.length = 32 ∧ byteNumber a.toBytes = a.toNat ∧ ofBytes a.toBytes = .ok a) ∧
    ((∃ digits : List ℕ, digits.length = 64 ∧ bigEndian 16 digits = a.toNat ∧
        (∀ v ∈ digits, v < 16) ∧ toString a = String.ofList (digits.map Nat.digitChar)) ∧
      a.writeHex codec 64 = .ok (toString a).toUTF8.data.toList ∧
      ofHex codec (toString a).toUTF8.data.toList = .ok a ∧
      ofHex codec (toString a).toUpper.toUTF8.data.toList = .ok a ∧
      ∀ length ≠ 64, a.writeHex codec length = .error (.wrongLength length 64)) ∧
    (bytes.length ≤ 32 → ∃ b : Residue m, ofBytes bytes = .ok b ∧ b.toNat = byteNumber bytes ∧
      b.toBytes = List.replicate (32 - bytes.length) 0 ++ bytes ∧
      (∀ text, List.Forall₂ IsDigit text (halves bytes) → ofHex codec text = .ok b) ∧
      ∃ text, codec.encode bytes (2 * bytes.length) = some text ∧
        ofHex codec text.toList = .ok b) ∧
    (32 < bytes.length →
      (assignBytes bytes).run.run a = (.error (.wrongLength bytes.length 32), zero) ∧
      ofBytes bytes = (.error (.wrongLength bytes.length 32) : Except Fault (Residue m))) := by
  refine ⟨⟨a.toBytes_length, a.byteNumber_toBytes, a.ofBytes_toBytes⟩,
    ⟨exists_digits_toString a, writeHex_eq hencodes a, ofHex_toString hdecodes a,
      ofHex_toUpper hdecodes a, fun length h => writeHex_of_ne hencodes a h⟩, fun h => ?_,
    fun h => ⟨assignBytes_of_long h a, ofBytes_of_long h⟩⟩
  obtain ⟨b, hb, hnumber, hpadded, hread⟩ := ofBytes_padded (m := m) hdecodes h
  obtain ⟨text, htext, hdigits⟩ := hencodes.exists_text (rfl : 2 * bytes.length = _)
  refine ⟨b, hb, hnumber, hpadded, hread, text, htext, hread _ ?_⟩
  rw [hdigits]
  exact forall₂_codes (fun v hv => ⟨hv, Or.inl rfl⟩) bytes

/-- The group order as a scalar, which is not reduced, three bytes, and one byte too many. -/
theorem codecs_inverse_groupOrder :
    plain.Decodes ∧ plain.Encodes ∧ ¬(modulus : Scalar).Reduced ∧
      ofBytes (modulus : Scalar).toBytes = .ok (modulus : Scalar) ∧
      ofHex plain (toString (modulus : Scalar)).toUpper.toUTF8.data.toList =
        .ok (modulus : Scalar) ∧
      (modulus : Scalar).writeHex plain 63 = .error (.wrongLength 63 64) ∧
      [0xBF, 0xD2, 0x5E].length ≤ 32 ∧
      (∃ b : Scalar, ofBytes [0xBF, 0xD2, 0x5E] = .ok b ∧ b.toNat = 0xBFD25E ∧
        b.toBytes = List.replicate 29 0 ++ [0xBF, 0xD2, 0x5E] ∧
        ∃ text, plain.encode [0xBF, 0xD2, 0x5E] 6 = some text ∧ ofHex plain text.toList = .ok b) ∧
      32 < (List.replicate 33 (1 : UInt8)).length ∧
      (assignBytes (List.replicate 33 1)).run.run (modulus : Scalar) =
        (.error (.wrongLength 33 32), zero) := by
  obtain ⟨⟨-, -, hbytes⟩, ⟨-, -, -, hupper, hwrite⟩, hshort, -⟩ :=
    codecs_inverse plain_decodes plain_encodes (modulus : Scalar) [0xBF, 0xD2, 0x5E]
  obtain ⟨-, -, -, hlong⟩ :=
    codecs_inverse plain_decodes plain_encodes (modulus : Scalar) (List.replicate 33 1)
  obtain ⟨b, hb, hnumber, hpadded, -, htext⟩ := hshort (by decide)
  exact ⟨plain_decodes, plain_encodes, by decide, hbytes, hupper, hwrite 63 (by decide), by decide,
    ⟨b, hb, hnumber, hpadded, htext⟩, by decide, (hlong (by decide)).1⟩

end Residue

end KoblitzCurve
