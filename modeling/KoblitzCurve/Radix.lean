import KoblitzCurve.Fault
import KoblitzCurve.HexCodec
import KoblitzCurve.Residue

/-! Residues as big-endian bytes and as hexadecimal text. Neither direction reduces the number. -/
namespace KoblitzCurve

namespace Word

def ofBytes (bytes : List UInt8) : UInt64 :=
  bytes.foldl (fun w b => (w <<< 8) ||| b.toUInt64) 0

def toBytes (w : UInt64) : List UInt8 :=
  [(w >>> 56).toUInt8, (w >>> 48).toUInt8, (w >>> 40).toUInt8, (w >>> 32).toUInt8,
    (w >>> 24).toUInt8, (w >>> 16).toUInt8, (w >>> 8).toUInt8, w.toUInt8]

end Word

namespace Radix

def padLeft (n : Nat) (c : UInt8) (s : List UInt8) : List UInt8 :=
  List.replicate (n - s.length) c ++ s

end Radix

/-- Replaces a number, or fails and leaves one all the same. -/
abbrev Assignment (m : Modulus) := ExceptT Fault (StateM (Residue m)) Unit

namespace Residue
open Radix
variable {m : Modulus}

def assignBytes (bytes : List UInt8) : Assignment m := do
  set (zero : Residue m)
  if 32 < bytes.length then
    throw (.wrongLength bytes.length 32)
  let padded := padLeft 32 0 bytes
  let a : Residue m := ofWordsBig (Word.ofBytes (padded.take 8))
    (Word.ofBytes ((padded.drop 8).take 8)) (Word.ofBytes ((padded.drop 16).take 8))
    (Word.ofBytes (padded.drop 24))
  set a

/-- Text is given by the character codes. If it is too long it is refused for that, whatever its
characters. -/
def assignHex (codec : HexCodec) (text : List UInt8) : Assignment m := do
  set (zero : Residue m)
  if 64 < text.length then
    throw (.wrongLength text.length 64)
  match codec.decode (padLeft 64 48 text) 32 with
  | some bytes => assignBytes bytes.toList
  | none => throw .invalidDigit

/-- What becomes of zero. -/
def ofZero (assignment : Assignment m) : Except Fault (Residue m) :=
  let (result, a) := assignment.run.run zero
  result.map fun () => a

def ofBytes (bytes : List UInt8) : Except Fault (Residue m) := ofZero (assignBytes bytes)

def ofHex (codec : HexCodec) (text : List UInt8) : Except Fault (Residue m) :=
  ofZero (assignHex codec text)

def toBytes (a : Residue m) : List UInt8 :=
  Word.toBytes a.limbs.l3 ++ Word.toBytes a.limbs.l2 ++ Word.toBytes a.limbs.l1 ++
    Word.toBytes a.limbs.l0

/-- The text for a place of `length` characters, which has to be as long as the text. -/
def writeHex (a : Residue m) (codec : HexCodec) (length : Nat) : Except Fault (List UInt8) :=
  match codec.encode a.toBytes length with
  | some text => .ok text.toList
  | none => .error (.wrongLength length 64)

/-- At least two digits are shown of each byte. -/
instance : ToString (Residue m) where
  toString a := String.ofList (a.toBytes.flatMap fun b => (Nat.toDigits 16 b.toNat).leftpad 2 '0')

end Residue

end KoblitzCurve
