/-! Hexadecimal text of bytes. The library is given a codec for such text, which fills a place of
a given length or refuses to; `HexCodec.plain` is one to run it with. -/
namespace KoblitzCurve

structure HexCodec where
  decode : List UInt8 → (n : Nat) → Option (Vector UInt8 n)
  encode : List UInt8 → (n : Nat) → Option (Vector UInt8 n)

namespace HexCodec

/-- The value of a digit in either case, given by its character code. -/
def digit? (c : UInt8) : Option UInt8 :=
  if 48 ≤ c ∧ c ≤ 57 then some (c - 48)
  else if 65 ≤ c ∧ c ≤ 70 then some (c - 55)
  else if 97 ≤ c ∧ c ≤ 102 then some (c - 87)
  else none

/-- The character code of a digit below sixteen, in lower case. -/
def digitCode (d : UInt8) : UInt8 := if d < 10 then d + 48 else d + 87

def bytesOfDigits? : List UInt8 → Option (List UInt8)
  | [] => some []
  | [_] => none
  | c :: d :: rest =>
    match digit? c, digit? d, bytesOfDigits? rest with
    | some h, some l, some bytes => some (((h <<< 4) ||| l) :: bytes)
    | _, _, _ => none

def digitsOfBytes (bytes : List UInt8) : List UInt8 :=
  bytes.flatMap fun (b : UInt8) => [digitCode (b >>> 4), digitCode (b &&& 15)]

def fill (list : List UInt8) (n : Nat) : Option (Vector UInt8 n) :=
  if h : list.length = n then some ⟨list.toArray, h⟩ else none

def plain : HexCodec where
  decode text n := (bytesOfDigits? text).bind (fill · n)
  encode bytes n := fill (digitsOfBytes bytes) n

end HexCodec

end KoblitzCurve
