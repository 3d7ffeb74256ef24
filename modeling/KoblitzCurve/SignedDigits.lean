import KoblitzCurve.Radix

/-! Scalars as sums of signed digits. A digit of width W is read from the W bits of its window
and the top bit of the window below; it lies between -2^(W-1) and 2^(W-1). -/
namespace KoblitzCurve

def groupOrder : Modulus :=
  ⟨⟨0xBFD25E8CD0364141, 0xBAAEDCE6AF48A03B, 0xFFFFFFFFFFFFFFFE, 0xFFFFFFFFFFFFFFFF⟩,
    by decide, by decide⟩

abbrev Scalar := Residue groupOrder

structure SignedDigit where
  magnitude : UInt32
  negative : UInt32
  deriving DecidableEq, Repr

namespace SignedDigit

def value (d : SignedDigit) : Int :=
  if d.negative = 0 then (d.magnitude.toNat : Int) else -(d.magnitude.toNat : Int)

/-- The magnitude above one bit for the sign. -/
def pack (d : SignedDigit) : UInt32 := (d.magnitude <<< 1) + (d.negative &&& 1)

def unpack (word : UInt32) : SignedDigit := ⟨word >>> 1, -(word &&& 1)⟩

/-- The packed digit of a window of `width + 1` bits: half of it, rounded up, less 2^width if its
top bit is set. For such a window the magnitude is found from the complement of its bits. -/
def recode (width bits : UInt32) : UInt32 :=
  let negative := ~~~((bits >>> width) - 1)
  let complement := (1 <<< (width + 1)) - bits - 1
  let d := (complement &&& negative) ||| (bits &&& ~~~negative)
  pack ⟨(d >>> 1) + (d &&& 1), negative⟩

def ofWindow (width bits : UInt32) : SignedDigit := unpack (recode width bits)

end SignedDigit

namespace Scalar

/-- The reduced scalar as 33 bytes, the least significant one first. The last byte is zero, for
windows that reach past the top. -/
def windowBytes (k : Scalar) : List UInt8 := k.reduce.toBytes.reverse ++ [0]

/-- The bits of the mask, beginning with the one below bit `i`, for `i` above zero. -/
def window (bytes : List UInt8) (i : Nat) (mask : UInt32) : UInt32 :=
  let offset := (i - 1) >>> 3
  let pair := (bytes.getD offset 0).toUInt32 ||| ((bytes.getD (offset + 1) 0).toUInt32 <<< 8)
  (pair >>> ((i - 1) &&& 7).toUInt32) &&& mask

def firstWindow (bytes : List UInt8) (mask : UInt32) : UInt32 :=
  ((bytes.getD 0 0).toUInt32 <<< 1) &&& mask

/-- The signed digits of the reduced scalar, `count` of the given width, lowest first. -/
def digits (width count : Nat) (k : Scalar) : List SignedDigit :=
  let bytes := windowBytes k
  let mask : UInt32 := (1 <<< (width + 1).toUInt32) - 1
  let digit := SignedDigit.ofWindow width.toUInt32
  digit (firstWindow bytes mask) ::
    (List.range (count - 1)).map fun i => digit (window bytes (width * (i + 1)) mask)

end Scalar

end KoblitzCurve
