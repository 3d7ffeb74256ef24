import KoblitzCurve.Residue
import KoblitzCurve.WideLimbs

/-! The base field of the curve, the integers modulo p = 2^256 - 2^32 - 977. An element x is held as
x * 2^256 modulo p, so that a product of two such numbers has to be divided by 2^256 (`ofWide`). -/
namespace KoblitzCurve

def fieldModulus : Modulus :=
  ⟨⟨0xFFFFFFFEFFFFFC2F, 0xFFFFFFFFFFFFFFFF, 0xFFFFFFFFFFFFFFFF, 0xFFFFFFFFFFFFFFFF⟩,
    by decide, by decide⟩

abbrev FieldElement := Residue fieldModulus

namespace Montgomery

/-- The inverse of an odd word up to the sign, modulo 2^64. Every step doubles the number of
correct bits, of which the first approximation has at least two. -/
def negInverse (w : UInt64) : UInt64 :=
  let step := fun (y : UInt64) => y * (2 - y * w)
  0 - step (step (step (step (step (2 - w)))))

def fieldNegInverse : UInt64 := negInverse fieldModulus.limbs.l0

structure Window where
  limbs : Limbs
  carry : Bool
  deriving DecidableEq, Repr

/-- Divides by 2^64 the window with one more word on top, after adding the multiple of p that
clears its lowest word. -/
@[inline] def step (r : Window) (next : UInt64) : Window :=
  let p := fieldModulus.limbs
  let f := r.limbs.l0 * fieldNegInverse
  let u0 := Word.mulAdd f p.l0 r.limbs.l0 0
  let u1 := Word.mulAdd f p.l1 r.limbs.l1 u0.high
  let u2 := Word.mulAdd f p.l2 r.limbs.l2 u1.high
  let u3 := Word.mulAdd f p.l3 r.limbs.l3 u2.high
  let s := Word.addCarry next u3.high r.carry
  ⟨⟨u1.low, u2.low, u3.low, s.1⟩, s.2⟩

@[inline] def divide (t : WideLimbs) : Window :=
  step (step (step (step ⟨t.low, false⟩ t.high.l0) t.high.l1) t.high.l2) t.high.l3

end Montgomery

namespace Residue
open Montgomery

/-- The number divided by 2^256 modulo p. The quotient of the four steps is below 2^256 + p, so
that one subtraction of p, taken back if it borrows from the carry, is enough. -/
def ofWide (t : WideLimbs) : FieldElement :=
  let r := divide t
  let d := r.limbs.subBorrow fieldModulus.limbs false
  ⟨(d.1.addCarry (fieldModulus.limbs.keep (Word.fill (d.2 && !r.carry))) false).1⟩

def montMul (a b : FieldElement) : FieldElement := ofWide (WideLimbs.product a.limbs b.limbs)

def montSquare (a : FieldElement) : FieldElement := ofWide (WideLimbs.square a.limbs)

def montSquares (a : FieldElement) : Nat → FieldElement
  | 0 => a
  | n + 1 => montSquares a.montSquare n

/-- One in the Montgomery domain, 2^256 modulo p. -/
def montOne : FieldElement := ofWords 0x00000001000003D1 0 0 0

/-- The square of `montOne`, 2^512 modulo p. -/
def montRadix : FieldElement := ofWords 0x000007A2000E90A1 1 0 0

def toMont (a : FieldElement) : FieldElement := a.montMul montRadix

def fromMont (a : FieldElement) : FieldElement := a.montMul one

/-- The inverse in the Montgomery domain, as the power of exponent p - 2; zero stays zero.
The exponent is put together as 45 + (2^32 - 2^10), then (2^32 - 2) * 2^32, then the shifts of
2^64 - 2^32 by 32 to 192 bits. -/
def montInverse (x : FieldElement) : FieldElement :=
  let x2 := x.montSquare
  let x3 := x2.montMul x
  let x15 := (x3.montSquares 2).montMul x3
  let x30 := x15.montSquare
  let x45 := x30.montMul x15
  let x255 := (x30.montSquares 3).montMul x15
  let ones16 := (x255.montSquares 8).montMul x255
  let x1022 := (x255.montSquare.montMul x).montSquare
  let ones20 := (ones16.montSquares 4).montMul x15
  let ones22 := (ones20.montSquares 2).montMul x3
  let high22 := ones22.montSquares 10
  let low := x45.montMul high22
  let even32 := high22.montMul x1022
  let bit32 := even32.montMul x2
  let even64 := even32.montSquares 32
  let rec shifts (r a : FieldElement) : Nat → FieldElement
    | 0 => r
    | n + 1 =>
      let b := a.montSquares 32
      shifts (r.montMul b) b n
  shifts (low.montMul even64) (even64.montMul bit32) 6

end Residue

end KoblitzCurve
