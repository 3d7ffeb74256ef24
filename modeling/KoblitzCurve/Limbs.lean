import KoblitzCurve.Word
import KoblitzCurve.Mask

/-! Numbers of four words, the least significant one first. Sums and differences carry from word
to word and give the last carry back. -/
namespace KoblitzCurve

structure Limbs where
  l0 : UInt64
  l1 : UInt64
  l2 : UInt64
  l3 : UInt64
  deriving DecidableEq, Repr

namespace Limbs
open Word

@[inline] def ofWord (w : UInt64) : Limbs := ⟨w, 0, 0, 0⟩

def zero : Limbs := ofWord 0

def one : Limbs := ofWord 1

def toList (a : Limbs) : List UInt64 := [a.l0, a.l1, a.l2, a.l3]

/-- The sum modulo 2^256, and the carry out of it. -/
@[inline] def addCarry (a b : Limbs) (c : Bool) : Limbs × Bool :=
  let s0 := Word.addCarry a.l0 b.l0 c
  let s1 := Word.addCarry a.l1 b.l1 s0.2
  let s2 := Word.addCarry a.l2 b.l2 s1.2
  let s3 := Word.addCarry a.l3 b.l3 s2.2
  (⟨s0.1, s1.1, s2.1, s3.1⟩, s3.2)

/-- The difference modulo 2^256, and the borrow out of it. -/
@[inline] def subBorrow (a b : Limbs) (c : Bool) : Limbs × Bool :=
  let d0 := Word.subBorrow a.l0 b.l0 c
  let d1 := Word.subBorrow a.l1 b.l1 d0.2
  let d2 := Word.subBorrow a.l2 b.l2 d1.2
  let d3 := Word.subBorrow a.l3 b.l3 d2.2
  (⟨d0.1, d1.1, d2.1, d3.1⟩, d3.2)

/-- Keeps in every word the bits set in `w`. -/
@[inline] def keep (a : Limbs) (w : UInt64) : Limbs :=
  ⟨w &&& a.l0, w &&& a.l1, w &&& a.l2, w &&& a.l3⟩

/-- The first number where the wide mask is zero, the second where it is all ones. -/
@[inline] def choose (a b : Limbs) (w : UInt64) : Limbs :=
  ⟨Mask.choose a.l0 b.l0 w, Mask.choose a.l1 b.l1 w, Mask.choose a.l2 b.l2 w,
    Mask.choose a.l3 b.l3 w⟩

@[inline] def halve (a : Limbs) : Limbs :=
  ⟨(a.l0 >>> 1) ||| (a.l1 <<< 63), (a.l1 >>> 1) ||| (a.l2 <<< 63),
    (a.l2 >>> 1) ||| (a.l3 <<< 63), a.l3 >>> 1⟩

/-- The order of the values, from the borrows of both differences. -/
def compare (a b : Limbs) : Ordering :=
  if (b.subBorrow a false).2 then .gt
  else if (a.subBorrow b false).2 then .lt
  else .eq

def isZero (a : Limbs) : UInt32 := Mask.ofZero (a.l0 ||| a.l1 ||| a.l2 ||| a.l3)

def equals (a b : Limbs) : UInt32 :=
  Mask.ofZero ((a.l0 ^^^ b.l0) ||| (a.l1 ^^^ b.l1) ||| (a.l2 ^^^ b.l2) ||| (a.l3 ^^^ b.l3))

theorem keep_fill (a : Limbs) (c : Bool) : a.keep (Word.fill c) = if c then a else zero := by
  cases c
  · simp [keep, Word.fill_false, zero, ofWord]
  · have h : ∀ w : UInt64, 0xFFFFFFFFFFFFFFFF &&& w = w := fun w => UInt64.neg_one_and
    simp [keep, Word.fill_true, h]

theorem choose_fill (a b : Limbs) (c : Bool) :
    a.choose b (Word.fill c) = if c then b else a := by
  cases c
  · simp [choose, Word.fill_false, Mask.choose_zero]
  · simp [choose, Word.fill_true, Mask.choose_ones]

theorem isZero_eq (a : Limbs) : a.isZero = if a = zero then Mask.yes else 0 := by
  obtain ⟨l0, l1, l2, l3⟩ := a
  simp only [isZero, Mask.ofZero_eq, zero, ofWord, mk.injEq, UInt64.or_eq_zero_iff, and_assoc]

theorem equals_eq (a b : Limbs) : a.equals b = if a = b then Mask.yes else 0 := by
  obtain ⟨a0, a1, a2, a3⟩ := a
  obtain ⟨b0, b1, b2, b3⟩ := b
  simp only [equals, Mask.ofZero_eq, mk.injEq, UInt64.or_eq_zero_iff, UInt64.xor_eq_zero_iff,
    and_assoc]

end Limbs

end KoblitzCurve
