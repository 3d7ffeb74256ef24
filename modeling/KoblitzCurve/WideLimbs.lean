import KoblitzCurve.Limbs

/-! Numbers of eight words, and the products and squares of numbers of four words. -/
namespace KoblitzCurve

structure WideLimbs where
  low : Limbs
  high : Limbs
  deriving DecidableEq, Repr

namespace WideLimbs

@[inline] def add (s t : WideLimbs) : WideLimbs :=
  let l := s.low.addCarry t.low false
  let h := s.high.addCarry t.high l.2
  ⟨l.1, h.1⟩

/-- Pairs of words side by side; `ofPairsAtOne` and `ofPairsAtTwo` leave the lowest words zero. -/
@[inline] def ofPairs (p q r s : WordPair) : WideLimbs :=
  ⟨⟨p.low, p.high, q.low, q.high⟩, ⟨r.low, r.high, s.low, s.high⟩⟩

@[inline] def ofPairsAtOne (p q r : WordPair) : WideLimbs :=
  ⟨⟨0, p.low, p.high, q.low⟩, ⟨q.high, r.low, r.high, 0⟩⟩

@[inline] def ofPairsAtTwo (p q : WordPair) : WideLimbs :=
  ⟨⟨0, 0, p.low, p.high⟩, ⟨q.low, q.high, 0, 0⟩⟩

@[inline] def ofSumAtThree (p q : WordPair) : WideLimbs :=
  let l := Word.addCarry p.low q.low false
  let h := Word.addCarry p.high q.high l.2
  ⟨⟨0, 0, 0, l.1⟩, ⟨h.1, h.2.toUInt64, 0, 0⟩⟩

@[inline] def twice (t : WideLimbs) : WideLimbs :=
  ⟨⟨t.low.l0 <<< 1, (t.low.l1 <<< 1) ||| (t.low.l0 >>> 63),
      (t.low.l2 <<< 1) ||| (t.low.l1 >>> 63), (t.low.l3 <<< 1) ||| (t.low.l2 >>> 63)⟩,
    ⟨(t.high.l0 <<< 1) ||| (t.low.l3 >>> 63), (t.high.l1 <<< 1) ||| (t.high.l0 >>> 63),
      (t.high.l2 <<< 1) ||| (t.high.l1 >>> 63), (t.high.l3 <<< 1) ||| (t.high.l2 >>> 63)⟩⟩

/-- The product. The products of words are summed in six groups of which no two members
overlap: the diagonal, then those one, two and three words up. -/
def product (a b : Limbs) : WideLimbs :=
  let t := ofPairs (Word.mul a.l0 b.l0) (Word.mul a.l1 b.l1) (Word.mul a.l2 b.l2)
    (Word.mul a.l3 b.l3)
  let t := t.add (ofPairsAtOne (Word.mul a.l0 b.l1) (Word.mul a.l0 b.l3) (Word.mul a.l2 b.l3))
  let t := t.add (ofPairsAtOne (Word.mul a.l1 b.l0) (Word.mul a.l3 b.l0) (Word.mul a.l3 b.l2))
  let t := t.add (ofPairsAtTwo (Word.mul a.l0 b.l2) (Word.mul a.l1 b.l3))
  let t := t.add (ofPairsAtTwo (Word.mul a.l2 b.l0) (Word.mul a.l3 b.l1))
  t.add (ofSumAtThree (Word.mul a.l1 b.l2) (Word.mul a.l2 b.l1))

/-- The sum of the products of two different words of the number, row by row. -/
@[inline] def crossProducts (a : Limbs) : WideLimbs :=
  let r1 := Word.mul a.l0 a.l1
  let r2 := Word.mulAdd a.l0 a.l2 r1.high 0
  let r3 := Word.mulAdd a.l0 a.l3 r2.high 0
  let s3 := Word.mulAdd a.l1 a.l2 r3.low 0
  let s4 := Word.mulAdd a.l1 a.l3 r3.high s3.high
  let t5 := Word.mulAdd a.l2 a.l3 s4.high 0
  ⟨⟨0, r1.low, r2.low, s3.low⟩, ⟨s4.low, t5.low, t5.high, 0⟩⟩

def square (a : Limbs) : WideLimbs :=
  (crossProducts a).twice.add
    (ofPairs (Word.mul a.l0 a.l0) (Word.mul a.l1 a.l1) (Word.mul a.l2 a.l2) (Word.mul a.l3 a.l3))

end WideLimbs

end KoblitzCurve
