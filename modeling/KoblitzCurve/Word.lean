/-! Sums, differences and products of 64-bit words together with what leaves the word. -/
namespace KoblitzCurve

namespace Word

/-- The word of `x + y + c`, and the carry out of it. -/
@[inline] def addCarry (x y : UInt64) (c : Bool) : UInt64 × Bool :=
  let s := x + y
  let t := s + c.toUInt64
  (t, s < x || t < s)

/-- The word of `x - y - b`, and the borrow out of it. -/
@[inline] def subBorrow (x y : UInt64) (b : Bool) : UInt64 × Bool :=
  let d := x - y
  let e := d - b.toUInt64
  (e, x < y || d < e)

/-- All ones for `true`, zero for `false`. -/
@[inline] def fill (b : Bool) : UInt64 := 0 - b.toUInt64

end Word

/-- A number of two words. -/
structure WordPair where
  low : UInt64
  high : UInt64
  deriving DecidableEq, Repr

namespace Word

/-- The exact value of `x * y + c + d`, which never needs more than two words. The product
is put together from the four products of half words. -/
def mulAdd (x y c d : UInt64) : WordPair :=
  let x0 := x &&& 0xFFFFFFFF
  let x1 := x >>> 32
  let y0 := y &&& 0xFFFFFFFF
  let y1 := y >>> 32
  let middle := x1 * y0 + ((x0 * y0) >>> 32)
  let cross := x0 * y1 + (middle &&& 0xFFFFFFFF)
  let high := x1 * y1 + (middle >>> 32) + (cross >>> 32)
  let s := addCarry (x * y) c false
  let t := addCarry s.1 d false
  ⟨t.1, high + s.2.toUInt64 + t.2.toUInt64⟩

@[inline] def mul (x y : UInt64) : WordPair := mulAdd x y 0 0

theorem fill_false : fill false = 0 := rfl

theorem fill_true : fill true = 0xFFFFFFFFFFFFFFFF := rfl

end Word

end KoblitzCurve
