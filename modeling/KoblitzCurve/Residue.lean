import KoblitzCurve.Limbs

/-! Numbers of 256 bits taken modulo an odd number just below 2^256. A residue holds any such number
and is not brought below the modulus by itself; operations subtract or add the modulus once. -/
namespace KoblitzCurve

/-- With the top word full, a 256-bit number is below twice the modulus. -/
structure Modulus where
  limbs : Limbs
  odd : limbs.l0 &&& 1 = 1
  top_full : limbs.l3 = 0xFFFFFFFFFFFFFFFF
  deriving DecidableEq, Repr

namespace Modulus

/-- The modulus of these four words, least significant first, if it is admissible. -/
def ofWords? (l0 l1 l2 l3 : UInt64) : Option Modulus :=
  if h : l0 &&& 1 = 1 ∧ l3 = 0xFFFFFFFFFFFFFFFF then some ⟨⟨l0, l1, l2, l3⟩, h.1, h.2⟩ else none

/-- 2^256 less the modulus, which is what 2^256 leaves. -/
@[inline] def gap (m : Modulus) : Limbs := (Limbs.zero.subBorrow m.limbs false).1

/-- Half of one, that is (m + 1) / 2. -/
@[inline] def halfUp (m : Modulus) : Limbs := (m.limbs.halve.addCarry Limbs.one false).1

end Modulus

structure Residue (m : Modulus) where
  limbs : Limbs
  deriving DecidableEq, Repr

namespace Residue
variable {m : Modulus}

def zero : Residue m := ⟨Limbs.zero⟩

def one : Residue m := ⟨Limbs.one⟩

/-- The modulus itself, as a number that is not reduced. -/
def modulus : Residue m := ⟨m.limbs⟩

def ofWord (w : UInt64) : Residue m := ⟨Limbs.ofWord w⟩

/-- Least significant word first. -/
def ofWords (l0 l1 l2 l3 : UInt64) : Residue m := ⟨⟨l0, l1, l2, l3⟩⟩

/-- Most significant word first. -/
def ofWordsBig (l3 l2 l1 l0 : UInt64) : Residue m := ⟨⟨l0, l1, l2, l3⟩⟩

/-- The sum less the modulus, with the modulus added back where the carry less the borrow has
bits set: in all words if the difference was negative, in the lowest bits if it still has a
carry, which needs a sum of at least 2^256 plus the modulus. -/
@[inline] def add (a b : Residue m) : Residue m :=
  let s := a.limbs.addCarry b.limbs false
  let d := s.1.subBorrow m.limbs false
  let back := s.2.toUInt64 - d.2.toUInt64
  ⟨(d.1.addCarry (m.limbs.keep back) false).1⟩

/-- The difference, with the modulus added back once if it borrowed. -/
@[inline] def sub (a b : Residue m) : Residue m :=
  let d := a.limbs.subBorrow b.limbs false
  ⟨(d.1.addCarry (m.limbs.keep (Word.fill d.2)) false).1⟩

@[inline] def neg (a : Residue m) : Residue m := sub zero a

instance : Add (Residue m) := ⟨add⟩

instance : Sub (Residue m) := ⟨sub⟩

instance : Neg (Residue m) := ⟨neg⟩

def double (a : Residue m) : Residue m := a + a

def triple (a : Residue m) : Residue m := a + a + a

/-- Half of the number, rounded down, and half of one more if it was odd. -/
def half (a : Residue m) : Residue m :=
  let w := 0 - (a.limbs.l0 &&& 1)
  ⟨(a.limbs.halve.addCarry (m.halfUp.keep w) false).1⟩

/-- At most one subtraction of the modulus. -/
@[inline] def reduce (a : Residue m) : Residue m :=
  let d := a.limbs.subBorrow m.limbs false
  ⟨d.1.choose a.limbs (Word.fill d.2)⟩

/-- The residue of `d + h * 2^256`: the word `h` is folded in as a multiple of the gap, a carry
out of that as the gap once more. -/
def fold (d : Limbs) (h : UInt64) : Residue m :=
  let t0 := Word.mulAdd h m.gap.l0 d.l0 0
  let t1 := Word.mulAdd h m.gap.l1 d.l1 t0.high
  let t2 := Word.mulAdd h m.gap.l2 d.l2 t1.high
  let t3 := Word.addCarry d.l3 t2.high false
  let t : Limbs := ⟨t0.low, t1.low, t2.low, t3.1⟩
  reduce ⟨(t.addCarry (m.gap.keep (Word.fill t3.2)) false).1⟩

def addWord (a : Residue m) (w : UInt64) : Residue m :=
  let s := a.limbs.addCarry (Limbs.ofWord w) false
  fold s.1 s.2.toUInt64

def subWord (a : Residue m) (w : UInt64) : Residue m := a - ofWord w

def mulWord (a : Residue m) (w : UInt64) : Residue m :=
  let p0 := Word.mul a.limbs.l0 w
  let p1 := Word.mulAdd a.limbs.l1 w p0.high 0
  let p2 := Word.mulAdd a.limbs.l2 w p1.high 0
  let p3 := Word.mulAdd a.limbs.l3 w p2.high 0
  fold ⟨p0.low, p1.low, p2.low, p3.low⟩ p3.high

/-- The order of the numbers held, not of their residues. -/
def compare (a b : Residue m) : Ordering := a.limbs.compare b.limbs

def isZero (a : Residue m) : UInt32 := a.limbs.isZero

def equals (a b : Residue m) : UInt32 := a.limbs.equals b.limbs

/-- `b` where the mask is set, `a` otherwise. -/
@[inline] def replaceIf (a b : Residue m) (mask : UInt32) : Residue m :=
  ⟨a.limbs.choose b.limbs (Mask.widen mask)⟩

/-- Both numbers, exchanged where the mask is set. -/
def exchangeIf (a b : Residue m) (mask : UInt32) : Residue m × Residue m :=
  (a.replaceIf b mask, b.replaceIf a mask)

theorem replaceIf_zero (a b : Residue m) : a.replaceIf b 0 = a := by
  simp [replaceIf, Mask.widen_zero, Limbs.choose, Mask.choose_zero]

theorem replaceIf_yes (a b : Residue m) : a.replaceIf b Mask.yes = b := by
  simp [replaceIf, Mask.widen_yes, Limbs.choose, Mask.choose_ones]

theorem isZero_eq (a : Residue m) : a.isZero = if a = zero then Mask.yes else 0 := by
  obtain ⟨a⟩ := a
  simp [isZero, zero, Limbs.isZero_eq]

theorem equals_eq (a b : Residue m) : a.equals b = if a = b then Mask.yes else 0 := by
  obtain ⟨a⟩ := a
  obtain ⟨b⟩ := b
  simp [equals, Limbs.equals_eq]

end Residue

end KoblitzCurve
