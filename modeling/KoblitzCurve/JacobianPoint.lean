import KoblitzCurve.FieldElement
import KoblitzCurve.Radix

/-! Points (X, Y, Z) of the curve y^2 = x^3 + 7, with coordinates in the Montgomery domain. They stand
for (X / Z^2, Y / Z^3), or for the point at infinity if Z is zero. The cases that the formulas for
sums leave out are put in place by masks. -/
namespace KoblitzCurve

structure JacobianPoint where
  x : FieldElement
  y : FieldElement
  z : FieldElement
  deriving DecidableEq, Repr

/-- A point in affine coordinates. Both coordinates are zero for the point at infinity, as
(0, 0) is not on the curve. -/
structure AffinePoint where
  x : FieldElement
  y : FieldElement
  deriving DecidableEq, Repr

namespace AffinePoint

def infinity : AffinePoint := ⟨.zero, .zero⟩

def isInfinity (a : AffinePoint) : UInt32 := a.x.isZero &&& a.y.isZero

def replaceIf (a b : AffinePoint) (mask : UInt32) : AffinePoint :=
  ⟨a.x.replaceIf b.x mask, a.y.replaceIf b.y mask⟩

def negateIf (a : AffinePoint) (mask : UInt32) : AffinePoint :=
  ⟨a.x, a.y.replaceIf (-a.y) mask⟩

theorem replaceIf_zero (a b : AffinePoint) : a.replaceIf b 0 = a := by
  simp only [replaceIf, Residue.replaceIf_zero]

theorem replaceIf_yes (a b : AffinePoint) : a.replaceIf b Mask.yes = b := by
  simp only [replaceIf, Residue.replaceIf_yes]

theorem negateIf_zero (a : AffinePoint) : a.negateIf 0 = a := by
  simp only [negateIf, Residue.replaceIf_zero]

theorem negateIf_yes (a : AffinePoint) : a.negateIf Mask.yes = ⟨a.x, -a.y⟩ := by
  simp only [negateIf, Residue.replaceIf_yes]

end AffinePoint

namespace JacobianPoint

def neutral : JacobianPoint := ⟨.zero, .montOne, .zero⟩

/-- The conventional generator. -/
def generator : JacobianPoint :=
  ⟨.ofWords 0xD7362E5A487E2097 0x231E295329BC66DB 0x979F48C033FD129C 0x9981E643E9089F48,
    .ofWords 0xB15EA6D2D3DBABE2 0x8DFC5D5D1F1DC64D 0x70B6B59AAC19C136 0xCF3F851FD4A582D6,
    .montOne⟩

def isInfinity (p : JacobianPoint) : UInt32 := p.z.isZero

def replaceIf (p q : JacobianPoint) (mask : UInt32) : JacobianPoint :=
  ⟨p.x.replaceIf q.x mask, p.y.replaceIf q.y mask, p.z.replaceIf q.z mask⟩

def neg (p : JacobianPoint) : JacobianPoint := ⟨p.x, -p.y, p.z⟩

instance : Neg JacobianPoint := ⟨neg⟩

def negateIf (p : JacobianPoint) (mask : UInt32) : JacobianPoint :=
  ⟨p.x, p.y.replaceIf (-p.y) mask, p.z⟩

/-- With S = 4 X Y^2, M = 3 X^2 and T = 8 Y^4 the double is (M^2 - 2 S, M (S - X') - T, 2 Y Z).
It needs no other case: the point at infinity keeps Z = 0. -/
def double (p : JacobianPoint) : JacobianPoint :=
  let y2 := p.y.double
  let z' := y2.montMul p.z
  let y4 := y2.montSquare
  let t := y4.montSquare.half
  let m := p.x.montSquare.triple
  let s := y4.montMul p.x
  let x' := m.montSquare - s.double
  let y' := (s - x').montMul m - t
  ⟨x', y', z'⟩

/-- The point doubled `n` times over. -/
def doubleTimes (p : JacobianPoint) : Nat → JacobianPoint
  | 0 => p
  | n + 1 => doubleTimes p.double n

/-- The sum from the differences of the two abscissas and of the two ordinates, each brought to
the product of both denominators. -/
@[inline] def ofDifferences (u1 s1 h r z : FieldElement) : JacobianPoint :=
  let hh := h.montSquare
  let hhh := hh.montMul h
  let v := u1.montMul hh
  let x := r.montSquare - hhh - v.double
  let y := r.montMul (v - x) - s1.montMul hhh
  ⟨x, y, z⟩

/-- Puts in place the sums that the formula leaves out: the double for two equal finite points,
which make both differences zero, and the other operand for one at infinity. -/
@[inline] def settle (sum p q : JacobianPoint) (h r : FieldElement) (infinite1 infinite2 : UInt32) :
    JacobianPoint :=
  let same := h.isZero &&& r.isZero &&& ~~~infinite1 &&& ~~~infinite2
  ((sum.replaceIf p.double same).replaceIf q infinite1).replaceIf p infinite2

def add (p q : JacobianPoint) : JacobianPoint :=
  let z1z1 := p.z.montSquare
  let z2z2 := q.z.montSquare
  let u1 := p.x.montMul z2z2
  let u2 := q.x.montMul z1z1
  let s1 := (p.y.montMul z2z2).montMul q.z
  let s2 := (q.y.montMul z1z1).montMul p.z
  let h := u2 - u1
  let r := s2 - s1
  settle (ofDifferences u1 s1 h r ((h.montMul p.z).montMul q.z)) p q h r p.isInfinity q.isInfinity

instance : Add JacobianPoint := ⟨add⟩

def sub (p q : JacobianPoint) : JacobianPoint := p + -q

instance : Sub JacobianPoint := ⟨sub⟩

/-- The sum with an affine point, which spares the products by its Z = 1. -/
def addAffine (p : JacobianPoint) (a : AffinePoint) : JacobianPoint :=
  let z1z1 := p.z.montSquare
  let u2 := a.x.montMul z1z1
  let s2 := (a.y.montMul z1z1).montMul p.z
  let h := u2 - p.x
  let r := s2 - p.y
  settle (ofDifferences p.x p.y h r (h.montMul p.z)) p ⟨a.x, a.y, .montOne⟩ h r p.isInfinity
    a.isInfinity

/-- Whether both stand for the same point, without division: each coordinate is brought to the
product of both denominators. -/
def equals (p q : JacobianPoint) : UInt32 :=
  let z1z1 := p.z.montSquare
  let z2z2 := q.z.montSquare
  let sameX := (p.x.montMul z2z2).equals (q.x.montMul z1z1)
  let sameY := ((p.y.montMul z2z2).montMul q.z).equals ((q.y.montMul z1z1).montMul p.z)
  let infinite1 := p.isInfinity
  let infinite2 := q.isInfinity
  (infinite1 &&& infinite2) ||| (~~~infinite1 &&& ~~~infinite2 &&& sameX &&& sameY)

/-- Whether Y^2 = X^3 + 7 Z^6, or the point is at infinity. The factor 7 is a plain word, as
word multiples are the same inside and outside the Montgomery domain. -/
def isOnCurve (p : JacobianPoint) : UInt32 :=
  let yy := p.y.montSquare
  let xxx := p.x.montSquare.montMul p.x
  let zz := p.z.montSquare
  let z6 := zz.montSquare.montMul zz
  yy.equals (xxx + z6.mulWord 7) ||| p.z.isZero

/-- The affine point, still in the Montgomery domain. As zero is its own inverse here, the
point at infinity gives (0, 0). -/
def toAffineMont (p : JacobianPoint) : AffinePoint :=
  let zi := p.z.montInverse
  let zi2 := zi.montSquare
  ⟨p.x.montMul zi2, (p.y.montMul zi2).montMul zi⟩

/-- The plain affine coordinates of a finite point. -/
def toAffine (p : JacobianPoint) : Except Fault (FieldElement × FieldElement) :=
  if p.isInfinity ≠ 0 then .error .infinitePoint
  else
    let a := p.toAffineMont
    .ok (a.x.fromMont, a.y.fromMont)

/-- The point with these plain affine coordinates, if they solve the equation of the curve. -/
def ofAffine (x y : FieldElement) : Except Fault JacobianPoint :=
  let p : JacobianPoint := ⟨x.toMont, y.toMont, .montOne⟩
  if p.isOnCurve = 0 then .error .offCurve else .ok p

def ofAffineMont (a : AffinePoint) : JacobianPoint :=
  ⟨a.x, a.y, Residue.montOne.replaceIf .zero a.isInfinity⟩

instance : ToString JacobianPoint :=
  ⟨fun p => "X: " ++ toString p.x ++ "\nY: " ++ toString p.y ++ "\nZ: " ++ toString p.z⟩

theorem replaceIf_zero (p q : JacobianPoint) : p.replaceIf q 0 = p := by
  simp only [replaceIf, Residue.replaceIf_zero]

theorem replaceIf_yes (p q : JacobianPoint) : p.replaceIf q Mask.yes = q := by
  simp only [replaceIf, Residue.replaceIf_yes]

theorem negateIf_zero (p : JacobianPoint) : p.negateIf 0 = p := by
  simp only [negateIf, Residue.replaceIf_zero]

theorem negateIf_yes (p : JacobianPoint) : p.negateIf Mask.yes = -p := by
  simp only [negateIf, Residue.replaceIf_yes]
  rfl

end JacobianPoint

end KoblitzCurve
