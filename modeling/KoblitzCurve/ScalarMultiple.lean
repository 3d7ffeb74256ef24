import KoblitzCurve.GeneratorTable
import KoblitzCurve.SignedDigits
import KoblitzCurve.WindowTable

/-! Multiples of points by scalars, digit by digit. -/
namespace KoblitzCurve.JacobianPoint

def signedMultiple (table : WindowTable) (d : SignedDigit) : JacobianPoint :=
  (table.lookup d.magnitude).negateIf d.negative

/-- The sum of the selected multiples, each digit counting 32 times the one below it. -/
def sumOfDigits (table : WindowTable) : List SignedDigit → JacobianPoint
  | [] => neutral
  | [d] => signedMultiple table d
  | d :: higher => (sumOfDigits table higher).doubleTimes 5 + signedMultiple table d

def mul (p : JacobianPoint) (k : Scalar) : JacobianPoint :=
  sumOfDigits (.ofPoint p) (Scalar.digits 5 52 k)

def signedEntry (table : GeneratorTable) (row : Nat) (d : SignedDigit) : AffinePoint :=
  (table.lookup row d.magnitude).negateIf d.negative

/-- Adds the entries that the digits select, the first one from the given row and the others
each from the next row. -/
def addEntries (table : GeneratorTable) : Nat → JacobianPoint → List SignedDigit → JacobianPoint
  | _, p, [] => p
  | row, p, d :: higher =>
    addEntries table (row + 1) (p.addAffine (signedEntry table row d)) higher

def mulGenerator (table : GeneratorTable) (k : Scalar) : JacobianPoint :=
  match Scalar.digits 7 GeneratorTable.rowCount k with
  | [] => neutral
  | d :: higher => addEntries table 1 (ofAffineMont (signedEntry table 0 d)) higher

end KoblitzCurve.JacobianPoint
