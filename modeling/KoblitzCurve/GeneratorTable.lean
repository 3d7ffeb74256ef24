import KoblitzCurve.MaskedTable

/-! The affine multiples of the generator from which its scalar multiples are put together:
row i holds the multiples 1 to 64 of 2^(7 i) times the generator. -/
namespace KoblitzCurve

structure GeneratorTable where
  rows : List (List AffinePoint)
  deriving DecidableEq, Repr

namespace GeneratorTable

def rowCount : Nat := 37

def columnCount : Nat := 64

/-- Files `p` in the first row, and in each further row the point of the row before doubled
seven times over, all at the same place. -/
def fileColumn (column : UInt32) : JacobianPoint → List (List AffinePoint) → List (List AffinePoint)
  | _, [] => []
  | p, row :: rest =>
    MaskedTable.scatter row p.toAffineMont column :: fileColumn column (p.doubleTimes 7) rest

/-- Files the next multiple of the generator, and goes on to the one after it. -/
def advance (s : JacobianPoint × List (List AffinePoint)) (column : Nat) :
    JacobianPoint × List (List AffinePoint) :=
  (s.1 + .generator, fileColumn column.toUInt32 s.1 s.2)

def emptyRows : List (List AffinePoint) :=
  List.replicate rowCount (List.replicate columnCount .infinity)

def full : GeneratorTable :=
  ⟨((List.range columnCount).foldl advance (.generator, emptyRows)).2⟩

/-- The k-fold entry of a row for k from 1 to 64, the point at infinity for any other k. -/
def lookup (t : GeneratorTable) (row : Nat) (k : UInt32) : AffinePoint :=
  MaskedTable.gather (t.rows.getD row []) (k - 1)

end GeneratorTable

end KoblitzCurve
