import KoblitzCurve.MaskedTable

/-! The multiples 1 to 16 of a point. They are computed by an addition chain on five registers:
each line doubles an earlier multiple or adds the point to it, and files the result. -/
namespace KoblitzCurve

namespace WindowTable

inductive Rule
  | double
  | addBase
  deriving DecidableEq, Repr

/-- A line of the chain: `target` becomes the multiple that `rule` makes of `source`, and the
result is filed as the given multiple. -/
structure Line where
  multiple : UInt32
  target : Fin 5
  rule : Rule
  source : Fin 5
  deriving DecidableEq, Repr

/-- The chain 2 3 4 6 5 7 8 12 10 14 13 11 15 9 16 from the point in register 0. -/
def chain : List Line :=
  [⟨2, 1, .double, 0⟩, ⟨3, 2, .addBase, 1⟩, ⟨4, 3, .double, 1⟩, ⟨6, 4, .double, 2⟩,
    ⟨5, 1, .addBase, 3⟩, ⟨7, 2, .addBase, 4⟩, ⟨8, 3, .double, 3⟩, ⟨12, 4, .double, 4⟩,
    ⟨10, 1, .double, 1⟩, ⟨14, 2, .double, 2⟩, ⟨13, 4, .addBase, 4⟩, ⟨11, 1, .addBase, 1⟩,
    ⟨15, 2, .addBase, 2⟩, ⟨9, 4, .addBase, 3⟩, ⟨16, 3, .double, 3⟩]

structure State where
  registers : Vector JacobianPoint 5
  table : List JacobianPoint
  deriving DecidableEq, Repr

def Line.run (s : State) (line : Line) : State :=
  let source := s.registers[line.source]
  let result :=
    match line.rule with
    | .double => source.double
    | .addBase => source + s.registers[0]
  ⟨s.registers.set line.target result,
    MaskedTable.scatter s.table result (line.multiple - 1)⟩

def start (q : JacobianPoint) : State :=
  ⟨(Vector.replicate 5 .neutral).set 0 q,
    MaskedTable.scatter (List.replicate 16 .neutral) q 0⟩

end WindowTable

/-- Entry k - 1 holds the k-fold point, for k from 1 to 16. -/
structure WindowTable where
  entries : List JacobianPoint
  deriving DecidableEq, Repr

namespace WindowTable

def ofPoint (q : JacobianPoint) : WindowTable := ⟨(chain.foldl Line.run (start q)).table⟩

/-- The k-fold point for k from 1 to 16, the all-zero point for any other k. -/
def lookup (t : WindowTable) (k : UInt32) : JacobianPoint := MaskedTable.gather t.entries (k - 1)

end WindowTable

end KoblitzCurve
