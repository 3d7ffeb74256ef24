import KoblitzCurve.Processor
import KoblitzCurve.ScalarMultiple

/-! What generator multiples need prepared: the generator table, and the arithmetic chosen for
the processor. A table once handed out is a value of its own. -/
namespace KoblitzCurve

/-- The flag and the slots are changed by different operations: only `init` and `deinit` look
at the flag, and only `generateTable` and `freeTable` look at the table alone. -/
structure Precomputation where
  initialized : Bool
  table : Option GeneratorTable
  features : Option ProcessorFeatures
  arithmetic : Arithmetic
  /-- How often a table was built, modulo `2 ^ 64`. -/
  builds : UInt64
  deriving DecidableEq, Repr

namespace Precomputation

def empty : Precomputation := ⟨false, none, none, .portable, 0⟩

/-- Builds the table unless there is one. -/
def generateTable (s : Precomputation) : Precomputation :=
  if s.table.isSome then s else { s with table := some .full, builds := s.builds + 1 }

def freeTable (s : Precomputation) : Precomputation := { s with table := none }

/-- Builds the table unless there is one, and chooses the arithmetic. -/
def prepare (detected : ProcessorFeatures) (s : Precomputation) : Precomputation :=
  { s.generateTable with features := some detected, arithmetic := .select detected }

def discard (s : Precomputation) : Precomputation := { s with table := none, features := none }

def init (detected : ProcessorFeatures) (s : Precomputation) : Precomputation :=
  if s.initialized then s else { s.prepare detected with initialized := true }

def deinit (s : Precomputation) : Precomputation :=
  if s.initialized then { s.discard with initialized := false } else s

def table? (s : Precomputation) : Except Fault GeneratorTable :=
  match s.table with
  | some table => .ok table
  | none => .error .notInitialized

def mulGenerator (s : Precomputation) (k : Scalar) : Except Fault JacobianPoint :=
  s.table?.map fun table => .mulGenerator table k

inductive Request
  | init (detected : ProcessorFeatures)
  | deinit
  | generateTable
  | freeTable
  | table
  | mulGenerator (k : Scalar)
  | features
  | arithmetic
  | isInitialized
  deriving DecidableEq, Repr

inductive Reply
  | done
  | table (result : Except Fault GeneratorTable)
  | point (result : Except Fault JacobianPoint)
  | features (features : Option ProcessorFeatures)
  | arithmetic (arithmetic : Arithmetic)
  | isInitialized (flag : Bool)
  deriving Repr

/-- Answers a request, and gives what is prepared afterwards. -/
def answer (s : Precomputation) : Request → Reply × Precomputation
  | .init detected => (.done, s.init detected)
  | .deinit => (.done, s.deinit)
  | .generateTable => (.done, s.generateTable)
  | .freeTable => (.done, s.freeTable)
  | .table => (.table s.table?, s)
  | .mulGenerator k => (.point (s.mulGenerator k), s)
  | .features => (.features s.features, s)
  | .arithmetic => (.arithmetic s.arithmetic, s)
  | .isInitialized => (.isInitialized s.initialized, s)

/-- The replies to requests made one after the other. -/
def answers (s : Precomputation) : List Request → List Reply × Precomputation
  | [] => ([], s)
  | request :: rest =>
    let first := s.answer request
    let others := first.2.answers rest
    (first.1 :: others.1, others.2)

end Precomputation

end KoblitzCurve
