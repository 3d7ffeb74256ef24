/-! Instruction sets that a processor may offer, and the arithmetic chosen for it. -/
namespace KoblitzCurve

structure ProcessorFeatures where
  sse2 : Bool := false
  sse3 : Bool := false
  ssse3 : Bool := false
  sse41 : Bool := false
  avx : Bool := false
  avx2 : Bool := false
  bmi2 : Bool := false
  neon : Bool := false
  deriving DecidableEq, Repr

namespace ProcessorFeatures

/-- The names of the features present, in a fixed order. -/
def names (f : ProcessorFeatures) : List String :=
  ([(f.sse2, "sse2"), (f.sse3, "sse3"), (f.ssse3, "ssse3"), (f.sse41, "sse4.1"), (f.avx, "avx"),
    (f.avx2, "avx2"), (f.bmi2, "bmi2"), (f.neon, "neon")].filter (·.1)).map (·.2)

/-- The names with commas between them, or "none". -/
def describe (f : ProcessorFeatures) : String :=
  match f.names with
  | [] => "none"
  | names => ",".intercalate names

instance : ToString ProcessorFeatures := ⟨describe⟩

end ProcessorFeatures

/-- There is one arithmetic for all processors: words of 64 bits with products of 128. -/
inductive Arithmetic
  | portable
  deriving DecidableEq, Repr

namespace Arithmetic

def select (_ : ProcessorFeatures) : Arithmetic := portable

def name : Arithmetic → String
  | portable => "portable-w64"

end Arithmetic

end KoblitzCurve
