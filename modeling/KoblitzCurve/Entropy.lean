import KoblitzCurve.Radix

/-! A source of random bytes, given in the order in which they are drawn. -/
namespace KoblitzCurve

structure Entropy where
  bytes : List UInt8
  deriving DecidableEq, Repr

namespace Entropy

def empty : Entropy := ⟨[]⟩

/-- Draws `n` bytes. A source that holds fewer refuses and gives none away. -/
def draw (source : Entropy) (n : Nat) : Except Fault (List UInt8 × Entropy) :=
  if source.bytes.length < n then .error .exhaustedSource
  else .ok (source.bytes.take n, ⟨source.bytes.drop n⟩)

end Entropy

namespace Residue
variable {m : Modulus}

/-- 256 random bits: four words of eight bytes each, least significant first throughout. -/
def random (source : Entropy) : Except Fault (Residue m × Entropy) := do
  let (bytes, rest) ← source.draw 32
  let word := fun (i : Nat) => Word.ofBytes ((bytes.drop (8 * i)).take 8).reverse
  return (ofWords (word 0) (word 1) (word 2) (word 3), rest)

/-- A random residue below the modulus. -/
def randomReduced (source : Entropy) : Except Fault (Residue m × Entropy) := do
  let (a, rest) ← random source
  return (a.reduce, rest)

end Residue

end KoblitzCurve
