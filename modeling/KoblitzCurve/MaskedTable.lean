import KoblitzCurve.JacobianPoint

/-! Tables that are read and written as a whole: every access visits all entries and applies a
mask to each, so that the index shows in no address. -/
namespace KoblitzCurve

class MaskedEntry (α : Type) where
  /-- What a reading outside the table gives. -/
  blank : α
  replaceIf : α → α → UInt32 → α

instance : MaskedEntry JacobianPoint := ⟨⟨.zero, .zero, .zero⟩, JacobianPoint.replaceIf⟩

instance : MaskedEntry AffinePoint := ⟨.infinity, AffinePoint.replaceIf⟩

namespace MaskedTable
variable {α : Type} [MaskedEntry α]

/-- Goes through the entries from place `j` on and keeps the one at place `i`. -/
def gatherFrom (i : UInt32) : UInt32 → α → List α → α
  | _, kept, [] => kept
  | j, kept, e :: rest =>
    gatherFrom i (j + 1) (MaskedEntry.replaceIf kept e (Mask.ofEq i j)) rest

def gather (table : List α) (i : UInt32) : α := gatherFrom i 0 MaskedEntry.blank table

def scatterFrom (value : α) (i : UInt32) : UInt32 → List α → List α
  | _, [] => []
  | j, e :: rest =>
    MaskedEntry.replaceIf e value (Mask.ofEq i j) :: scatterFrom value i (j + 1) rest

def scatter (table : List α) (value : α) (i : UInt32) : List α := scatterFrom value i 0 table

end MaskedTable

end KoblitzCurve
