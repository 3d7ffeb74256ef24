import KoblitzCurve.Proofs.RequestHistory

/-! What a second setting up is good for. It looks at the flag alone and does nothing where the flag
is set, so that it does not bring back a table given up in the meantime: multiples of the generator
are refused then, although the flag says otherwise. No other history leads to this. -/
namespace KoblitzCurve.Precomputation
open JacobianPoint
variable {s : Precomputation}

end KoblitzCurve.Precomputation
