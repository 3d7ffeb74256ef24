import KoblitzCurve.Entropy
import KoblitzCurve.Processor
import KoblitzCurve.ScalarMultiple
import KoblitzCurve.Precomputation
import KoblitzCurve.SharedPrecomputation
import KoblitzCurve.Proofs.PrimeModuli
import KoblitzCurve.Proofs.ResidueArithmetic
import KoblitzCurve.Proofs.ExactSums
import KoblitzCurve.Proofs.WordOperands
import KoblitzCurve.Proofs.NumeralRoundTrips
import KoblitzCurve.Proofs.Halving
import KoblitzCurve.Proofs.MontgomeryDomain
import KoblitzCurve.Proofs.MontgomeryReduction
import KoblitzCurve.Proofs.MontgomeryProduct
import KoblitzCurve.Proofs.MontgomerySquares
import KoblitzCurve.Proofs.MontgomeryConversion
import KoblitzCurve.Proofs.MontgomeryInverse
import KoblitzCurve.Proofs.CurveGroup
import KoblitzCurve.Proofs.PointArithmetic
import KoblitzCurve.Proofs.AffinePoints
import KoblitzCurve.Proofs.MixedSums
import KoblitzCurve.Proofs.DigitSums
import KoblitzCurve.Proofs.ScalarMultiplication
import KoblitzCurve.Proofs.CurveOperations
import KoblitzCurve.Proofs.GroupOrder
import KoblitzCurve.Proofs.ScalarRecoding
import KoblitzCurve.Proofs.ScalarHomomorphism
import KoblitzCurve.Proofs.PointSums
import KoblitzCurve.Proofs.FiniteDoubles
import KoblitzCurve.Proofs.AffineConversion
import KoblitzCurve.Proofs.PointEquality
import KoblitzCurve.Proofs.ChordTangent
import KoblitzCurve.Proofs.RequestHistory
import KoblitzCurve.Proofs.RepeatedSetUp
import KoblitzCurve.Proofs.ThreadSteps
import KoblitzCurve.Proofs.LockHolder
import KoblitzCurve.Proofs.FairSchedules
import KoblitzCurve.Proofs.CallOrder
import KoblitzCurve.Proofs.ConcurrentRequests
