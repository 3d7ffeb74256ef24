/-! Reasons for which an operation of the library refuses its input or cannot go on. -/
namespace KoblitzCurve

inductive Fault
  | invalidDigit
  | wrongLength (actual limit : Nat)
  | infinitePoint
  | offCurve
  | outOfMemory
  | brokenLock
  | notInitialized
  | exhaustedSource
  deriving DecidableEq, Repr

/-- The sentence shown for a fault. A wrong length is given with the longest one allowed. -/
def Fault.message : Fault → String
  | invalidDigit => "invalid argument"
  | wrongLength actual limit =>
    "invalid length: " ++ toString actual ++ " (maximum: " ++ toString limit ++ ")"
  | infinitePoint => "point at infinity has no affine representation"
  | offCurve => "point is not on the curve"
  | outOfMemory => "allocation failure"
  | brokenLock => "lock failure"
  | notInitialized => "context not initialized"
  | exhaustedSource => "random source failure"

instance : ToString Fault := ⟨Fault.message⟩

end KoblitzCurve
