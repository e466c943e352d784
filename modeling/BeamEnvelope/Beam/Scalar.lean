/-!
# Scalars

Beam dynamics is written once for every kind of number that has the operations below. Programs run
it on doubles. Equations that hold only without rounding are read over exact numbers.
-/

namespace BeamEnvelope

class Scalar (K : Type) extends Add K, Sub K, Mul K, Div K, Neg K, OfScientific K where
  lt : K → K → Bool
  eq : K → K → Bool
  sqrt : K → K
  sin : K → K
  cos : K → K
  tan : K → K
  sinh : K → K
  cosh : K → K
  pi : K
  /-- One degree in radians. -/
  degree : K

namespace Scalar

variable {K : Type} [Scalar K]

def isPositive (x : K) : Bool := lt 0.0 x

def isNegative (x : K) : Bool := lt x 0.0

def isZero (x : K) : Bool := eq x 0.0

end Scalar

instance : Scalar Float where
  lt a b := a < b
  eq a b := a == b
  sqrt := Float.sqrt
  sin := Float.sin
  cos := Float.cos
  tan := Float.tan
  sinh := Float.sinh
  cosh := Float.cosh
  pi := 3.141592653589793
  degree := 0.017453292519943295

end BeamEnvelope
