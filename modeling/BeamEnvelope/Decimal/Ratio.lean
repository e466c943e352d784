/-!
# The exact value of a double

Every finite double is a ratio of two natural numbers with a sign. Decimal texts are computed from
that ratio in exact arithmetic, so no digit depends on a rounded intermediate result.
-/

namespace BeamEnvelope

structure Ratio where
  num : Nat
  den : Nat
  den_pos : 0 < den

namespace Ratio

/-- The absolute value of a finite double. The exponent field of a subnormal counts as 1, and at
most one of the two powers of two differs from 1. -/
def ofFloat (x : Float) : Ratio :=
  let bits := x.toBits.toNat
  let fraction := bits % Nat.pow 2 52
  let field := bits / Nat.pow 2 52 % Nat.pow 2 11
  let mantissa := if field = 0 then fraction else Nat.pow 2 52 + fraction
  let scale := max field 1
  ⟨mantissa * Nat.pow 2 (scale - 1075), Nat.pow 2 (1075 - scale), Nat.two_pow_pos _⟩

/-- The ratio measured in units of `10 ^ k`. -/
def inUnits (r : Ratio) (k : Int) : Ratio :=
  ⟨r.num * Nat.pow 10 (-k).toNat, r.den * Nat.pow 10 k.toNat,
    Nat.mul_pos r.den_pos (Nat.pow_pos (by decide))⟩

def floor (r : Ratio) : Nat := r.num / r.den

/-- Whether the ratio lies at or above the middle of two neighbouring natural numbers. -/
def upperHalf (r : Ratio) : Bool := r.den ≤ 2 * (r.num % r.den)

/-- The nearest natural number, the even one of two that are equally near. -/
def roundEven (r : Ratio) : Nat :=
  let twice := 2 * (r.num % r.den)
  if twice < r.den || (twice == r.den && r.floor % 2 == 0) then r.floor else r.floor + 1

/-- The `e` with `10 ^ e ≤ r < 10 ^ (e + 1)`, for a positive ratio. -/
def decade (r : Ratio) : Int :=
  if r.den ≤ r.num then
    ((Nat.toDigits 10 r.floor).length : Int) - 1
  else
    -((Nat.toDigits 10 ((r.den - 1) / r.num)).length : Int)

end Ratio

end BeamEnvelope
