import BeamEnvelope.Decimal.Ratio

/-!
# Decimals, and the shortest one that reads back

A decimal is a natural coefficient times a power of ten. The shortest decimal of a double has the
fewest significant digits among those that read back as the same double; of two with equally many
digits the nearer one is taken, and of two equally near the larger.
-/

namespace BeamEnvelope

/-- `coefficient * 10 ^ exponent`. -/
structure Decimal where
  coefficient : Nat
  exponent : Int

namespace Decimal

def toFloat (d : Decimal) : Float :=
  Float.ofScientific d.coefficient (d.exponent < 0) d.exponent.natAbs

def digits (d : Decimal) : List Char := Nat.toDigits 10 d.coefficient

/-- Moves trailing zeros of the coefficient into the exponent. -/
def trim (d : Decimal) : Decimal :=
  if d.coefficient = 0 then ⟨0, 0⟩
  else if d.coefficient % 10 = 0 then trim ⟨d.coefficient / 10, d.exponent + 1⟩
  else d
termination_by d.coefficient
decreasing_by omega

/-- All digits of a ratio whose denominator is a power of two. -/
def expansion (r : Ratio) : Decimal :=
  let places := r.den.log2
  ⟨r.num * Nat.pow 5 places, -(places : Int)⟩

/-- The two multiples of `10 ^ k` around a ratio, the better one first. -/
def neighbours (r : Ratio) (k : Int) : List Decimal :=
  let scaled := r.inUnits k
  let lower : Decimal := ⟨scaled.floor, k⟩
  let upper : Decimal := ⟨scaled.floor + 1, k⟩
  if scaled.upperHalf then [upper, lower] else [lower, upper]

/-- Seventeen digits always suffice to tell a double from all others. -/
def maxDigits : Nat := 17

/-- The shortest decimal of the absolute value of a finite double. -/
def shortest (x : Float) : Decimal :=
  let r := Ratio.ofFloat x
  let found := (List.range maxDigits).findSome? fun (extra : Nat) =>
    (neighbours r (r.decade - (extra : Int))).find? fun d => d.toFloat == x.abs
  (found.getD (expansion r)).trim

/-- A ratio rounded to `n` significant digits, to even on a tie. Zero keeps the exponent that shows
it with `n` digits before it. -/
def significant (n : Nat) (r : Ratio) : Decimal :=
  if r.num = 0 then ⟨0, 1 - (n : Int)⟩
  else
    let k := r.decade + 1 - n
    let c := (r.inUnits k).roundEven
    if c = Nat.pow 10 n then ⟨Nat.pow 10 (n - 1), k + 1⟩ else ⟨c, k⟩

/-- A ratio rounded to `n` digits after the point, to even on a tie. -/
def places (n : Nat) (r : Ratio) : Decimal :=
  ⟨(r.inUnits (-(n : Int))).roundEven, -(n : Int)⟩

end Decimal

end BeamEnvelope
