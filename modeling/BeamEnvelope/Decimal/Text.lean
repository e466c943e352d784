import BeamEnvelope.Decimal.Shortest

/-!
# Decimal texts of doubles

Two ways to choose the digits (the shortest, or a fixed number) meet two layouts: scientific, with
an unpadded exponent after `e`, and positional, which never shows an exponent. All of them write
`NaN` without a sign and the infinities as `inf`.
-/

namespace BeamEnvelope.Decimal

def zeros (n : Nat) : List Char := List.replicate n '0'

def padLeft (width : Nat) (cs : List Char) : List Char := zeros (width - cs.length) ++ cs

/-- `d.ddde±k` for a row of digits in units of `10 ^ k`. -/
def scientificLayout (digits : List Char) (k : Int) : List Char :=
  let point := if digits.length ≤ 1 then [] else '.' :: digits.drop 1
  digits.take 1 ++ point ++ 'e' :: (toString (k + (digits.length - 1 : Nat))).toList

/-- The digits with the point where the exponent puts it, filled up with zeros on either side. -/
def positionalLayout (digits : List Char) (k : Int) : List Char :=
  if 0 ≤ k then digits ++ zeros k.toNat
  else
    let places := (-k).toNat
    let padded := padLeft (places + 1) digits
    let whole := padded.length - places
    padded.take whole ++ '.' :: padded.drop whole

def signed (body : Float → List Char) (x : Float) : String :=
  if x.isNaN then "NaN"
  else
    let sign := if x.toBits < 0x8000000000000000 then [] else ['-']
    String.ofList (sign ++ if x.isInf then "inf".toList else body x)

/-- Shortest digits in scientific layout: `1.5e-7`. -/
def scientific : Float → String :=
  signed fun x =>
    let d := shortest x
    scientificLayout d.digits d.exponent

/-- Shortest digits in positional layout: `0.00000015`. -/
def positional : Float → String :=
  signed fun x =>
    let d := shortest x
    positionalLayout d.digits d.exponent

/-- `places` digits after the point of the first digit: `1.500000e-7`. -/
def scientificFixed (places : Nat) : Float → String :=
  signed fun x =>
    let d := significant (places + 1) (Ratio.ofFloat x)
    scientificLayout (padLeft (places + 1) d.digits) d.exponent

/-- `n` digits after the point: `0.0000001500`. -/
def positionalFixed (n : Nat) : Float → String :=
  signed fun x =>
    let d := places n (Ratio.ofFloat x)
    positionalLayout d.digits d.exponent

end BeamEnvelope.Decimal
