import BeamEnvelope.Decimal.Shortest

/-!
# Doubles read from text

A number is an optional sign followed by digits with at most one point among or beside them and an
optional exponent, or by `inf`, `infinity` or `nan` in any case. Reading rounds to the nearest
double; nothing may precede or follow the number.
-/

namespace BeamEnvelope.Decimal

/-- Reads an exponent that ends the text; no text at all stands for the exponent 0. -/
def readExponent? : List Char → Option Int
  | [] => some 0
  | e :: rest =>
    if e != 'e' && e != 'E' then none
    else
      let (negative, digits) := match rest with
        | '-' :: ds => (true, ds)
        | '+' :: ds => (false, ds)
        | ds => (false, ds)
      if digits.isEmpty || !digits.all Char.isDigit then none
      else
        let n : Int := Nat.ofDigitChars 10 digits 0
        some (if negative then -n else n)

def readDigits? (cs : List Char) : Option Decimal :=
  let whole := cs.takeWhile Char.isDigit
  let afterWhole := cs.dropWhile Char.isDigit
  let (fraction, afterFraction) := match afterWhole with
    | '.' :: rest => (rest.takeWhile Char.isDigit, rest.dropWhile Char.isDigit)
    | rest => ([], rest)
  if whole.isEmpty && fraction.isEmpty then none
  else
    (readExponent? afterFraction).map fun e =>
      ⟨Nat.ofDigitChars 10 (whole ++ fraction) 0, e - fraction.length⟩

def readUnsigned? (cs : List Char) : Option Float :=
  let word := cs.map Char.toLower
  if word = "inf".toList || word = "infinity".toList then some (1.0 / 0.0)
  else if word = "nan".toList then some (0.0 / 0.0)
  else (readDigits? cs).map toFloat

def readChars? : List Char → Option Float
  | '-' :: cs => (readUnsigned? cs).map (- ·)
  | '+' :: cs => readUnsigned? cs
  | cs => readUnsigned? cs

/-- The double nearest to the number that a text denotes. -/
def read? (text : String) : Option Float := readChars? text.toList

end BeamEnvelope.Decimal
