import BeamEnvelope.Decimal.Reading
import BeamEnvelope.Toml.DateTime
import BeamEnvelope.Toml.Document
import BeamEnvelope.Toml.Quoting

/-!
# Unquoted values of TOML

Booleans, integers, floats and dates are told apart by their spelling. An underscore may stand
between two digits; an integer part has no superfluous zero in front.

A number may be recognized by its spelling and still stand for none: a radix without digits, an
integer that exceeds 128 bits, or a float that exceeds the range of doubles. So may a decimal
integer with an underscore behind its first digits. It is recognized by these alone, whatever
follows, as long as nothing in it marks a float and each underscore is between hexadecimal digits.
-/

namespace BeamEnvelope.Toml

/-- Whether each underscore stands between two digits; `behind` says if a digit comes in front. -/
def underscoresFit (isDigit : Char → Bool) (behind : Bool) : List Char → Bool
  | [] => true
  | '_' :: rest => behind && rest.head?.any isDigit && underscoresFit isDigit false rest
  | c :: rest => underscoresFit isDigit (isDigit c) rest

/-- Removes the underscores from a nonempty row of digits, if each stands between two of them. -/
def plainDigits? (isDigit : Char → Bool) (cs : List Char) : Option (List Char) :=
  let digits := cs.filter (· != '_')
  if digits != [] && digits.all isDigit && underscoresFit isDigit false cs then some digits
  else none

/-- Digits of an integer part: a single zero, or a row that starts with another digit. -/
def wholeDigits? (cs : List Char) : Option (List Char) := do
  let digits ← plainDigits? Char.isDigit cs
  if digits.head? == some '0' && digits.length != 1 then none else return digits

def splitSign (cs : List Char) : Bool × List Char :=
  match cs with
  | '-' :: rest => (true, rest)
  | '+' :: rest => (false, rest)
  | rest => (false, rest)

/-- Integers from -2^127 to 2^128 - 1 are values. -/
def integerNode (n : Int) : Node :=
  if -Int.pow 2 127 ≤ n && n < Int.pow 2 128 then .integer n else .unvalued

private def radixValue? (radix : Nat) (isDigit : Char → Bool) (cs : List Char) : Option Node :=
  if cs = [] then some .unvalued
  else do
    let values ← (← plainDigits? isDigit cs).mapM hexValue?
    return integerNode (values.foldl (fun n d => radix * n + d) 0 : Nat)

/-- Whether a word is a decimal integer by its first digits and the underscore behind them. -/
def isLooseInteger (cs : List Char) : Bool :=
  let behind := cs.dropWhile Char.isDigit
  cs.head?.any (fun c => c.isDigit && c != '0') && behind.head? == some '_' &&
    !behind.any (fun c => c == '.' || c == 'e' || c == 'E' || c == ' ') &&
    underscoresFit (fun c => (hexValue? c).isSome) false cs

def integer? (cs : List Char) : Option Node :=
  match cs with
  | '0' :: 'x' :: rest => radixValue? 16 (fun c => (hexValue? c).isSome) rest
  | '0' :: 'o' :: rest => radixValue? 8 (fun c => '0' ≤ c && c ≤ '7') rest
  | '0' :: 'b' :: rest => radixValue? 2 (fun c => c == '0' || c == '1') rest
  | cs =>
    let (negative, rest) := splitSign cs
    match wholeDigits? rest with
    | some digits =>
      let n : Int := Nat.ofDigitChars 10 digits 0
      some (integerNode (if negative then -n else n))
    | none => if isLooseInteger rest then some .unvalued else none

/-- The exponent of a float, if there is one, as text without underscores. -/
def exponentText? (cs : List Char) : Option (List Char) :=
  match cs with
  | [] => some []
  | e :: rest =>
    if e != 'e' && e != 'E' then none
    else do
      let (negative, digits) := splitSign rest
      let digits ← plainDigits? Char.isDigit digits
      return 'e' :: (if negative then '-' :: digits else digits)

/-- A number with a fraction or an exponent, or one of the names `inf` and `nan`. -/
def float? (cs : List Char) : Option Node := do
  let (negative, rest) := splitSign cs
  let sign := fun x : Float => if negative then -x else x
  if rest = "inf".toList then return .float (sign (1.0 / 0.0))
  else if rest = "nan".toList then return .float (sign (0.0 / 0.0))
  else
    let isMantissa := fun c : Char => c.isDigit || c == '_'
    let whole ← wholeDigits? (rest.takeWhile isMantissa)
    let behind := rest.dropWhile isMantissa
    let (fraction, exponent) ← match behind with
      | '.' :: rest => do
        let digits ← plainDigits? Char.isDigit (rest.takeWhile isMantissa)
        pure ('.' :: digits, rest.dropWhile isMantissa)
      | rest => pure ([], rest)
    let x ← Decimal.readChars? (whole ++ fraction ++ (← exponentText? exponent))
    if behind = [] then none
    else return if x.isFinite then .float (sign x) else .unvalued

def scalar? (cs : List Char) : Option Node :=
  if cs = "true".toList then some (.boolean true)
  else if cs = "false".toList then some (.boolean false)
  else ((integer? cs).or (float? cs)).or ((DateTime.ofChars? cs).map .dateTime)

end BeamEnvelope.Toml
