import BeamEnvelope.Decimal.Reading
import BeamEnvelope.Glps.Fault
import BeamEnvelope.Reader

/-!
# Token streams

A token stream is what a reader of a source meets from left to right: tokens with the positions of
their first bytes, and then the end of the source or the byte at which no token can be formed.
Blanks and comments may stand before every token and before the end.
-/

namespace BeamEnvelope.Glps

inductive Stream where
  | token (t : Token) (pos : Position) (rest : Stream)
  | finish (pos : Position)
  | fault (f : Fault)

namespace Stream

def length : Stream → Nat
  | token _ _ rest => rest.length + 1
  | finish _ => 0
  | fault _ => 0

instance : Input Stream := ⟨length⟩

end Stream

namespace Bytes

def isLetter (b : UInt8) : Bool := (65 ≤ b && b ≤ 90) || (97 ≤ b && b ≤ 122)

def isDigit (b : UInt8) : Bool := 48 ≤ b && b ≤ 57

def colon : UInt8 := 58
def dot : UInt8 := 46
def quote : UInt8 := 34
def hash : UInt8 := 35

def startsName (b : UInt8) : Bool := isLetter b || b == 95

def endsName (b : UInt8) : Bool := startsName b || isDigit b

def isName (b : UInt8) : Bool := endsName b || b == colon

/-- Space, tab, newline, vertical tab, form feed and carriage return. -/
def isBlank (b : UInt8) : Bool := b == 32 || (9 ≤ b && b ≤ 13)

/-- The number of bytes of blanks and comments in front. A comment runs from `#` to the end of its
line; the first argument says whether one is open. -/
def layoutWidth : Bool → List UInt8 → Nat
  | _, [] => 0
  | true, b :: rest => layoutWidth (b != Position.newline) rest + 1
  | false, b :: rest =>
    if isBlank b then layoutWidth false rest + 1
    else if b == hash then layoutWidth true rest + 1
    else 0

def ascii (bytes : List UInt8) : String := String.ofList (bytes.map fun b => Char.ofNat b.toNat)

/-- UTF-8 where the bytes are valid, else each byte is the code point of its value. -/
def decode (bytes : List UInt8) : String :=
  (String.fromUTF8? ⟨bytes.toArray⟩).getD (ascii bytes)

/-- The longest name in front: name bytes up to the last one that may end a name, so that the
colon after a name stays outside. -/
def leadingName (bytes : List UInt8) : List UInt8 :=
  ((bytes.takeWhile isName).reverse.dropWhile (· == colon)).reverse

/-- Splits off an exponent: `e` or `E`, an optional sign, and at least one digit. -/
def exponentWidth : List UInt8 → Nat
  | e :: rest =>
    if e != 101 && e != 69 then 0
    else
      let sign := match rest with
        | s :: _ => if s == 43 || s == 45 then 1 else 0
        | [] => 0
      let digits := ((rest.drop sign).takeWhile isDigit).length
      if digits = 0 then 0 else 1 + sign + digits
  | [] => 0

/-- The width of the longest numeric literal in front: digits, a point with further digits, an
exponent. -/
def numeralWidth (bytes : List UInt8) : Nat :=
  let whole := (bytes.takeWhile isDigit).length
  let fraction := match bytes.drop whole with
    | b :: rest => if b == dot then 1 + (rest.takeWhile isDigit).length else 0
    | [] => 0
  whole + fraction + exponentWidth (bytes.drop (whole + fraction))

def startsNumeral (b : UInt8) (rest : List UInt8) : Bool :=
  isDigit b || (b == dot && rest.head?.any isDigit)

end Bytes

open Bytes

def numeral (pos : Position) (text : String) : Except Fault Token :=
  match Decimal.read? text with
  | none => .error (.unexpected pos .numeral ("'" ++ text ++ "'"))
  | some x => if x.isFinite then .ok (.number x) else .error (.overflow pos (.literal text))

/-- A string literal behind its opening quote, with the number of bytes it takes there. It ends at
the next quote and may hold any byte but NUL. -/
def stringLiteral (pos : Position) (rest : List UInt8) : Except Fault (Token × Nat) :=
  let body := rest.takeWhile fun b => b != quote && b != 0
  match rest.drop body.length with
  | [] => .error (.unterminatedQuote pos)
  | b :: _ =>
    if b = 0 then .error (.invalidCharacter ((pos.next quote).past body) 0)
    else .ok (.text (decode body), body.length + 1)

/-- The token that starts with byte `b`, and how many bytes of `rest` belong to it. -/
def scan (pos : Position) (b : UInt8) (rest : List UInt8) : Except Fault (Token × Nat) :=
  if startsName b then
    let name := leadingName (b :: rest)
    .ok (.name (ascii name), name.length - 1)
  else if startsNumeral b rest then
    let width := numeralWidth (b :: rest)
    (numeral pos (ascii ((b :: rest).take width))).map fun t => (t, width - 1)
  else if b == quote then stringLiteral pos rest
  else match Mark.ofByte? b with
    | some m => .ok (.mark m, 0)
    | none => .error (.invalidCharacter pos b)

theorem length_lt_of_drop_eq_cons {α : Type} {xs rest : List α} {n : Nat} {x : α}
    (h : xs.drop n = x :: rest) : rest.length < xs.length := by
  have hlen := congrArg List.length h
  simp only [List.length_drop, List.length_cons] at hlen
  omega

def Stream.ofBytes (pos : Position) (bytes : List UInt8) : Stream :=
  let skipped := layoutWidth false bytes
  let here := pos.past (bytes.take skipped)
  match _h : bytes.drop skipped with
  | [] => .finish here
  | b :: rest =>
    match scan here b rest with
    | .error f => .fault f
    | .ok (t, width) =>
      .token t here (ofBytes ((here.next b).past (rest.take width)) (rest.drop width))
termination_by bytes.length
decreasing_by
  have shorter := length_lt_of_drop_eq_cons _h
  simp only [List.length_drop]
  omega

def Stream.ofSource (source : List UInt8) : Stream := .ofBytes {} source

end BeamEnvelope.Glps
