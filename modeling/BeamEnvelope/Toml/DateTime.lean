import BeamEnvelope.Decimal.Text

/-!
# Dates and times of TOML

A date, a time of day, or both, then perhaps with an offset from universal time. Every number has
its fixed count of digits. The seconds may be left out, and a fraction follows seconds only; it
counts to the nanosecond. The text of a moment is its spelling in full: with seconds, a capital `T`
or `Z`, and no zero at the end of the fraction.
-/

namespace BeamEnvelope.Toml

structure Date where
  year : Nat
  month : Nat
  day : Nat
deriving DecidableEq

structure TimeOfDay where
  hour : Nat
  minute : Nat
  second : Nat := 0
  nanosecond : Nat := 0
deriving DecidableEq

/-- The offset of a local time from universal time. -/
inductive Offset where
  | universal
  | minutes (ahead : Int)
deriving DecidableEq

inductive DateTime where
  | date (d : Date)
  | time (t : TimeOfDay)
  | moment (d : Date) (t : TimeOfDay) (offset : Option Offset)
deriving DecidableEq

/-- Reads exactly `width` digits of a number from `low` to `high`. -/
private def field? (width low high : Nat) (cs : List Char) : Option (Nat × List Char) :=
  let digits := cs.take width
  let n := Nat.ofDigitChars 10 digits 0
  if digits.length = width && digits.all Char.isDigit && low ≤ n && n ≤ high then
    some (n, cs.drop width)
  else none

private def char? (c : Char) : List Char → Option (List Char)
  | d :: rest => if d = c then some rest else none
  | [] => none

def daysIn (year month : Nat) : Nat :=
  if month = 2 then
    if year % 4 = 0 && (year % 100 != 0 || year % 400 = 0) then 29 else 28
  else if month = 4 || month = 6 || month = 9 || month = 11 then 30
  else 31

def Date.take? (cs : List Char) : Option (Date × List Char) := do
  let (year, cs) ← field? 4 0 9999 cs
  let (month, cs) ← field? 2 1 12 (← char? '-' cs)
  let (day, cs) ← field? 2 1 (daysIn year month) (← char? '-' cs)
  return ({ year, month, day }, cs)

/-- The digits of a fraction in billionths; further digits are dropped. -/
def nanoseconds (digits : List Char) : Nat :=
  Nat.ofDigitChars 10 ((digits ++ List.replicate 9 '0').take 9) 0

def TimeOfDay.take? (cs : List Char) : Option (TimeOfDay × List Char) := do
  let (hour, cs) ← field? 2 0 23 cs
  let (minute, cs) ← field? 2 0 59 (← char? ':' cs)
  match cs with
  | ':' :: rest => do
    let (second, cs) ← field? 2 0 60 rest
    match cs with
    | '.' :: rest =>
      let digits := rest.takeWhile Char.isDigit
      if digits.isEmpty then none
      else
        let nanosecond := nanoseconds digits
        return ({ hour, minute, second, nanosecond }, rest.dropWhile Char.isDigit)
    | rest => return ({ hour, minute, second }, rest)
  | rest => return ({ hour, minute }, rest)

def Offset.ofChars? : List Char → Option Offset
  | [] => none
  | c :: rest =>
    if c = 'Z' || c = 'z' then if rest = [] then some .universal else none
    else if c = '+' || c = '-' then do
      let (hours, cs) ← field? 2 0 23 rest
      let (rest, cs) ← field? 2 0 59 (← char? ':' cs)
      let ahead : Int := (60 * hours + rest : Nat)
      if cs = [] then some (.minutes (if c = '-' then -ahead else ahead)) else none
    else none

namespace DateTime

def ofChars? (cs : List Char) : Option DateTime :=
  match Date.take? cs with
  | some (d, []) => some (.date d)
  | some (d, c :: rest) =>
    if c = 'T' || c = 't' || c = ' ' then do
      let (t, zone) ← TimeOfDay.take? rest
      if zone = [] then some (.moment d t none)
      else return .moment d t (some (← Offset.ofChars? zone))
    else none
  | none =>
    match TimeOfDay.take? cs with
    | some (t, []) => some (.time t)
    | _ => none

end DateTime

private def digits (width n : Nat) : List Char := Decimal.padLeft width (Nat.toDigits 10 n)

def Date.chars (d : Date) : List Char :=
  digits 4 d.year ++ '-' :: digits 2 d.month ++ '-' :: digits 2 d.day

def TimeOfDay.chars (t : TimeOfDay) : List Char :=
  let fraction := ((digits 9 t.nanosecond).reverse.dropWhile (· == '0')).reverse
  digits 2 t.hour ++ ':' :: digits 2 t.minute ++ ':' :: digits 2 t.second ++
    if fraction = [] then [] else '.' :: fraction

def Offset.chars : Offset → List Char
  | universal => ['Z']
  | minutes n =>
    (if n < 0 then '-' else '+') :: digits 2 (n.natAbs / 60) ++ ':' :: digits 2 (n.natAbs % 60)

namespace DateTime

def chars : DateTime → List Char
  | date d => d.chars
  | time t => t.chars
  | moment d t offset => d.chars ++ 'T' :: t.chars ++ offset.elim [] Offset.chars

/-- The key under which a moment can be had as text. -/
def key : String := "$__toml_private_datetime"

end DateTime

end BeamEnvelope.Toml
