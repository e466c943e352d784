import BeamEnvelope.Decimal.Text

/-!
# Quoted texts of TOML

A text is written between one or three quotation marks or apostrophes. Between quotation marks a
backslash starts an escape; between apostrophes every character stands for itself. The form with
three marks admits newlines.
-/

namespace BeamEnvelope.Toml

/-- Control characters need an escape. The tab is none of them. -/
def isControl (c : Char) : Bool := (c < ' ' && c != '\t') || c == '\x7f'

def longestRun (mark : Char) : List Char → Nat :=
  go 0 0
where
  go (best run : Nat) : List Char → Nat
    | [] => best
    | c :: rest => if c == mark then go (max best (run + 1)) (run + 1) rest else go best 0 rest

inductive Quotes where
  | basic | literal | basicLines | literalLines
deriving DecidableEq

namespace Quotes

def escapes : Quotes → Bool
  | basic | basicLines => true
  | literal | literalLines => false

def multiline : Quotes → Bool
  | basicLines | literalLines => true
  | basic | literal => false

def mark (q : Quotes) : Char := if q.escapes then '"' else '\''

def delimiter (q : Quotes) : List Char := List.replicate (if q.multiline then 3 else 1) q.mark

/-- The most quotation marks in a row that need no escape. -/
def freeRun (q : Quotes) : Nat := if q.multiline then 2 else 0

end Quotes

def escapeLetter? (c : Char) : Option Char :=
  if c = '\x08' then some 'b'
  else if c = '\t' then some 't'
  else if c = '\n' then some 'n'
  else if c = '\x0c' then some 'f'
  else if c = '\r' then some 'r'
  else if c = '"' then some '"'
  else if c = '\\' then some '\\'
  else none

def unescapeLetter? (c : Char) : Option Char :=
  if c = 'b' then some '\x08'
  else if c = 't' then some '\t'
  else if c = 'n' then some '\n'
  else if c = 'f' then some '\x0c'
  else if c = 'r' then some '\r'
  else if c = 'e' then some '\x1b'
  else if c = '"' then some '"'
  else if c = '\\' then some '\\'
  else none

theorem unescapeLetter?_escapeLetter? {c e : Char} (h : escapeLetter? c = some e) :
    unescapeLetter? e = some c := by
  unfold escapeLetter? at h
  repeat' split at h
  all_goals first
    | (subst_vars; cases h; decide)
    | cases h

/-- Four hexadecimal digits in capitals. -/
def hexText (c : Char) : List Char :=
  (Decimal.padLeft 4 (Nat.toDigits 16 c.toNat)).map Char.toUpper

/-- The inside of a text between quotation marks. `run` counts the quotation marks just written. -/
def encodeBasic (q : Quotes) (run : Nat) : List Char → List Char
  | [] => []
  | c :: rest =>
    if c = '"' then
      if q.freeRun ≤ run then '\\' :: '"' :: encodeBasic q 0 rest
      else '"' :: encodeBasic q (run + 1) rest
    else if c = '\n' && q.multiline then '\n' :: encodeBasic q 0 rest
    else match escapeLetter? c with
      | some e => '\\' :: e :: encodeBasic q 0 rest
      | none =>
        if isControl c then '\\' :: 'u' :: hexText c ++ encodeBasic q 0 rest
        else c :: encodeBasic q 0 rest

/-- The first form that holds the text without an escape other than `\t`, else an escaped one. -/
def quotesFor (cs : List Char) : Quotes :=
  let control := cs.any fun c => isControl c && c != '\n'
  let backslash := cs.contains '\\'
  let newline := cs.contains '\n'
  let double := longestRun '"' cs
  let single := longestRun '\'' cs
  if !control && !backslash && !newline && double = 0 then .basic
  else if !control && !newline && single = 0 then .literal
  else if !control && !backslash && double ≤ 2 then .basicLines
  else if !control && single ≤ 2 then .literalLines
  else if newline then .basicLines
  else .basic

def encodeIn (q : Quotes) (cs : List Char) : List Char :=
  let gap := if q.multiline && cs.contains '\n' then ['\n'] else []
  let body := if q.escapes then encodeBasic q 0 cs else cs
  q.delimiter ++ gap ++ body ++ q.delimiter

def textValue (s : String) : String :=
  String.ofList (encodeIn (quotesFor s.toList) s.toList)

def isBareKey (c : Char) : Bool := c.isAlphanum || c == '_' || c == '-'

/-- A text as a TOML key. Keys stay on one line. -/
def keyText (s : String) : String :=
  let cs := s.toList
  let control := cs.any isControl
  if !cs.isEmpty && cs.all isBareKey then s
  else if !control && !cs.contains '\\' && !cs.contains '"' then
    String.ofList (encodeIn .basic cs)
  else if !control && !cs.contains '\'' then String.ofList (encodeIn .literal cs)
  else String.ofList (encodeIn .basic cs)

def hexValue? (c : Char) : Option Nat :=
  if c.isDigit then some (c.toNat - '0'.toNat)
  else if 'a' ≤ c && c ≤ 'f' then some (c.toNat - 'a'.toNat + 10)
  else if 'A' ≤ c && c ≤ 'F' then some (c.toNat - 'A'.toNat + 10)
  else none

/-- The character with a code point in hexadecimal digits. -/
def codePoint? (digits : List Char) : Option Char := do
  let values ← digits.mapM hexValue?
  let n := values.foldl (fun n d => 16 * n + d) 0
  if n.isValidChar then some (Char.ofNat n) else none

def isBlank (c : Char) : Bool := c == ' ' || c == '\t'

def startsNewline : List Char → Bool
  | '\n' :: _ => true
  | '\r' :: '\n' :: _ => true
  | _ => false

/-- Whether only blanks stand before the next newline. -/
def blankToNewline (cs : List Char) : Bool := startsNewline (cs.dropWhile isBlank)

/-- Whether a character may stand unescaped in a text. A carriage return needs a newline behind. -/
def isPlain (q : Quotes) (c : Char) (rest : List Char) : Bool :=
  if c == '\n' then q.multiline
  else if c == '\r' then q.multiline && rest.head? == some '\n'
  else !isControl c

/-- The text inside quotation marks. A backslash at the end of a line takes the blanks and newlines
behind it away; `trimming` says that such a backslash has just been met. -/
def decodeBasic? (q : Quotes) (trimming : Bool) : List Char → Option (List Char)
  | [] => some []
  | '\\' :: e :: rest =>
    if q.multiline && blankToNewline (e :: rest) then decodeBasic? q true rest
    else match unescapeLetter? e with
      | some c => (decodeBasic? q false rest).map (c :: ·)
      | none =>
        match e, rest with
        | 'x', a :: b :: rest => do
          let x ← codePoint? [a, b]
          (decodeBasic? q false rest).map (x :: ·)
        | 'u', a :: b :: c :: d :: rest => do
          let x ← codePoint? [a, b, c, d]
          (decodeBasic? q false rest).map (x :: ·)
        | 'U', a :: b :: c :: d :: a' :: b' :: c' :: d' :: rest => do
          let x ← codePoint? [a, b, c, d, a', b', c', d']
          (decodeBasic? q false rest).map (x :: ·)
        | _, _ => none
  | c :: rest =>
    if trimming && (isBlank c || startsNewline (c :: rest)) then decodeBasic? q true rest
    else if c == '\\' || !isPlain q c rest then none
    else (decodeBasic? q false rest).map (c :: ·)

def decodeLiteral? (q : Quotes) : List Char → Option (List Char)
  | [] => some []
  | c :: rest => if isPlain q c rest then (decodeLiteral? q rest).map (c :: ·) else none

/-- The text of what stands between the delimiters. A newline right behind the opening one does not
belong to it. -/
def decode? (q : Quotes) (inside : List Char) : Option String :=
  let body := match q.multiline, inside with
    | true, '\n' :: rest => rest
    | true, '\r' :: '\n' :: rest => rest
    | _, cs => cs
  (if q.escapes then decodeBasic? q false body else decodeLiteral? q body).map String.ofList

/-- The number of characters up to the closing mark of a text on one line. -/
def insideWidth? (q : Quotes) : List Char → Option Nat
  | [] => none
  | '\\' :: c :: rest =>
    if q.escapes then (insideWidth? q rest).map (· + 2)
    else (insideWidth? q (c :: rest)).map (· + 1)
  | c :: rest => if c == q.mark then some 0 else (insideWidth? q rest).map (· + 1)

/-- The number of characters up to the three closing marks. Up to two more marks in front of those
belong to the text. -/
def insideLinesWidth? (q : Quotes) : List Char → Option Nat
  | [] => none
  | '\\' :: c :: rest =>
    if q.escapes then (insideLinesWidth? q rest).map (· + 2)
    else (insideLinesWidth? q (c :: rest)).map (· + 1)
  | c :: rest =>
    if c == q.mark && rest.take 2 == [q.mark, q.mark] then
      some ((rest.drop 2).take 2 |>.takeWhile (· == q.mark)).length
    else (insideLinesWidth? q rest).map (· + 1)

end BeamEnvelope.Toml
