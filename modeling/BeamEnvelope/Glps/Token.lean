import BeamEnvelope.Decimal.Text

/-!
# Tokens and positions of lattice sources

A source is a sequence of bytes. A position counts lines and columns from 1, columns in bytes.
-/

namespace BeamEnvelope.Glps

structure Position where
  line : Nat := 1
  column : Nat := 1
deriving DecidableEq, Inhabited

namespace Position

def newline : UInt8 := 10

def next (p : Position) (b : UInt8) : Position :=
  if b = newline then ⟨p.line + 1, 1⟩ else ⟨p.line, p.column + 1⟩

def past (p : Position) (bytes : List UInt8) : Position := bytes.foldl next p

theorem past_append (p : Position) (xs ys : List UInt8) :
    p.past (xs ++ ys) = (p.past xs).past ys := List.foldl_append

def text (p : Position) : String :=
  "line " ++ toString p.line ++ ", column " ++ toString p.column

end Position

inductive Mark where
  | colon | semicolon | equals | comma
  | openParen | closeParen | openBracket | closeBracket
  | star | plus | minus | slash
deriving DecidableEq

namespace Mark

def char : Mark → Char
  | colon => ':'
  | semicolon => ';'
  | equals => '='
  | comma => ','
  | openParen => '('
  | closeParen => ')'
  | openBracket => '['
  | closeBracket => ']'
  | star => '*'
  | plus => '+'
  | minus => '-'
  | slash => '/'

def all : List Mark :=
  [colon, semicolon, equals, comma, openParen, closeParen, openBracket, closeBracket, star, plus,
    minus, slash]

def ofByte? (b : UInt8) : Option Mark := all.find? fun m => m.char.toNat == b.toNat

theorem ofByte?_char (m : Mark) : ofByte? m.char.toUInt8 = some m := by
  cases m <;> decide

end Mark

inductive Token where
  | name (s : String)
  | number (x : Float)
  | text (s : String)
  | mark (m : Mark)
deriving DecidableEq

def Token.mark? : Token → Option Mark
  | mark m => some m
  | _ => none

/-- How a syntax error names a token that it did not expect. -/
def Token.describe : Token → String
  | name s => "identifier '" ++ s ++ "'"
  | number x => "number " ++ Decimal.positional x
  | text _ => "string literal"
  | mark m => "'" ++ m.char.toString ++ "'"

end BeamEnvelope.Glps
