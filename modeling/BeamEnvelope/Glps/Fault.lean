import BeamEnvelope.Glps.Token
import BeamEnvelope.Lattice.Basic

/-!
# Faults of lattice sources

Each way in which a source can be refused is one cause. The wording of a cause stands in its
`message` alone.
-/

namespace BeamEnvelope.Glps

inductive Expected where
  | statement | afterName | elementType | parameterName | equals | parameterEnd | openParen
  | itemEnd | semicolon | target | star | expression | closeParen | entryEnd | shallower
  | numeral
deriving DecidableEq

def Expected.text : Expected → String
  | statement => "an identifier to start a statement"
  | afterName => "'=' or ':'"
  | elementType => "an element type or 'line'"
  | parameterName => "a parameter name"
  | equals => "'='"
  | parameterEnd => "',' or ';'"
  | openParen => "'('"
  | itemEnd => "',' or ')'"
  | semicolon => "';'"
  | target => "an element or line name"
  | star => "'*'"
  | expression => "an expression"
  | closeParen => "')'"
  | entryEnd => "',' or ']'"
  | shallower => "a less deeply nested expression"
  | numeral => "a numeric literal"

inductive Operator where
  | add | sub | mul | div
deriving DecidableEq

namespace Operator

def mark : Operator → Mark
  | add => .plus
  | sub => .minus
  | mul => .star
  | div => .slash

def noun : Operator → String
  | add => "addition"
  | sub => "subtraction"
  | mul => "multiplication"
  | div => "division"

end Operator

inductive Role where
  | value | element | line
deriving DecidableEq

def Role.text : Role → String
  | value => "a value"
  | element => "an element"
  | line => "a line"

/-- A value or a name of the wrong kind. Kinds of values are given by their names. -/
inductive Mismatch where
  | operands (op : Operator) (left right : String)
  | lengths (op : Operator) (left right : Nat)
  | negation (kind : String)
  | argument (function kind : String)
  | entry (kind : String)
  | factor (kind : String)
  | notValue (name : String) (role : Role)
  | notBeamline (name : String) (role : Role)
deriving DecidableEq

def Mismatch.text : Mismatch → String
  | operands op l r =>
    "Operator '" ++ op.mark.char.toString ++ "' not defined for types " ++ l ++ " and " ++ r
  | lengths op m n =>
    "Operator '" ++ op.mark.char.toString ++ "' needs vectors of equal length, not " ++
      toString m ++ " and " ++ toString n
  | negation kind => "Unary '-' not defined for type " ++ kind
  | argument function kind =>
    "Function '" ++ function ++ "' needs a scalar argument, not type " ++ kind
  | entry kind => "Vector element types must be scalar not type " ++ kind
  | factor kind => "Line repeat factor must be scalar not type " ++ kind
  | notValue name role => "'" ++ name ++ "' is " ++ role.text ++ ", not a value"
  | notBeamline name role => "'" ++ name ++ "' is " ++ role.text ++ ", not an element or line"

/-- The number of elements that no flattened line exceeds. -/
def maxElements : Nat := Nat.pow 2 24

inductive Overflow where
  | literal (text : String)
  | result (what : String)
  | factor (x : Float)
  | expansion
deriving DecidableEq

def Overflow.text : Overflow → String
  | literal t => "numeric literal " ++ t ++ " results in non-finite value"
  | result what => what ++ " results in non-finite value"
  | factor x =>
    "line repeat factor " ++ Decimal.positional x ++ " is not a valid element count"
  | expansion => "line expansion exceeds " ++ toString maxElements ++ " elements"

inductive Fault where
  | invalidCharacter (pos : Position) (byte : UInt8)
  | unterminatedQuote (pos : Position)
  | unexpected (pos : Position) (expected : Expected) (found : String)
  | undefined (pos : Position) (name : String)
  | redefined (pos : Position) (name : String)
  | mismatch (pos : Position) (cause : Mismatch)
  | overflow (pos : Position) (cause : Overflow)
  | noBeamline
deriving DecidableEq

namespace Fault

def position? : Fault → Option Position
  | invalidCharacter pos _ | unterminatedQuote pos | unexpected pos _ _ | undefined pos _
  | redefined pos _ | mismatch pos _ | overflow pos _ => some pos
  | noBeamline => none

private def hexByte (b : UInt8) : String :=
  String.ofList (Decimal.padLeft 2 (Nat.toDigits 16 b.toNat))

def message : Fault → String
  | invalidCharacter pos b => "invalid charactor 0x" ++ hexByte b ++ " at " ++ pos.text
  | unterminatedQuote pos => "Unterminated quote starting at " ++ pos.text
  | unexpected pos expected found =>
    "syntax error at " ++ pos.text ++ ": expected " ++ expected.text ++ ", found " ++ found
  | undefined pos name => "'" ++ name ++ "' referenced before definition at " ++ pos.text
  | redefined pos name => "'" ++ name ++ "' already defined, redefined at " ++ pos.text
  | mismatch pos cause => cause.text ++ " at " ++ pos.text
  | overflow pos cause => cause.text ++ " at " ++ pos.text
  | noBeamline => "No beamlines defined by this file"

end Fault

end BeamEnvelope.Glps
