import BeamEnvelope.Glps.Stream
import BeamEnvelope.Text.Bytes

/-!
# Printing lattices as sources

A printed lattice lists its global values, then one definition per component name, then its line.
Whatever cannot be written so that it reads back is refused: names that are no identifiers, numbers
that are not finite, texts with a quote or a NUL, one name for two things, and an empty line.
-/

namespace BeamEnvelope.Glps

def isIdentifier (s : String) : Bool :=
  match bytesOf s with
  | [] => false
  | b :: rest =>
    Bytes.startsName b && rest.all Bytes.isName && (b :: rest).getLast? != some Bytes.colon

inductive Unprintable where
  | notIdentifier (name : String)
  | notFinite (owner : String)
  | quoteInText (owner : String)
  | nulInText (owner : String)
  | conflict (name : String)
  | emptyLine (name : String)
deriving DecidableEq

def Unprintable.message : Unprintable → String
  | notIdentifier n => "'" ++ n ++ "' is not a valid GLPS identifier"
  | notFinite n => "value of '" ++ n ++ "' is not finite"
  | quoteInText n => "string value of '" ++ n ++ "' contains a double quote"
  | nulInText n => "string value of '" ++ n ++ "' contains a NUL byte"
  | conflict n => "'" ++ n ++ "' names two different definitions"
  | emptyLine n => "beamline '" ++ n ++ "' has no elements"

/-- The shortest text of a number, scientific where the positional one would be long. -/
def numberText (x : Float) : String :=
  let size := x.abs
  if size != 0.0 && !(1e-4 ≤ size && size < 1e15) then Decimal.scientific x
  else Decimal.positional x

def identifier (name : String) : Except Unprintable String :=
  if isIdentifier name then .ok name else .error (.notIdentifier name)

def number (owner : String) (x : Float) : Except Unprintable String :=
  if x.isFinite then .ok (numberText x) else .error (.notFinite owner)

/-- The text of a value; a refusal names the owner of the value. -/
def valueText (owner : String) : Value → Except Unprintable String
  | .scalar x => number owner x
  | .vector xs => return "[" ++ ", ".intercalate (← xs.mapM (number owner)) ++ "]"
  | .text s =>
    if s.contains '"' then .error (.quoteInText owner)
    else if s.contains '\x00' then .error (.nulInText owner)
    else .ok ("\"" ++ s ++ "\"")

def globalStatement (entry : String × Value) : Except Unprintable String :=
  return (← identifier entry.1) ++ " = " ++ (← valueText entry.1 entry.2) ++ ";\n"

def parameterText (owner : String) (entry : String × Value) :
    Except Unprintable String :=
  return ", " ++ (← identifier entry.1) ++ " = " ++ (← valueText owner entry.2)

def componentStatement (c : Component) : Except Unprintable String := do
  let head := (← identifier c.name) ++ ": " ++ (← identifier c.kind)
  return head ++ String.join (← c.params.entries.mapM (parameterText c.name)) ++ ";\n"

/-- One statement for each name among the components, where it first occurs. -/
def componentStatements (globals : Dictionary Value) (seen : List Component) :
    List Component → Except Unprintable (List String)
  | [] => .ok []
  | c :: rest =>
    match seen.find? (·.name == c.name) with
    | some same =>
      if same == c then componentStatements globals seen rest else .error (.conflict c.name)
    | none =>
      if globals.contains c.name then .error (.conflict c.name)
      else return (← componentStatement c) :: (← componentStatements globals (c :: seen) rest)

def rows (names : List String) : List (List String) :=
  if names.isEmpty then [] else names.take 8 :: rows (names.drop 8)
termination_by names.length
decreasing_by
  have : names ≠ [] := by simpa using ‹¬names.isEmpty = true›
  have := List.length_pos_iff.2 this
  simp only [List.length_drop]
  omega

/-- The definition of a line with eight names in a row. -/
def lineStatement (name : String) (items : List String) : String :=
  "\n" ++ name ++ ": LINE = (" ++
    ",".intercalate ((rows items).map fun row => "\n  " ++ ", ".intercalate row) ++ "\n);\n"

def print (lattice : Lattice) : Except Unprintable String := do
  let globals ← lattice.globals.entries.mapM globalStatement
  let gap := if lattice.globals.isEmpty then "" else "\n"
  let components ← componentStatements lattice.globals [] lattice.components
  let name ← identifier lattice.name
  if lattice.components.isEmpty then .error (.emptyLine name)
  else if lattice.globals.contains name || lattice.components.any (·.name == name) then
    .error (.conflict name)
  else
    return String.join globals ++ gap ++ String.join components ++
      lineStatement name (lattice.components.map (·.name))

end BeamEnvelope.Glps
