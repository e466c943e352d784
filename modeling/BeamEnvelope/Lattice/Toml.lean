import BeamEnvelope.Lattice.Basic
import BeamEnvelope.Toml.Reading

/-!
# Lattices as TOML documents

A lattice is written as its name, a table of its global values, and one table per component that
holds the component's name and kind beside its parameters. Numbers are floats, and a number that is
whole gets a zero behind its point. Reading back also takes integers for numbers.
-/

namespace BeamEnvelope.Lattice

def floatText (x : Float) : String :=
  let text := Decimal.positional x
  if x.isNaN then "nan"
  else if x.isFinite && !text.contains '.' then text ++ ".0"
  else text

def valueText : Value → String
  | .scalar x => floatText x
  | .vector xs => "[" ++ ", ".intercalate (xs.map floatText) ++ "]"
  | .text s => Toml.textValue s

def entryLine (entry : String × Value) : String :=
  Toml.keyText entry.1 ++ " = " ++ valueText entry.2 ++ "\n"

def tableText (d : Dictionary Value) : String :=
  String.join (d.entries.map entryLine)

def componentText (c : Component) : String :=
  "\n[[elements]]\n" ++ entryLine ("name", .text c.name) ++ entryLine ("type", .text c.kind) ++
    tableText c.params

def toToml (lattice : Lattice) : String :=
  entryLine ("name", .text lattice.name) ++
    (if lattice.components.isEmpty then "elements = []\n" else "") ++
    "\n[globals]\n" ++ tableText lattice.globals ++
    String.join (lattice.components.map componentText)

/-- Numbers, arrays of numbers and texts are values. -/
def valueOfToml? (node : Toml.Node) : Option Value :=
  ((node.number?.map .scalar).or (node.numbers?.map .vector)).or (node.text?.map .text)

def dictionaryOfToml? (entries : Toml.Entries) : Option (Dictionary Value) := do
  return .ofList (← entries.mapM fun e => return (e.1, ← valueOfToml? e.2))

/-- All keys of a component's table but `name` and `type` are parameters. -/
def componentOfToml? (entries : Toml.Entries) : Option Component := do
  let name ← (← entries.lookup "name").text?
  let kind ← (← entries.lookup "type").text?
  let params ← dictionaryOfToml? (entries.filter fun e => e.1 != "name" && e.1 != "type")
  return { name, kind, params }

/-- The lattice of a document. Other top-level keys than those of a lattice are ignored, but their
numbers must stand for one. -/
def ofToml? (text : String) : Option Lattice := do
  let entries ← Toml.read? text
  guard entries.areValued
  let name ← (← entries.lookup "name").text?
  let globals ← match entries.lookup "globals" with
    | none => some ∅
    | some node => do dictionaryOfToml? (← node.entries?)
  let components ← match entries.lookup "elements" with
    | none => some []
    | some node => do (← node.tables?).mapM componentOfToml?
  return { name, globals, components }

end BeamEnvelope.Lattice
