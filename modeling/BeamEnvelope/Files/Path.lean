/-!
# Paths

A path is text with parts between slashes. Two spellings are the same path if they have the same
components, but the same file has many paths: `./a` and `a` differ here. Extensions are changed on
the text, behind the last component alone.
-/

namespace BeamEnvelope.Path

inductive Component where
  | root | current | parent
  | name (text : List Char)
deriving DecidableEq

/-- The parts between slashes, empty ones included. -/
def splitSlash : List Char → List (List Char)
  | [] => [[]]
  | c :: cs =>
    if c = '/' then [] :: splitSlash cs
    else
      match splitSlash cs with
      | [] => [[c]]
      | part :: rest => (c :: part) :: rest

def steps (path : List Char) : List (List Char) :=
  (splitSlash path).filter fun part => part != [] && part != ['.']

def isAbsolute (path : List Char) : Bool := path.head? == some '/'

/-- How a path leads to a file: the directories to go through, and the name there. A path that ends
in dots, or that has no parts, leads to a directory and has no name. -/
structure Route where
  through : List (List Char)
  name : Option (List Char)
  /-- Slashes follow the name. -/
  slashed : Bool

def route (path : List Char) : Route :=
  match ((splitSlash path).filter (· != [])).getLast? with
  | none => { through := [], name := none, slashed := true }
  | some last =>
    if last = ['.'] || last = ['.', '.'] then
      { through := steps path, name := none, slashed := path.getLast? == some '/' }
    else
      { through := (steps path).dropLast, name := some last, slashed := path.getLast? == some '/' }

/-- A dot counts only at the head of a relative path. -/
def components (path : List Char) : List Component :=
  let head :=
    if isAbsolute path then [.root]
    else if (splitSlash path).head? = some ['.'] then [.current]
    else []
  head ++ (steps path).map fun part => if part = ['.', '.'] then .parent else .name part

def fileName? (path : List Char) : Option (List Char) :=
  match (components path).getLast? with
  | some (.name text) => some text
  | _ => none

/-- A name before and behind its last dot. A dot in front of everything does not count. -/
def splitExtension (name : List Char) : List Char × Option (List Char) :=
  let behind := name.reverse.takeWhile (· != '.')
  let before := name.reverse.drop (behind.length + 1)
  if before = [] then (name, none) else (before.reverse, some behind.reverse)

def extension? (path : List Char) : Option (List Char) :=
  (fileName? path).bind fun name => (splitExtension name).2

/-- What follows the last component backwards: slashes, and dots between them. -/
private def dropTrail : List Char → List Char
  | '/' :: rest => dropTrail rest
  | '.' :: '/' :: rest => dropTrail rest
  | rest => rest

/-- Puts an extension behind the stem of the last component; a path without a name stays. -/
def setExtension (path extension : List Char) : List Char :=
  match fileName? path with
  | none => path
  | some name =>
    let whole := (dropTrail path.reverse).reverse
    let suffix := name.length - (splitExtension name).1.length
    whole.take (whole.length - suffix) ++ '.' :: extension

/-- The path with another extension: the old one is cut off the text before the new one is set. -/
def withExtension (path extension : List Char) : List Char :=
  match extension? path with
  | none => setExtension path extension
  | some old => setExtension (path.take (path.length - old.length)) extension

end BeamEnvelope.Path
