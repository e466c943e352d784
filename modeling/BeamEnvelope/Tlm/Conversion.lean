import BeamEnvelope.Tlm.Lines
import BeamEnvelope.Tlm.Record

/-!
# Conversion of TLM files

A TLM file becomes the source of a lattice: a head, one line for each joined line of the file, and
the beamline of all elements. A comment stays as it is, a blank line stays blank, and a record turns
into a definition. The first failure ends the conversion; what has been written until then stays.
-/

namespace BeamEnvelope.Tlm

inductive Failure where
  | unreadable
  | refused (line : Nat) (cause : Cause)
  | noElements
deriving DecidableEq

def Failure.message : Failure → String
  | unreadable => "I/O error: stream did not contain valid UTF-8"
  | refused line cause => "Parse error on line " ++ toString line ++ ": " ++ cause.message
  | noElements => "Input defines no beamline elements"

structure Conversion where
  text : String
  /-- The names of the elements, in the order of the beamline. -/
  names : List String
  failure? : Option Failure

/-- The records accepted so far with their final names, the latest one first. -/
abbrev Accepted := List (Kind × String)

/-- The final name of a record: one that is numbered gets its place among the records of its
kind. -/
def finalName (accepted : Accepted) (r : Record) : String :=
  if r.kind.isNumbered then
    r.name ++ "_" ++ toString (accepted.countP (·.1 = r.kind) + 1)
  else r.name

/-- The line that a joined line turns into, and the records accepted with it. -/
def writeLine (accepted : Accepted) (line : List Char) : Except Cause (String × Accepted) :=
  match Text.trim line with
  | [] => .ok ("", accepted)
  | '#' :: comment => .ok (String.ofList ('#' :: comment), accepted)
  | trimmed => do
    let r ← Record.ofWords ((Text.words trimmed).map String.ofList)
    let name := finalName accepted r
    return (r.definition name, (r.kind, name) :: accepted)

/-- Converts lines until one fails; gives what was written, in order. -/
def writeLines (accepted : Accepted) : List Joined → List String × Accepted × Option Failure
  | [] => ([], accepted, if accepted.isEmpty then some .noElements else none)
  | line :: rest =>
    match line.text? with
    | none => ([], accepted, some .unreadable)
    | some text =>
      match writeLine accepted text with
      | .error cause => ([], accepted, some (.refused line.number cause))
      | .ok (written, more) =>
        let (behind, final, failure?) := writeLines more rest
        (written :: behind, final, failure?)

def head : String :=
  "# Beam envelope simulation.\n" ++ "\nsim_type = \"MomentMatrix\";\n\n"

def beamline : String := "cell"

def convert (bytes : List UInt8) : Conversion :=
  let (written, accepted, failure?) := writeLines [] (readLines bytes)
  let names := (accepted.map (·.2)).reverse
  let text := head ++ String.join (written.map (· ++ "\n"))
  match failure? with
  | some failure => ⟨text, names, some failure⟩
  | none =>
    ⟨text ++ Glps.lineStatement beamline names ++ "\nUSE: " ++ beamline ++ ";\n", names, none⟩

end BeamEnvelope.Tlm
