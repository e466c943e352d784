import BeamEnvelope.Text.Blank
import BeamEnvelope.Text.Lowercase

/-!
# Lines of TLM files

A TLM file is read line by line without regard to case. A line that ends in `&` is continued by the
next one: the `&` and the blanks behind it give way to that line. Joined lines are numbered by their
first line.
-/

namespace BeamEnvelope.Tlm

/-- Cuts bytes into lines. A carriage return in front of a newline does not belong to its line, and
nothing follows a newline that ends the file. -/
def splitLines (bytes : List UInt8) : List (List UInt8) :=
  go [] bytes
where
  /-- `line` is the line under way, backwards. -/
  go (line : List UInt8) : List UInt8 → List (List UInt8)
    | [] => if line.isEmpty then [] else [line.reverse]
    | b :: rest =>
      if b = 10 then
        (match line with
          | 13 :: line => line.reverse
          | line => line.reverse) :: go [] rest
      else go (b :: line) rest

/-- The lower-cased text of a line; there is none if the line is not UTF-8. -/
def lineText? (line : List UInt8) : Option (List Char) :=
  (String.fromUTF8? ⟨line.toArray⟩).map fun s => Text.lowercase s.toList

/-- The text in front of the `&` that continues a line. -/
def continued? (line : List Char) : Option (List Char) :=
  match (Text.trimEnd line).reverse with
  | '&' :: front => some front.reverse
  | _ => none

/-- A line with all its continuations. -/
structure Joined where
  /-- The number of its first line. -/
  number : Nat
  /-- There is none if a line could not be read. -/
  text? : Option (List Char)
deriving DecidableEq

/-- Joins lines, the first of which has the given number. `pending` is a line that waits for its
continuation, with its own number. Nothing follows an unreadable line. -/
def joinLines (pending : Option (Nat × List Char)) (number : Nat) :
    List (Option (List Char)) → List Joined
  | [] =>
    match pending with
    | none => []
    | some (start, front) => [⟨start, some front⟩]
  | line? :: rest =>
    let (start, front) := pending.getD (number, [])
    match line? with
    | none => [⟨start, none⟩]
    | some line =>
      let text := front ++ line
      match continued? text with
      | some front => joinLines (some (start, front)) (number + 1) rest
      | none => ⟨start, some text⟩ :: joinLines none (number + 1) rest

def readLines (bytes : List UInt8) : List Joined :=
  joinLines none 1 ((splitLines bytes).map lineText?)

end BeamEnvelope.Tlm
