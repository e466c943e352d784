import BeamEnvelope.Reader
import BeamEnvelope.Toml.Lexeme
import BeamEnvelope.Toml.Scalar

/-!
# Reading TOML documents

A document is a row of statements, each on a line of its own: the header of a table, the header of
one more table of an array, or a key with its value. Keys may be dotted. A document that breaks a
rule has no reading.
-/

namespace BeamEnvelope.Toml

abbrev LexemeReader (α : Type) := Reader (List Placed) Unit α

namespace LexemeReader

variable {α : Type}

def take (accepts : Placed → Option α) : LexemeReader α
  | [] => .error ()
  | p :: rest =>
    match accepts p with
    | some a => .ok ⟨a, rest, Nat.lt_succ_self _⟩
    | none => .error ()

def mark (l : Lexeme) : LexemeReader Unit := take fun p => if p.lexeme = l then some () else none

def gluedMark (l : Lexeme) : LexemeReader Unit :=
  take fun p => if p.lexeme = l && p.glued then some () else none

def ahead (l : Lexeme) (s : List Placed) : Bool := s.head?.any (·.lexeme == l)

def dropNewlines (s : List Placed) : List Placed := s.dropWhile (·.lexeme == .newline)

def past (p : LexemeReader α) : LexemeReader α := fun s => do
  let r ← p (dropNewlines s)
  return ⟨r.value, r.rest,
    Nat.lt_of_lt_of_le r.shorter (List.dropWhile_suffix (l := s) _).length_le⟩

/-- Items with commas between them, up to a closing mark. A comma may follow the last one, and
newlines may stand anywhere around the items. Each item is read with the state that the items before
it left. -/
def listed {σ : Type} (item : σ → LexemeReader σ) (close : Lexeme) (state : σ) : LexemeReader σ :=
  fun s =>
    if ahead close (dropNewlines s) then (past (mark close)).check (fun _ => .ok state) s
    else do
      let one ← past (item state) s
      if ahead .comma (dropNewlines one.rest) then
        let comma ← past (mark .comma) one.rest
        let more ← listed item close one.value comma.rest
        return ⟨more.value, more.rest,
          Nat.lt_trans more.shorter (Nat.lt_trans comma.shorter one.shorter)⟩
      else
        let closed ← past (mark close) one.rest
        return ⟨one.value, closed.rest, Nat.lt_trans closed.shorter one.shorter⟩
termination_by s => s.length
decreasing_by exact Nat.lt_trans comma.shorter one.shorter

/-- The deepest nesting of arrays and inline tables, and the most keys in a path. -/
def maxNesting : Nat := 80

/-- One key: a bare word of key characters, or a text quoted on one line. -/
def key : LexemeReader String :=
  take fun p => match p.lexeme with
    | .bare word => if word.all isBareKey then some (String.ofList word) else none
    | .quoted text q => if q.multiline then none else some text
    | _ => none

def path : LexemeReader (List String) :=
  (Reader.separated (fun keys => key.check fun k => .ok (keys ++ [k])) (mark .dot) (ahead .dot)
    []).check fun keys => if maxNesting < keys.length then .error () else .ok keys

def pair (sign : LexemeReader Unit) (value : LexemeReader Node) :
    LexemeReader (List String × Node) :=
  path.bind fun keys => sign.bind fun _ => value.check fun node => .ok (keys, node)

def array (value : LexemeReader Node) : LexemeReader Node :=
  (mark .openBracket).bind fun _ =>
    (listed (fun items => value.check fun node => .ok (items ++ [node])) .closeBracket []).check
      fun items => .ok (.array items)

/-- Newlines may stand around the equals sign, too. -/
def inlineTable (value : LexemeReader Node) : LexemeReader Node :=
  (mark .openBrace).bind fun _ =>
    (listed (fun entries => (pair (past (mark .equals)) (past value)).check fun p =>
      match Entries.insert? p.1 p.2 entries with
      | some more => .ok more
      | none => .error ()) .closeBrace []).check fun entries => .ok (.table .inline entries)

/-- The characters of a lexeme that may be part of an unquoted value. -/
def wordChars : Lexeme → List Char
  | .bare word => word
  | .dot => ['.']
  | _ => []

def isWord (p : Placed) : Bool := !(wordChars p.lexeme).isEmpty

/-- The parts of an unquoted value behind its first lexeme: bare words and dots without gaps
between them. -/
def wordParts (s : List Placed) : List Placed := s.takeWhile fun p => p.glued && isWord p

def wordText (first : Placed) (parts : List Placed) : List Char :=
  wordChars first.lexeme ++ parts.flatMap fun p => wordChars p.lexeme

/-- An unquoted value. A time of day may follow a date after a single space. -/
def word : LexemeReader Node
  | [] => .error ()
  | first :: behind =>
    let parts := if isWord first then wordParts behind else []
    let text := wordText first parts
    let joined : Bool := match behind.drop parts.length with
      | next :: _ =>
        (Date.take? text).any (·.2 = []) && next.gap == .space &&
          (wordChars next.lexeme).head?.any Char.isDigit
      | [] => false
    if joined then
      match behind.drop parts.length with
      | next :: further =>
        let more := wordParts further
        match DateTime.ofChars? (text ++ ' ' :: wordText next more) with
        | some d => .ok ⟨.dateTime d, behind.drop (parts.length + 1 + more.length), by
            simp only [Input.size, List.length_drop, List.length_cons]; omega⟩
        | none => .error ()
      | [] => .error ()
    else match scalar? text with
      | some node => .ok ⟨node, behind.drop parts.length, by
          simp only [Input.size, List.length_drop, List.length_cons]; omega⟩
      | none => .error ()

/-- A value in arrays and inline tables that are nested no deeper than `depth`. -/
def value (depth : Nat) : LexemeReader Node := fun s =>
  match depth, s.head?.map Placed.lexeme with
  | _, some (.quoted text _) => (take fun _ => some (.text text)) s
  | inner + 1, some .openBracket => array (value inner) s
  | inner + 1, some .openBrace => inlineTable (value inner) s
  | _, _ => word s

end LexemeReader

open LexemeReader

/-- The tables read so far, and the path of the table that new keys go to. -/
structure Progress where
  root : Entries := []
  current : List String := []

namespace Progress

def insert? (p : Progress) (keys : List String) (node : Node) : Option Progress := do
  return { p with root := ← p.root.descend? p.current (Entries.insert? keys node) }

/-- Opens the table at the end of a path with `enter`. -/
def open? (p : Progress) (enter : String → Entries → Option Entries) (keys : List String) :
    Option Progress := do
  let last ← keys.getLast?
  return { root := ← p.root.descend? keys.dropLast (enter last), current := keys }

end Progress

def orError {α : Type} : Option α → Except Unit α
  | some a => .ok a
  | none => .error ()

def tableHeader (p : Progress) : LexemeReader Progress :=
  (mark .openBracket).bind fun _ => path.bind fun keys =>
    (mark .closeBracket).check fun _ => orError (p.open? Entries.openTable? keys)

/-- The header of an array has its brackets in pairs without gaps. -/
def arrayHeader (p : Progress) : LexemeReader Progress :=
  (mark .openBracket).bind fun _ => (gluedMark .openBracket).bind fun _ => path.bind fun keys =>
    (mark .closeBracket).bind fun _ =>
      (gluedMark .closeBracket).check fun _ => orError (p.open? Entries.pushTable? keys)

def statement (p : Progress) : LexemeReader Progress := fun s =>
  if ahead .openBracket s then
    if s.tail.head? = some ⟨.openBracket, .glued⟩ then arrayHeader p s else tableHeader p s
  else (pair (mark .equals) (value maxNesting)).check (fun kv => orError (p.insert? kv.1 kv.2)) s

def statements (p : Progress) (s : List Placed) : Option Entries :=
  if s.isEmpty then some p.root
  else if ahead .newline s then statements p s.tail
  else
    match statement p s with
    | .error _ => none
    | .ok one =>
      if one.rest.isEmpty || ahead .newline one.rest then statements one.value one.rest
      else none
termination_by s.length
decreasing_by
  · simp only [List.length_tail]
    have : s ≠ [] := by simpa using ‹¬s.isEmpty = true›
    have := List.length_pos_iff.2 this
    omega
  · exact one.shorter

/-- The top-level table of a document. A byte order mark in front is skipped. -/
def read? (text : String) : Option Entries := do
  let cs := match text.toList with
    | '\ufeff' :: cs => cs
    | cs => cs
  statements {} (← lexemes? .wide cs)

end BeamEnvelope.Toml
