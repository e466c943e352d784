import BeamEnvelope.Toml.Quoting

/-!
# Lexemes of TOML documents

A document is cut into quoted texts, punctuation, newlines and bare words, which are the runs of
all other characters; quotation marks inside a bare word belong to it. Of blanks and comments only
the width of the gap between two lexemes is kept.
-/

namespace BeamEnvelope.Toml

inductive Lexeme where
  | bare (word : List Char)
  | quoted (text : String) (q : Quotes)
  | dot | equals | comma | openBracket | closeBracket | openBrace | closeBrace | newline
deriving DecidableEq

/-- What separates a lexeme from the one before it: nothing, one space, or more. -/
inductive Gap where
  | glued | space | wide
deriving DecidableEq

def Gap.widen : Gap → Char → Gap
  | glued, ' ' => space
  | _, _ => wide

structure Placed where
  lexeme : Lexeme
  gap : Gap
deriving DecidableEq

def Placed.glued (p : Placed) : Bool := p.gap = .glued

def punctuation? (c : Char) : Option Lexeme :=
  if c = '.' then some .dot
  else if c = '=' then some .equals
  else if c = ',' then some .comma
  else if c = '[' then some .openBracket
  else if c = ']' then some .closeBracket
  else if c = '{' then some .openBrace
  else if c = '}' then some .closeBrace
  else if c = '\n' then some .newline
  else none

def isBareWord (c : Char) : Bool :=
  (punctuation? c).isNone && !isBlank c && c != '\r' && c != '#'

/-- A quoted text behind its first mark, and the number of characters it takes there. -/
def quotedLexeme? (lines single : Quotes) (rest : List Char) : Option (Lexeme × Nat) :=
  if rest.take 2 == [lines.mark, lines.mark] then do
    let inside := rest.drop 2
    let width ← insideLinesWidth? lines inside
    let text ← decode? lines (inside.take width)
    return (.quoted text lines, width + 5)
  else do
    let width ← insideWidth? single rest
    let text ← decode? single (rest.take width)
    return (.quoted text single, width + 1)

/-- The lexeme that starts with a character, and how much of the rest belongs to it. -/
def lexeme? (c : Char) (rest : List Char) : Option (Lexeme × Nat) :=
  match punctuation? c with
  | some l => some (l, 0)
  | none =>
    if c = '"' then quotedLexeme? .basicLines .basic rest
    else if c = '\'' then quotedLexeme? .literalLines .literal rest
    else if c = '\r' then if rest.head? = some '\n' then some (.newline, 1) else none
    else
      let word := rest.takeWhile isBareWord
      some (.bare (c :: word), word.length)

/-- The width of a comment behind its `#`. Control characters may not stand in it. -/
def commentWidth? (rest : List Char) : Option Nat :=
  let body := rest.takeWhile fun c => !isControl c
  match rest.drop body.length with
  | [] => some body.length
  | '\n' :: _ => some body.length
  | '\r' :: '\n' :: _ => some body.length
  | _ => none

def lexemes? (gap : Gap) : List Char → Option (List Placed)
  | [] => some []
  | c :: rest =>
    if isBlank c then lexemes? (gap.widen c) rest
    else if c = '#' then
      match commentWidth? rest with
      | none => none
      | some width => lexemes? .wide (rest.drop width)
    else
      match lexeme? c rest with
      | none => none
      | some (lexeme, width) =>
        (lexemes? .glued (rest.drop width)).map (⟨lexeme, gap⟩ :: ·)
termination_by cs => cs.length
decreasing_by all_goals simp only [List.length_drop, List.length_cons]; omega

end BeamEnvelope.Toml
