import BeamEnvelope.Toml.DateTime

/-!
# TOML documents

A document is a tree of tables. The tree remembers how each table came about, because that decides
what later lines may add to it: a header opens a table once, dotted keys extend the tables that
dotted keys or the headers of deeper tables have made, and an inline value is complete. No table is
of both kinds: a key goes directly into a table of dotted keys only if it is dotted itself.
-/

namespace BeamEnvelope.Toml

/-- What made a table: the header of a deeper table, its own header, dotted keys, or an inline
value. -/
inductive Origin where
  | implied | header | dotted | inline
deriving DecidableEq

/-- A TOML value. Tables list their entries in the order of the document; `tables` holds the tables
of an array of tables, the latest first. `unvalued` is a number by its spelling that stands for
none: it lacks digits, has other characters than those, or exceeds its range. -/
inductive Node where
  | text (s : String)
  | integer (n : Int)
  | float (x : Float)
  | unvalued
  | boolean (b : Bool)
  | dateTime (d : DateTime)
  | array (items : List Node)
  | table (origin : Origin) (entries : List (String × Node))
  | tables (latestFirst : List (List (String × Node)))

abbrev Entries := List (String × Node)

mutual

/-- Whether all numbers in a value stand for one. -/
def Node.isValued : Node → Bool
  | .unvalued => false
  | .array items => areValued items
  | .table _ entries => Entries.areValued entries
  | .tables latestFirst => tablesValued latestFirst
  | _ => true

def areValued : List Node → Bool
  | [] => true
  | node :: rest => node.isValued && areValued rest

def Entries.areValued : Entries → Bool
  | [] => true
  | (_, node) :: rest => node.isValued && Entries.areValued rest

def tablesValued : List Entries → Bool
  | [] => true
  | entries :: rest => Entries.areValued entries && tablesValued rest

end

namespace Entries

def replace (entries : Entries) (key : String) (node : Node) : Entries :=
  entries.map fun e => if e.1 = key then (key, node) else e

/-- Adds a value under a path of keys. The last key is new. The tables on the way are new, made by
dotted keys, or implied, and an array of tables leads to its latest one; the table at their end is
one of dotted keys. `direct` says whether the value may go into this table without a step. -/
def insertUnder? (direct : Bool) : (path : List String) → Node → Entries → Option Entries
  | [], _, _ => none
  | [key], node, entries =>
    if !direct || (entries.lookup key).isSome then none else some (entries ++ [(key, node)])
  | key :: path, node, entries =>
    match entries.lookup key with
    | none => do return entries ++ [(key, .table .dotted (← insertUnder? true path node []))]
    | some (.table made inner) =>
      if made = .implied || made = .dotted then do
        return entries.replace key
          (.table made (← insertUnder? (made = .dotted) path node inner))
      else none
    | some (.tables (latest :: older)) => do
      return entries.replace key (.tables ((← insertUnder? false path node latest) :: older))
    | some _ => none

/-- Adds a value to a table that a header or a brace has opened. -/
def insert? : (path : List String) → Node → Entries → Option Entries := insertUnder? true

/-- Changes the table that a path of header keys leads to. Missing tables on the way are implied,
and an array of tables leads to its latest one. -/
def descend? (path : List String) (change : Entries → Option Entries) (entries : Entries) :
    Option Entries :=
  match path with
  | [] => change entries
  | key :: path =>
    match entries.lookup key with
    | none => do return entries ++ [(key, .table .implied (← descend? path change []))]
    | some (.table made inner) =>
      if made = .inline then none
      else do return entries.replace key (.table made (← descend? path change inner))
    | some (.tables (latest :: older)) => do
      return entries.replace key (.tables ((← descend? path change latest) :: older))
    | some _ => none

/-- Opens a table under its header; only an implied one may exist. -/
def openTable? (key : String) (entries : Entries) : Option Entries :=
  match entries.lookup key with
  | none => some (entries ++ [(key, .table .header [])])
  | some (.table .implied inner) => some (entries.replace key (.table .header inner))
  | some _ => none

def pushTable? (key : String) (entries : Entries) : Option Entries :=
  match entries.lookup key with
  | none => some (entries ++ [(key, .tables [[]])])
  | some (.tables older) => some (entries.replace key (.tables ([] :: older)))
  | some _ => none

end Entries

namespace Node

/-- The entries of a table. A date is a table with its text. -/
def entries? : Node → Option Entries
  | table _ entries => some entries
  | dateTime d => some [(DateTime.key, .text (String.ofList d.chars))]
  | _ => none

/-- The tables of an array, written inline or under headers, in the order of the document. -/
def tables? : Node → Option (List Entries)
  | tables latestFirst => some latestFirst.reverse
  | array items => items.mapM entries?
  | _ => none

def text? : Node → Option String
  | text s => some s
  | _ => none

/-- Integers from -2^63 to 2^64 - 1 and floats are numbers. -/
def number? : Node → Option Float
  | integer n =>
    if -Int.pow 2 63 ≤ n && n < Int.pow 2 64 then some (Float.ofInt n) else none
  | float x => some x
  | _ => none

def numbers? : Node → Option (List Float)
  | array items => items.mapM number?
  | _ => none

end Node

end BeamEnvelope.Toml
