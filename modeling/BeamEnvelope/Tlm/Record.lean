import BeamEnvelope.Decimal.Reading
import BeamEnvelope.Glps.Printing
import BeamEnvelope.Text.Blank

/-!
# Records of TLM files

A record is a row of words: a keyword, a name, and numbers whose meaning the keyword decides. Each
keyword names one kind of element, for which a record becomes one definition of a lattice source.
The numbers keep their spelling.
-/

namespace BeamEnvelope.Tlm

inductive Kind where
  | marker | drift | solenoid | dipole | quadrupole | cavity | electricBend
deriving DecidableEq

namespace Kind

def keyword : Kind → String
  | marker => "mark"
  | drift => "drift"
  | solenoid => "solenoid"
  | dipole => "dipole"
  | quadrupole => "quadpole"
  | cavity => "rfcavity"
  | electricBend => "ebend"

def all : List Kind := [marker, drift, solenoid, dipole, quadrupole, cavity, electricBend]

def ofKeyword? (word : String) : Option Kind := all.find? fun k => k.keyword == word

/-- The least number of words, the keyword and the name among them. -/
def leastWords : Kind → Nat
  | marker => 3
  | drift => 4
  | solenoid | quadrupole => 5
  | cavity => 7
  | dipole => 9
  | electricBend => 10

/-- Whether names of this kind are numbered, because files use them more than once. -/
def isNumbered : Kind → Bool
  | quadrupole | cavity => false
  | _ => true

end Kind

/-- Why a record is refused. Words are counted from 0. -/
inductive Cause where
  | unknownKeyword (word : String)
  | tooFewWords (kind : Kind) (found : Nat)
  | markerLength (name length : String)
  | notNumber (index : Nat) (word : String)
  | badName (name : String)
deriving DecidableEq

def Cause.message : Cause → String
  | unknownKeyword word => "undefined keyword '" ++ word ++ "'"
  | tooFewWords kind found =>
    "'" ++ kind.keyword ++ "' record needs at least " ++ toString kind.leastWords ++
      " fields, found " ++ toString found
  | markerLength name length => "marker '" ++ name ++ "' has non-zero length " ++ length
  | notNumber index word => "field " ++ toString index ++ " ('" ++ word ++ "') is not a number"
  | badName name => "'" ++ name ++ "' cannot be used as an element name"

/-- A record that can be converted. Its name is not numbered yet. -/
structure Record where
  kind : Kind
  name : String
  /-- All words; the first two are the keyword and the name as written. -/
  words : List String

namespace Record

def isNumber (word : String) : Bool :=
  match Decimal.read? word with
  | some x => x.isFinite
  | none => false

/-- The first word from the third on that is no number, with its index. -/
def firstNotNumber? (words : List String) : Option (String × Nat) :=
  (words.zipIdx.drop 2).find? fun w => !isNumber w.1

/-- A name with an underscore for its first colon. -/
def plainName (word : String) : String :=
  let cs := word.toList
  let front := cs.takeWhile (· != ':')
  match cs.drop front.length with
  | _ :: behind => String.ofList (front ++ '_' :: behind)
  | [] => word

def word (words : List String) (i : Nat) : String := words.getD i ""

/-- The record of a row of words, or the first reason to refuse it. -/
def ofWords (words : List String) : Except Cause Record := do
  let keyword := word words 0
  let some kind := Kind.ofKeyword? keyword | throw (.unknownKeyword keyword)
  if words.length < kind.leastWords then throw (.tooFewWords kind words.length)
  if let some (w, index) := firstNotNumber? words then throw (.notNumber index w)
  let name := plainName (word words 1)
  if !Glps.isIdentifier name then throw (.badName name)
  let length := word words 2
  if kind = .marker && !(Decimal.read? length).any (· == 0.0) then
    throw (.markerLength name length)
  return { kind, name, words }

def definition (r : Record) (name : String) : String :=
  let w := word r.words
  match r.kind with
  | .marker => name ++ ": marker;"
  | .drift => name ++ ": drift, L = " ++ w 2 ++ ", aper = " ++ w 3 ++ ";"
  | .solenoid =>
    name ++ ": solenoid, L = " ++ w 2 ++ ", B = " ++ w 4 ++ ", aper = " ++ w 3 ++ ";"
  | .dipole =>
    name ++ ": sbend, L = " ++ w 2 ++ ", phi = deg2rad(" ++ w 4 ++ "), phi1 = deg2rad(" ++ w 7 ++
      "), phi2 = deg2rad(" ++ w 8 ++ "), bg = " ++ w 5 ++ ", type = " ++ w 6 ++ ", aper = " ++
      w 3 ++ ";"
  | .quadrupole =>
    name ++ ": quadrupole, L = " ++ w 2 ++ ", B2 = " ++ w 4 ++ ", aper = " ++ w 3 ++ ";"
  | .cavity =>
    name ++ ": rfcavity, L = " ++ w 2 ++ ", f = " ++ w 4 ++ "e6, phi = " ++ w 6 ++
      ", scl_fac = " ++ w 5 ++ ", aper = " ++ w 3 ++ ";"
  | .electricBend =>
    name ++ ": edipole, L = " ++ w 3 ++ ", phi = " ++ w 6 ++ ", phi1 = " ++ w 8 ++ ", phi2 = " ++
      w 9 ++ ", E = " ++ w 7 ++ ", scl_fac = " ++ w 5 ++ ", aper = " ++ w 4 ++ ";"

end Record

end BeamEnvelope.Tlm
