import BeamEnvelope.Beam.State

/-!
# Elements

An element of a machine has a length and acts on the beam as its kind says. Angles are in rad unless
said otherwise, strengths in SI units.
-/

namespace BeamEnvelope

inductive ElementType where
  | marker | drift | bend | quadrupole | solenoid | cavity | source | generic
deriving DecidableEq

namespace ElementType

def name : ElementType → String
  | marker => "marker"
  | drift => "drift"
  | bend => "sbend"
  | quadrupole => "quadrupole"
  | solenoid => "solenoid"
  | cavity => "rfcavity"
  | source => "source"
  | generic => "generic"

def all : List ElementType :=
  [marker, drift, bend, quadrupole, solenoid, cavity, source, generic]

def ofName? (s : String) : Option ElementType := all.find? fun t => t.name == s

end ElementType

/-- A focusing strength, or the field that yields it when divided by the rigidity of the beam. -/
inductive Strength (K : Type) where
  | normalized (k : K)
  | field (b : K)

structure Bend (K : Type) where
  angle : K
  edgeIn : K
  edgeOut : K
  gradient : K

structure Cavity (K : Type) where
  /-- In Hz. -/
  frequency : K
  /-- The synchronous phase in degrees. -/
  phase : K
  scale : K
  /-- The accelerating gradient at unit scale in V/m. -/
  gradient : K

inductive Action (K : Type) where
  | marker
  | drift
  | bend (b : Bend K)
  | quadrupole (s : Strength K)
  | solenoid (s : Strength K)
  | cavity (c : Cavity K)
  | source (s : Seed K)
  | generic (transfer : PhaseMatrix K)

def Action.type {K : Type} : Action K → ElementType
  | marker => .marker
  | drift => .drift
  | bend _ => .bend
  | quadrupole _ => .quadrupole
  | solenoid _ => .solenoid
  | cavity _ => .cavity
  | source _ => .source
  | generic _ => .generic

structure Element (K : Type) where
  name : String
  index : Nat
  /-- In m. -/
  length : K
  aperture : List K
  action : Action K

namespace Element

variable {K : Type}

def type (e : Element K) : ElementType := e.action.type

def movesBeam (e : Element K) : Bool := e.type != .source && e.type != .generic

def seed? (e : Element K) : Option (Seed K) :=
  match e.action with
  | .source s => some s
  | _ => none

def title (e : Element K) : String :=
  "Element " ++ toString e.index ++ ": " ++ e.name ++ " (" ++ e.type.name ++ ")"

end Element

end BeamEnvelope
