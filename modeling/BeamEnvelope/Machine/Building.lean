import BeamEnvelope.Machine.Passage
import BeamEnvelope.Machine.Refusal

/-!
# Building machines

A machine is built from a lattice: every component becomes an element, the first one that does not
ends the building. Parameters that a component lacks are taken from the globals. Only its length
and its aperture are its own alone.
-/

namespace BeamEnvelope

structure Machine (K : Type) where
  name : String
  /-- The sampling frequency in Hz that phases refer to. -/
  frequency : K
  elements : List (Element K)

namespace Component

/-- What `read` makes of a parameter, if there is one. -/
def demand {α : Type} (key : String) (shape : Shape) (read : Value → Option α) :
    Option Value → Except Element.Refusal (Option α)
  | none => .ok none
  | some value =>
    match read value with
    | some a => .ok (some a)
    | none => .error (.mistyped key shape value)

variable (globals : Dictionary Value) (c : Component)

def scalar? (key : String) : Except Element.Refusal (Option Float) :=
  demand key .scalar Value.scalar? (c.lookup? globals key)

def scalarOr (key : String) (default : Float) : Except Element.Refusal Float := do
  return (← c.scalar? globals key).getD default

def matrix? (key : String) : Except Element.Refusal (Option (PhaseMatrix Float)) :=
  demand key .matrix (fun v => v.vector?.bind PhaseMatrix.ofEntries?) (c.lookup? globals key)

def moments? (key : String) : Except Element.Refusal (Option (PhaseVector Float)) :=
  demand key .moments (fun v => v.vector?.bind (PhaseVector.ofMoments? 1.0))
    (c.lookup? globals key)

/-- An absent length is zero. -/
def length : Except Element.Refusal Float := do
  let length := (← demand "L" .scalar Value.scalar? (c.params.get? "L")).getD 0.0
  if length < 0.0 then .error (.negativeLength length) else .ok length

def aperture : Except Element.Refusal (List Float) := do
  let read (v : Value) := v.vector?.or (v.scalar?.map fun x => [x])
  return (← demand "aper" .aperture read (c.params.get? "aper")).getD []

/-- A strength under one key, else a field under another, else none at all. -/
def strength (normalized field : String) : Except Element.Refusal (Strength Float) := do
  match ← c.scalar? globals normalized with
  | some k => return .normalized k
  | none =>
    match ← c.scalar? globals field with
    | some b => return .field b
    | none => return .normalized 0.0

def bend (length : Float) : Except Element.Refusal (Bend Float) := do
  let angle ← c.scalarOr globals "phi" 0.0
  let edgeIn ← c.scalarOr globals "phi1" 0.0
  let edgeOut ← c.scalarOr globals "phi2" 0.0
  let gradient ← c.scalarOr globals "K" 0.0
  if length == 0.0 && angle != 0.0 then .error .sharpBend
  else .ok { angle, edgeIn, edgeOut, gradient }

def cavity : Except Element.Refusal (Cavity Float) := do
  let some frequency ← c.scalar? globals "f" | .error (.missing "f")
  let phase ← c.scalarOr globals "phi" 0.0
  let scale ← c.scalarOr globals "scl_fac" 1.0
  let gradient ← c.scalarOr globals "E0" 1e6
  return { frequency, phase, scale, gradient }

def seed : Except Element.Refusal (Seed Float) := do
  let centroid ← c.moments? globals "moment0"
  let sigma ← c.matrix? globals "initial"
  let charge ← c.scalarOr globals "IonZ" 0.0
  let restEnergy ← c.scalarOr globals "IonEs" 0.0
  let kineticEnergy ← c.scalarOr globals "IonEk" 0.0
  return { sigma, centroid, charge, restEnergy, kineticEnergy }

def transfer : Except Element.Refusal (PhaseMatrix Float) := do
  let some transfer ← c.matrix? globals "transfer" | .error (.missing "transfer")
  return transfer

def action (length : Float) : ElementType → Except Element.Refusal (Action Float)
  | .marker => if length == 0.0 then .ok .marker else .error (.longMarker length)
  | .drift => .ok .drift
  | .bend => .bend <$> c.bend globals length
  | .quadrupole => .quadrupole <$> c.strength globals "K" "B2"
  | .solenoid => .solenoid <$> c.strength globals "K" "B"
  | .cavity => .cavity <$> c.cavity globals
  | .source => .source <$> c.seed globals
  | .generic => .generic <$> c.transfer globals

def element (index : Nat) : Except Element.Refusal (Element Float) := do
  let some type := ElementType.ofName? c.kind | .error (.unknownType c.kind)
  let length ← c.length
  let action ← c.action globals length type
  let aperture ← c.aperture
  return { name := c.name, index, length, aperture, action }

end Component

namespace Machine

def simulationType : String := "MomentMatrix"

def checkSimulationType (globals : Dictionary Value) : Except Refusal Unit :=
  match globals.get? "sim_type" with
  | none => .error .noSimulationType
  | some found =>
    if found.text? = some simulationType then .ok () else .error (.otherSimulationType found)

def defaultFrequency : Float := 80.5e6

/-- The chosen sampling frequency. One that is not positive and finite is ignored. -/
def sampling (globals : Dictionary Value) : Float × List Warning :=
  match globals.get? "SampleFreq" with
  | none => (defaultFrequency, [])
  | some value =>
    match value.scalar?.filter fun f => f > 0.0 && f.isFinite with
    | some f => (f, [])
    | none => (defaultFrequency, [.ignoredFrequency])

def elementsFrom (globals : Dictionary Value) :
    Nat → List Component → Except Refusal (List (Element Float))
  | _, [] => .ok []
  | index, c :: rest =>
    match c.element globals index with
    | .error cause => .error (.element index c.name cause)
    | .ok element => do return element :: (← elementsFrom globals (index + 1) rest)

def ofLattice (lattice : Lattice) : Except Refusal (Machine Float) := do
  checkSimulationType lattice.globals
  let elements ← elementsFrom lattice.globals 0 lattice.components
  return { name := lattice.name, frequency := (sampling lattice.globals).1, elements }

/-- The warnings of building a machine, also of a building that fails. -/
def buildWarnings (lattice : Lattice) : List Warning :=
  match checkSimulationType lattice.globals with
  | .ok _ => (sampling lattice.globals).2
  | .error _ => []

end Machine

end BeamEnvelope
