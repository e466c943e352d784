import BeamEnvelope.Machine.Element

/-!
# Passage of a beam through an element

A source seeds the beam, a generic element maps its moments, and every other element maps the
moments and moves both particles on. In a cavity the reference gains energy at its synchronous phase
while the centroid is followed through the gap exactly. Elements whose map cannot be evaluated for
the beam at hand act as drifts and give a warning.
-/

namespace BeamEnvelope

variable {K : Type} [Scalar K]

open Scalar

inductive Warning where
  | undefinedRigidity (element : String)
  | cavityAsDrift (element : String)
  | ignoredFrequency
deriving DecidableEq

def Warning.message : Warning → String
  | undefinedRigidity e =>
    e ++ ": Magnetic rigidity undefined; field-derived strength set to 0."
  | cavityAsDrift e => e ++ ": Reference particle undefined; rfcavity treated as a drift."
  | ignoredFrequency => "Ignoring invalid SampleFreq; using 80500000 Hz."

/-- The strength of a magnet for a reference particle. A field is divided by a multiple of the
rigidity, and has no strength without one. -/
def Strength.resolve (strength : Strength K) (reference : Particle K) (divisor : K) : K :=
  match strength with
  | normalized k => k
  | field b =>
    let rigidity := reference.rigidity
    if isZero rigidity then 0.0 else b / (divisor * rigidity)

/-- Whether a field meets a particle without rigidity. -/
def Strength.isUnresolved (strength : Strength K) (reference : Particle K) : Bool :=
  match strength with
  | normalized _ => false
  | field _ => isZero reference.rigidity

namespace Particle

/-- The reference particle behind a length without acceleration. -/
def coast (p : Particle K) (length frequency : K) : Particle K :=
  let q := p.updateVelocity
  { q with
    centroidEnergy := q.kineticEnergy
    phase := q.phase + phaseAdvance length q.beta frequency }

end Particle

/-- Puts the real particle at the reference with the offsets of the centroid. -/
def State.alignReal (st : State K) : State K :=
  let real := st.real.update
  { st with real := { real with
    phase := st.reference.phase + st.centroid Axis.s
    centroidEnergy := real.kineticEnergy + st.centroid Axis.ps * 1e6 } }

def State.coast (st : State K) (r : PhaseMatrix K) (length frequency : K) : State K :=
  let st := st.transport r
  { st with reference := st.reference.coast length frequency }.alignReal

/-- The reference particle on its way through a cavity: half the length at the entrance velocity,
the gap, and half the length at the exit velocity. -/
structure Crossing (K : Type) where
  voltage : K
  /-- The synchronous phase in rad. -/
  phase : K
  gain : K
  gapPhase : K
  exitEnergy : K
  exitPhase : K
  meanBeta : K
  meanGamma : K

namespace Cavity

def crossing (c : Cavity K) (p : Particle K) (length frequency : K) : Crossing K :=
  let half := length / 2.0
  let voltage := c.scale * c.gradient * length
  let phase := c.phase * degree
  let gain := p.charge * voltage * cos phase
  let gapPhase := p.phase + Particle.phaseAdvance half p.beta frequency
  let exitEnergy := p.kineticEnergy + gain
  let (gamma, beta) := Particle.velocity p.restEnergy exitEnergy
  { voltage, phase, gain, gapPhase, exitEnergy
    exitPhase := gapPhase + Particle.phaseAdvance half beta frequency
    meanBeta := (p.beta + beta) / 2.0
    meanGamma := (p.gamma + gamma) / 2.0 }

/-- The map of a cavity: a drift, a gap, and a drift at the exit energy. -/
def map (c : Cavity K) (p : Particle K) (kin : Kinematics K) (length frequency : K) :
    PhaseMatrix K :=
  let x := c.crossing p length frequency
  let exit := Particle.seed p.charge p.restEnergy x.exitEnergy
  let wavelength := lightSpeed / c.frequency * 1e3
  let transverseKick := -pi * p.charge * x.voltage * sin x.phase /
    (p.restEnergy * (x.meanBeta * x.meanBeta) * (x.meanGamma * x.meanGamma) * wavelength)
  let damping := if isPositive exit.betaGamma then p.beta * p.gamma / exit.betaGamma else 1.0
  let energyKick := -p.charge * x.voltage * sin x.phase * (c.frequency / frequency) / 1e6
  let half := length / 2.0 * 1e3
  PhaseMatrix.drift half (Kinematics.ofReference? exit frequency) *
    PhaseMatrix.gap transverseKick damping energyKick * PhaseMatrix.drift half (some kin)

/-- Phase and energy of the real particle behind the gap and the second half. -/
def follow (c : Cavity K) (real : Particle K) (x : Crossing K) (length frequency : K) : K × K :=
  let half := length / 2.0
  let ratio := c.frequency / frequency
  let beta := (Particle.velocity real.restEnergy real.centroidEnergy).2
  let middle := real.phase + Particle.phaseAdvance half beta frequency
  let energy :=
    real.centroidEnergy + real.charge * x.voltage * cos (x.phase + ratio * (middle - x.gapPhase))
  let exitBeta := (Particle.velocity real.restEnergy energy).2
  (middle + Particle.phaseAdvance half exitBeta frequency, energy)

/-- The centroid of a beam behind the cavity: its offsets in phase and energy are those of the real
particle, if that has a rest energy. -/
def centroid (c : Cavity K) (st : State K) (x : Crossing K) (mapped : PhaseVector K)
    (length frequency : K) : PhaseVector K :=
  if isPositive st.real.restEnergy then
    let (phase, energy) := c.follow st.real x length frequency
    (mapped.set Axis.s (phase - x.exitPhase)).set Axis.ps ((energy - x.exitEnergy) / 1e6)
  else mapped

/-- A passage with acceleration. -/
def accelerate (c : Cavity K) (st : State K) (kin : Kinematics K) (length frequency : K) :
    State K :=
  let x := c.crossing st.reference length frequency
  let mapped := st.transport (c.map st.reference kin length frequency)
  let reference := { st.reference with kineticEnergy := x.exitEnergy }.updateVelocity
  { mapped with
    centroid := c.centroid st x mapped.centroid length frequency
    reference := { reference with
      betaGamma := x.meanBeta * x.meanGamma
      phase := x.exitPhase
      centroidEnergy := x.exitEnergy }
    real := { st.real with kineticEnergy := st.real.kineticEnergy + x.gain } }.alignReal

end Cavity

namespace Element

/-- The map of an element for a reference particle, the identity for elements without one. -/
def transferMap (e : Element K) (p : Particle K) (frequency : K) : PhaseMatrix K :=
  let kin := Kinematics.ofReference? p frequency
  let length := e.length * 1e3
  match e.action with
  | .marker => .identity
  | .drift => .drift length kin
  | .bend b => .bend length b.angle b.edgeIn b.edgeOut (b.gradient / (1e3 * 1e3)) kin
  | .quadrupole s => .quadrupole length (s.resolve p 1.0 / (1e3 * 1e3)) kin
  | .solenoid s => .solenoid length (s.resolve p 2.0 / 1e3) kin
  | .cavity c =>
    match kin with
    | some kin => c.map p kin e.length frequency
    | none => .drift length none
  | .source _ => .identity
  | .generic transfer => transfer

def act (e : Element K) (frequency : K) (st : State K) : State K :=
  match e.action with
  | .source s => st.seed s
  | .generic transfer => st.transport transfer
  | .cavity c =>
    match Kinematics.ofReference? st.reference frequency with
    | some kin => c.accelerate st kin e.length frequency
    | none => st.coast (e.transferMap st.reference frequency) e.length frequency
  | _ => st.coast (e.transferMap st.reference frequency) e.length frequency

def advance (e : Element K) (frequency : K) (st : State K) : State K :=
  let behind := e.act frequency st
  { behind with position := behind.position + e.length }

def warnings (e : Element K) (frequency : K) (st : State K) : List Warning :=
  match e.action with
  | .quadrupole s | .solenoid s =>
    if s.isUnresolved st.reference then [.undefinedRigidity e.name] else []
  | .cavity _ =>
    if (Kinematics.ofReference? st.reference frequency).isNone then [.cavityAsDrift e.name] else []
  | _ => []

end Element

structure Passage (K : Type) where
  element : Element K
  before : State K
  behind : State K

end BeamEnvelope
