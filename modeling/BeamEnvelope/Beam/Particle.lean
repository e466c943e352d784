import BeamEnvelope.Beam.Scalar

/-!
# Particles

A particle is tracked by its energies per nucleon in eV, the velocity that follows from them, and a
phase in rad at the sampling frequency.
-/

namespace BeamEnvelope

/-- The speed of light in m/s. -/
def lightSpeed {K : Type} [Scalar K] : K := 2.99792458e8

structure Particle (K : Type) where
  /-- Charge over mass number. -/
  charge : K
  restEnergy : K
  kineticEnergy : K
  totalEnergy : K
  gamma : K
  beta : K
  betaGamma : K
  phase : K
  /-- The kinetic energy with the energy offset of the beam's centroid. -/
  centroidEnergy : K
deriving BEq

namespace Particle

variable {K : Type} [Scalar K]

open Scalar

/-- Lorentz factor and velocity in units of the speed of light. -/
def velocity (restEnergy kineticEnergy : K) : K × K :=
  let gamma := if isZero restEnergy then 1.0 else (restEnergy + kineticEnergy) / restEnergy
  let square := 1.0 - 1.0 / (gamma * gamma)
  (gamma, sqrt (if isPositive square then square else 0.0))

/-- The phase in rad that passes at a frequency over a length in m. -/
def phaseAdvance (length beta frequency : K) : K :=
  if isPositive beta then 2.0 * pi * frequency * length / (beta * lightSpeed) else 0.0

def rest : Particle K := ⟨0.0, 0.0, 0.0, 0.0, 1.0, 0.0, 0.0, 0.0, 0.0⟩

/-- Renews what follows from the energies, `betaGamma` apart. -/
def updateVelocity (p : Particle K) : Particle K :=
  let (gamma, beta) := velocity p.restEnergy p.kineticEnergy
  { p with totalEnergy := p.restEnergy + p.kineticEnergy, gamma, beta }

def update (p : Particle K) : Particle K :=
  let q := p.updateVelocity
  { q with betaGamma := q.beta * q.gamma }

def seed (charge restEnergy kineticEnergy : K) : Particle K :=
  { update { rest with charge, restEnergy, kineticEnergy } with centroidEnergy := kineticEnergy }

/-- Whether the particle has a momentum. -/
def isDefined (p : Particle K) : Bool := isPositive p.restEnergy && isPositive p.beta

/-- The magnetic rigidity in T·m, zero for a particle without momentum or charge. -/
def rigidity (p : Particle K) : K :=
  if p.isDefined && !isZero p.charge then
    p.beta * p.gamma * p.restEnergy / (lightSpeed * p.charge)
  else 0.0

end Particle

end BeamEnvelope
