import BeamEnvelope.Beam.Optics

/-!
# Beam states

A beam is carried along as its first and second moments on phase space, with a reference particle
and the particle of its centroid beside them.
-/

namespace BeamEnvelope

structure State (K : Type) where
  /-- The second moments. -/
  sigma : PhaseMatrix K
  /-- The first moments; the homogeneous coordinate is 1. -/
  centroid : PhaseVector K
  real : Particle K
  reference : Particle K
  /-- The distance in m that has been travelled. -/
  position : K
deriving BEq

structure Seed (K : Type) where
  sigma : Option (PhaseMatrix K) := none
  centroid : Option (PhaseVector K) := none
  charge : K
  restEnergy : K
  kineticEnergy : K

/-- Quantities that a caller sets instead of those of the source. -/
structure Overrides (K : Type) where
  sigma : Option (PhaseMatrix K) := none
  centroid : Option (PhaseVector K) := none
  charge : Option K := none
  restEnergy : Option K := none
  kineticEnergy : Option K := none

def Overrides.isEmpty {K : Type} (o : Overrides K) : Bool :=
  o.sigma.isNone && o.centroid.isNone && o.charge.isNone && o.restEnergy.isNone &&
    o.kineticEnergy.isNone

namespace State

variable {K : Type} [Scalar K]

/-- Unit second moments on the six coordinates, no offset, no energy. -/
def start : State K where
  sigma := PhaseMatrix.identity.set Axis.one Axis.one 0.0
  centroid := .ofFn fun i => if i = Axis.one then 1.0 else 0.0
  real := .rest
  reference := .rest
  position := 0.0

/-- Both tracks start anew with the same energies. -/
def restart (st : State K) (charge restEnergy kineticEnergy : K) : State K :=
  let p := Particle.seed charge restEnergy kineticEnergy
  { st with real := p, reference := p }

def seed (st : State K) (source : Seed K) : State K :=
  { st with
    sigma := source.sigma.getD st.sigma
    centroid := source.centroid.getD st.centroid }.restart
      source.charge source.restEnergy source.kineticEnergy

/-- Applies overrides. One energy or charge among them starts both tracks anew with the others of
the reference particle. -/
def override (st : State K) (o : Overrides K) : State K :=
  let st := { st with
    sigma := o.sigma.getD st.sigma
    centroid := (o.centroid.map fun v => v.set Axis.one 1.0).getD st.centroid }
  if o.charge.isSome || o.restEnergy.isSome || o.kineticEnergy.isSome then
    st.restart (o.charge.getD st.reference.charge) (o.restEnergy.getD st.reference.restEnergy)
      (o.kineticEnergy.getD st.reference.kineticEnergy)
  else st

/-- Maps both moments; the homogeneous coordinate stays 1. -/
def transport (st : State K) (r : PhaseMatrix K) : State K :=
  { st with
    sigma := r * st.sigma * r.transpose
    centroid := (r.apply st.centroid).set Axis.one 1.0 }

end State

end BeamEnvelope
