import BeamEnvelope.Beam.Particle
import BeamEnvelope.Beam.PhaseSpace

/-!
# Linear optics

The transfer map of each kind of element as a matrix on phase space. Lengths are in mm and focusing
strengths in the matching inverse powers of mm. Longitudinal and dispersive terms need the
kinematics of the reference particle and vanish without them.
-/

namespace BeamEnvelope

variable {K : Type} [Scalar K]

open Scalar

structure Kinematics (K : Type) where
  beta : K
  gamma : K
  betaGamma : K
  /-- In MeV per nucleon. -/
  restEnergy : K
  /-- The distance in mm that light travels in one period of the sampling frequency. -/
  wavelength : K

namespace Kinematics

/-- The kinematics of a reference particle with a usable energy. -/
def ofReference? (p : Particle K) (frequency : K) : Option (Kinematics K) :=
  let unusable (a : K) : Bool := isNegative a || isZero a
  if !p.isDefined || unusable p.betaGamma || unusable frequency then none
  else some {
    beta := p.beta
    gamma := p.gamma
    betaGamma := p.betaGamma
    restEnergy := p.restEnergy / 1e6
    wavelength := lightSpeed / frequency * 1e3 }

/-- The phase change per MeV of energy offset over a straight section. -/
def slip (k : Kinematics K) (length : K) : K :=
  -2.0 * pi * length / (k.wavelength * k.restEnergy * (k.betaGamma * k.betaGamma * k.betaGamma))

/-- The relative momentum offset per MeV of energy offset. -/
def momentumPerEnergy (k : Kinematics K) : K := 1.0 / (k.beta * k.beta * k.gamma * k.restEnergy)

def phasePerLength (k : Kinematics K) : K := 2.0 * pi / (k.beta * k.wavelength)

end Kinematics

def slipOf (kin : Option (Kinematics K)) (length : K) : K :=
  match kin with
  | some k => 0.0 + k.slip length
  | none => 0.0

structure Plane (K : Type) where
  xx : K
  xp : K
  px : K
  pp : K

/-- The solutions of `x'' + k x = 0` after a length, started by an offset and by a slope. -/
def Plane.focusing (k length : K) : Plane K :=
  if isPositive k then
    let w := sqrt k
    let c := cos (w * length)
    let s := sin (w * length)
    ⟨c, s / w, -w * s, c⟩
  else if isNegative k then
    let w := sqrt (-k)
    let c := cosh (w * length)
    let s := sinh (w * length)
    ⟨c, s / w, w * s, c⟩
  else ⟨1.0, length, 0.0, 1.0⟩

namespace PhaseMatrix

def uncoupled (a b : Plane K) (slip : K) : PhaseMatrix K := ⟨#v[
  #v[a.xx, a.xp, 0.0, 0.0, 0.0, 0.0, 0.0],
  #v[a.px, a.pp, 0.0, 0.0, 0.0, 0.0, 0.0],
  #v[0.0, 0.0, b.xx, b.xp, 0.0, 0.0, 0.0],
  #v[0.0, 0.0, b.px, b.pp, 0.0, 0.0, 0.0],
  #v[0.0, 0.0, 0.0, 0.0, 1.0, slip, 0.0],
  #v[0.0, 0.0, 0.0, 0.0, 0.0, 1.0, 0.0],
  #v[0.0, 0.0, 0.0, 0.0, 0.0, 0.0, 1.0]]⟩

/-- A positive strength focuses horizontally. -/
def quadrupole (length k : K) (kin : Option (Kinematics K)) : PhaseMatrix K :=
  uncoupled (.focusing k length) (.focusing (-k) length) (slipOf kin length)

def drift (length : K) (kin : Option (Kinematics K)) : PhaseMatrix K :=
  uncoupled (.focusing 0.0 length) (.focusing 0.0 length) (slipOf kin length)

/-- The kick of a pole face that stands at an angle. -/
def edge (curvature angle : K) : PhaseMatrix K :=
  let kick := tan angle * curvature
  (identity.set Axis.px Axis.x kick).set Axis.py Axis.y (-kick)

/-- The terms of a bend that couple its plane with phase and energy. -/
def disperse (body : PhaseMatrix K) (k : Kinematics K) (length h kx : K) (a : Plane K) :
    PhaseMatrix K :=
  let dx := if isZero kx then length * length / 2.0 else (1.0 - a.xx) / kx
  let integral := if isZero kx then length * length * length / 6.0 else (length - a.xp) / kx
  let mpe := k.momentumPerEnergy
  let ppl := k.phasePerLength
  ((((body.set Axis.x Axis.ps (h * dx * mpe)).set Axis.px Axis.ps (h * a.xp * mpe)).set
    Axis.s Axis.x (ppl * h * a.xp)).set Axis.s Axis.px (ppl * h * dx)).set
      Axis.s Axis.ps (k.slip length + ppl * h * h * integral * mpe)

/-- A sector bend of total angle `angle` in rad with pole faces at angles and a gradient `k`. -/
def bend (length angle edgeIn edgeOut k : K) (kin : Option (Kinematics K)) : PhaseMatrix K :=
  let h := if isZero length then 0.0 else angle / length
  let kx := k + h * h
  let a := Plane.focusing kx length
  let plain := uncoupled a (.focusing (-k) length) 0.0
  let body := match kin with
    | some kin => disperse plain kin length h kx a
    | none => plain
  edge h edgeOut * body * edge h edgeIn

/-- A solenoid of strength `k`, half the field over the rigidity; it couples the planes. -/
def solenoid (length k : K) (kin : Option (Kinematics K)) : PhaseMatrix K :=
  if isZero k then drift length kin
  else
    let s := sin (k * length)
    let c := cos (k * length)
    ⟨#v[
      #v[c * c, s * c / k, s * c, s * s / k, 0.0, 0.0, 0.0],
      #v[-k * s * c, c * c, -k * s * s, s * c, 0.0, 0.0, 0.0],
      #v[-s * c, -s * s / k, c * c, s * c / k, 0.0, 0.0, 0.0],
      #v[k * s * s, -s * c, -k * s * c, c * c, 0.0, 0.0, 0.0],
      #v[0.0, 0.0, 0.0, 0.0, 1.0, slipOf kin length, 0.0],
      #v[0.0, 0.0, 0.0, 0.0, 0.0, 1.0, 0.0],
      #v[0.0, 0.0, 0.0, 0.0, 0.0, 0.0, 1.0]]⟩

/-- A thin accelerating gap: a transverse kick in 1/mm, the damping of the slopes, and a kick of the
energy in MeV/rad. -/
def gap (transverseKick damping energyKick : K) : PhaseMatrix K := ⟨#v[
  #v[1.0, 0.0, 0.0, 0.0, 0.0, 0.0, 0.0],
  #v[transverseKick, damping, 0.0, 0.0, 0.0, 0.0, 0.0],
  #v[0.0, 0.0, 1.0, 0.0, 0.0, 0.0, 0.0],
  #v[0.0, 0.0, transverseKick, damping, 0.0, 0.0, 0.0],
  #v[0.0, 0.0, 0.0, 0.0, 1.0, 0.0, 0.0],
  #v[0.0, 0.0, 0.0, 0.0, energyKick, 1.0, 0.0],
  #v[0.0, 0.0, 0.0, 0.0, 0.0, 0.0, 1.0]]⟩

end PhaseMatrix

end BeamEnvelope
