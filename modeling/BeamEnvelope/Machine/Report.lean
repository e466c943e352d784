import BeamEnvelope.Machine.Propagation

/-!
# Reports

Texts of particles, states and machines. Energies and moments are written with six digits behind the
point and an exponent, dimensionless quantities with ten digits.
-/

namespace BeamEnvelope

open Decimal

def Particle.report (p : Particle Float) : String :=
  "IonZ=" ++ positionalFixed 10 p.charge ++
  " IonEs=" ++ scientificFixed 6 p.restEnergy ++
  " IonEk=" ++ scientificFixed 6 p.kineticEnergy ++
  " IonW=" ++ scientificFixed 6 p.totalEnergy ++
  " gamma=" ++ positionalFixed 10 p.gamma ++
  " beta=" ++ positionalFixed 10 p.beta ++
  " bg=" ++ positionalFixed 10 p.betaGamma ++
  " phis=" ++ positionalFixed 10 p.phase ++
  " Ekinetic=" ++ scientificFixed 6 p.centroidEnergy

namespace State

/-- A number at the right of a column of 14. -/
private def cell (x : Float) : String :=
  let text := scientificFixed 6 x
  String.ofList (List.replicate (14 - text.length) ' ') ++ text

def report (st : State Float) : String :=
  "State: pos=" ++ positionalFixed 6 st.position ++ " m\n" ++
  "  moment0 = [" ++ ", ".intercalate (st.centroid.toList.map (scientificFixed 6)) ++ "]\n" ++
  "  state =\n" ++
  String.join (st.sigma.toLists.map fun row =>
    "   " ++ String.join (row.map fun x => " " ++ cell x) ++ "\n") ++
  "  real: " ++ st.real.report ++ "\n" ++
  "  ref:  " ++ st.reference.report

end State

def Machine.report {K : Type} (m : Machine K) : String :=
  "sim_type: " ++ simulationType ++ "\n" ++
  "#Elements: " ++ toString m.elements.length ++ "\n" ++
  String.join (m.elements.map fun e => e.title ++ "\n")

end BeamEnvelope
