import BeamEnvelope.Proofs.Optics.Conservation
import BeamEnvelope.Proofs.Machine.Steps

/-!
# Phase space is conserved along machines

Over the real numbers the map of every element that moves the beam takes the form on phase space
behind the element back to the form in front of it. The form belongs to the reference particle: its
momentum weights the transverse planes, and the length of one period per energy the longitudinal
one. Only an accelerating cavity changes the momentum, and it damps the slopes by as much.
-/

namespace BeamEnvelope

open Scalar

variable {frequency : ℝ}

theorem lightSpeed_pos : 0 < (lightSpeed : ℝ) := by
  rw [lightSpeed]
  norm_num

namespace Particle

variable {p q : Particle ℝ}

noncomputable def phaseWeight (p : Particle ℝ) (frequency : ℝ) : ℝ :=
  -(lightSpeed / frequency * 1e3) / (2 * Real.pi * (p.restEnergy / 1e6))

/-- The form on phase space for a reference particle. -/
noncomputable def form (p : Particle ℝ) (frequency : ℝ) : PhaseMatrix ℝ :=
  .form (p.beta * p.gamma) (p.phaseWeight frequency)

/-- A path length that an energy offset makes is weighted as the offset that it comes from. -/
theorem balance_of_kinematics {kin : Kinematics ℝ}
    (h : Kinematics.ofReference? p frequency = some kin) (hgamma : p.gamma ≠ 0) :
    p.beta * p.gamma * kin.momentumPerEnergy +
      p.phaseWeight frequency * kin.phasePerLength = 0 := by
  obtain ⟨hdefined, -, hfrequency, rfl⟩ := Kinematics.ofReference?_eq_some h
  simp only [isDefined, Bool.and_eq_true, isPositive_real] at hdefined
  rw [isZero_eq_false_real] at hfrequency
  obtain ⟨hrest, hbeta⟩ := hdefined
  have hlight := lightSpeed_pos.ne'
  have hpi := Real.pi_ne_zero
  simp only [Kinematics.momentumPerEnergy, Kinematics.phasePerLength, phaseWeight, pi_real,
    one_real, two_real]
  field_simp
  ring

end Particle

namespace Passage

noncomputable def map (frequency : ℝ) (p : Passage ℝ) : PhaseMatrix ℝ :=
  p.element.transferMap p.before.reference frequency

/-- The form behind the passage is taken back to the one in front of it. -/
def IsConserving (frequency : ℝ) (p : Passage ℝ) : Prop :=
  PhaseMatrix.Conserves (p.before.reference.form frequency) (p.behind.reference.form frequency)
    (p.map frequency)

end Passage

variable {st : State ℝ} {e : Element ℝ}

theorem Cavity.conserves_map {c : Cavity ℝ} {p : Particle ℝ} {kin : Kinematics ℝ} {length w : ℝ}
    (hexit : 0 < (Particle.seed p.charge p.restEnergy
      (c.crossing p length frequency).exitEnergy).betaGamma) :
    PhaseMatrix.Conserves (.form (p.beta * p.gamma) w) (.form (Particle.seed p.charge p.restEnergy
      (c.crossing p length frequency).exitEnergy).betaGamma w) (c.map p kin length frequency) := by
  unfold Cavity.map
  refine (PhaseMatrix.conserves_drift w _ _ _).mul
    ((PhaseMatrix.conserves_gap w _ ?_ _ _).mul (PhaseMatrix.conserves_drift w _ _ _))
  rw [if_pos ((isPositive_real _).2 hexit), mul_div_cancel₀ _ hexit.ne']

theorem Particle.IsConsistent.form_coast {p : Particle ℝ} (h : p.IsConsistent) (length : ℝ) :
    (p.coast length frequency).form frequency = p.form frequency := by
  have hcoast : (p.coast length frequency).form frequency = p.updateVelocity.form frequency := rfl
  rw [hcoast, h.updateVelocity_eq]

/-- Outside of accelerating cavities every map leaves the form of its reference as it is. -/
theorem Element.conserves_transferMap {p : Particle ℝ} (he : e.movesBeam)
    (hcavity : ∀ c, e.action = .cavity c → Kinematics.ofReference? p frequency = none)
    (hgamma : p.gamma ≠ 0) :
    PhaseMatrix.Conserves (p.form frequency) (p.form frequency) (e.transferMap p frequency) := by
  rw [Element.transferMap, Particle.form]
  cases haction : e.action with
  | marker => exact PhaseMatrix.conserves_identity _ _
  | drift => exact PhaseMatrix.conserves_drift _ _ _ _
  | bend b =>
    exact PhaseMatrix.conserves_bend (fun _ hkin => p.balance_of_kinematics hkin hgamma) _ _ _ _ _
  | quadrupole s => exact PhaseMatrix.conserves_quadrupole _ _ _ _ _
  | solenoid s => exact PhaseMatrix.conserves_solenoid _ _ _ _ _
  | cavity c =>
    simp only [hcavity c haction]
    exact PhaseMatrix.conserves_drift _ _ _ _
  | source s => simp [Element.movesBeam, Element.type, haction, Action.type] at he
  | generic r => simp [Element.movesBeam, Element.type, haction, Action.type] at he

/-- What moves the beam maps its second moments and conserves phase space, as long as the particle
that leaves an accelerating cavity has a momentum. -/
theorem Element.isConserving_advance (he : e.movesBeam) (href : st.reference.IsConsistent)
    (hgamma : st.reference.gamma ≠ 0)
    (hexit : Passage.accelerates frequency ⟨e, st, e.advance frequency st⟩ →
      0 < (e.advance frequency st).reference.beta * (e.advance frequency st).reference.gamma) :
    Passage.IsConserving frequency ⟨e, st, e.advance frequency st⟩ ∧
      (e.advance frequency st).sigma =
        (st.transport (Passage.map frequency ⟨e, st, e.advance frequency st⟩)).sigma ∧
      (e.advance frequency st).reference.gamma ≠ 0 := by
  have hacts := e.acts frequency st
  rw [Element.advance] at hexit ⊢
  simp only [Passage.IsConserving, Passage.map] at hexit ⊢
  generalize hnext : e.act frequency st = next at hacts hexit ⊢
  cases hacts with
  | seed s haction => simp [Element.movesBeam, Element.type, haction, Action.type] at he
  | transport r haction => simp [Element.movesBeam, Element.type, haction, Action.type] at he
  | coast _ hdrifts =>
    refine ⟨?_, rfl, ?_⟩
    · change PhaseMatrix.Conserves _ ((st.reference.coast e.length frequency).form frequency) _
      rw [href.form_coast]
      exact Element.conserves_transferMap he hdrifts hgamma
    · change st.reference.updateVelocity.gamma ≠ 0
      rw [href.updateVelocity_eq]
      exact hgamma
  | accelerate c kin haction hkin =>
    have hmap : e.transferMap st.reference frequency =
        c.map st.reference kin e.length frequency := by
      rw [Element.transferMap, haction]
      simp only [hkin]
    have hmomentum := hexit (by
      simp [Passage.accelerates, Element.type, haction, Action.type, hkin])
    rw [hmap]
    exact ⟨Cavity.conserves_map hmomentum, rfl, (right_ne_zero_of_mul hmomentum.ne')⟩

/-- The product of the maps along a run, the first one applied first. -/
noncomputable def mapAlong (frequency : ℝ) : List (Passage ℝ) → PhaseMatrix ℝ
  | [] => .identity
  | p :: run => mapAlong frequency run * p.map frequency

theorem isConsistent_freshState (m : Machine ℝ) (o : Overrides ℝ) :
    (m.freshState o).reference.IsConsistent := by
  have hrest : (Particle.rest : Particle ℝ).IsConsistent := by
    constructor
    · simp [Particle.rest]
    · simp [Particle.rest, Particle.velocity]
  exact hrest.freshState m o

variable {front run back : List (Passage ℝ)}

theorem passages_isConserving {es : List (Element ℝ)} (href : st.reference.IsConsistent)
    (hgamma : st.reference.gamma ≠ 0) (hmoves : ∀ p ∈ passages frequency st es, p.element.movesBeam)
    (hexit : ∀ p ∈ passages frequency st es, p.accelerates frequency →
      0 < p.behind.reference.beta * p.behind.reference.gamma) :
    (∀ p ∈ passages frequency st es, p.IsConserving frequency ∧
      p.behind.sigma = (p.before.transport (p.map frequency)).sigma) ∧
    PhaseMatrix.Conserves (st.reference.form frequency)
      ((stateBehind st (passages frequency st es)).reference.form frequency)
      (mapAlong frequency (passages frequency st es)) := by
  induction es generalizing st with
  | nil => exact ⟨by simp [passages], PhaseMatrix.conserves_identity _ _⟩
  | cons e es ih =>
    rw [passages] at hmoves hexit ⊢
    obtain ⟨hmove, hmoves⟩ := List.forall_mem_cons.1 hmoves
    obtain ⟨hleave, hexit⟩ := List.forall_mem_cons.1 hexit
    obtain ⟨hone, hsigma, hgamma⟩ := Element.isConserving_advance hmove href hgamma hleave
    obtain ⟨hall, hrest⟩ := ih (e.isConsistent_advance frequency st href) hgamma hmoves hexit
    rw [stateBehind_cons]
    exact ⟨List.forall_mem_cons.2 ⟨⟨hone, hsigma⟩, hall⟩, hone.mul hrest⟩

/-- Phase space is conserved along every run of elements that move the beam, wherever it starts: by
each element, and from end to end. The map of each of them is the one that takes the second moments
behind it. The Lorentz factor of the first reference is asked for because a quotient by zero is zero
here; for doubles a factor of zero leaves a particle without velocity and so without kinematics. -/
theorem Machine.journey_isConserving (m : Machine ℝ) (o : Overrides ℝ) (spans : List Span)
    (hcut : m.journey (m.freshState o) spans = front ++ run ++ back)
    (hmoves : ∀ p ∈ run, p.element.movesBeam)
    (hgamma : (stateBehind (m.freshState o) front).reference.gamma ≠ 0)
    (hexit : ∀ p ∈ run, p.accelerates m.frequency →
      0 < p.behind.reference.beta * p.behind.reference.gamma) :
    (∀ p ∈ run, p.IsConserving m.frequency ∧
      p.behind.sigma = (p.before.transport (p.map m.frequency)).sigma) ∧
    (mapAlong m.frequency run).transpose *
      (stateBehind (m.freshState o) (front ++ run)).reference.form m.frequency *
        mapAlong m.frequency run =
      (stateBehind (m.freshState o) front).reference.form m.frequency := by
  rw [List.append_assoc] at hcut
  have href : (stateBehind (m.freshState o) front).reference.IsConsistent :=
    stateBehind_induction (P := fun st => st.reference.IsConsistent)
      (isConsistent_freshState m o) (fun e _ st => e.isConsistent_advance m.frequency st) hcut
  rw [journey_eq_passages] at hcut
  obtain ⟨xs, ys, -, rfl, hback⟩ := passages_eq_append hcut
  obtain ⟨zs, -, -, rfl, -⟩ := passages_eq_append hback.symm
  rw [stateBehind_append]
  exact passages_isConserving href hgamma hmoves hexit

theorem Particle.velocity_pos {restEnergy kineticEnergy : ℝ} (hrest : 0 < restEnergy)
    (hkinetic : 0 < kineticEnergy) : 0 < (velocity restEnergy kineticEnergy).1 ∧
      0 < (velocity restEnergy kineticEnergy).2 := by
  have hgamma : 1 < (restEnergy + kineticEnergy) / restEnergy := by
    rw [one_lt_div hrest]
    linarith
  have hsquare : 0 < 1 - 1 / ((restEnergy + kineticEnergy) / restEnergy *
      ((restEnergy + kineticEnergy) / restEnergy)) := by
    rw [sub_pos, div_lt_one (by positivity)]
    nlinarith
  have hzero : isZero restEnergy = false := (isZero_eq_false_real _).2 hrest.ne'
  simp only [velocity, hzero, if_neg Bool.false_ne_true, one_real, sqrt_real]
  rw [if_pos ((isPositive_real _).2 hsquare)]
  exact ⟨one_pos.trans hgamma, Real.sqrt_pos.2 hsquare⟩

/-- A source, and behind it a bend and a cavity on its crest. -/
noncomputable def bentCell : Machine ℝ where
  name := "cell"
  frequency := 1
  elements := [
    ⟨"s", 0, 0, [], .source { charge := 1, restEnergy := 1, kineticEnergy := 1 }⟩,
    ⟨"b", 1, 1, [], .bend ⟨1, 0, 0, 0⟩⟩,
    ⟨"c", 2, 1, [], .cavity ⟨1, 0, 1, 1⟩⟩]

theorem bentCell_isConserving :
    let fresh := bentCell.freshState {}
    let front := (bentCell.journey fresh [{}]).take 1
    let run := (bentCell.journey fresh [{}]).drop 1
    run.length = 2 ∧ (mapAlong 1 run).transpose *
      (stateBehind fresh (front ++ run)).reference.form 1 * mapAlong 1 run =
        (stateBehind fresh front).reference.form 1 := by
  intro fresh front run
  have hcut : bentCell.journey fresh [{}] = front ++ run ++ [] := by
    rw [List.append_nil, List.take_append_drop]
  have hunit := Particle.velocity_pos one_pos one_pos
  refine ⟨rfl, (Machine.journey_isConserving bentCell {} [{}] hcut ?_ hunit.1.ne' ?_).2⟩
  · exact List.forall_mem_cons.2 ⟨rfl, List.forall_mem_cons.2
      ⟨rfl, fun _ hp => absurd hp List.not_mem_nil⟩⟩
  · refine List.forall_mem_cons.2 ⟨fun _ => mul_pos hunit.2 hunit.1,
      List.forall_mem_cons.2 ⟨fun haccelerates => ?_, fun _ hp => absurd hp List.not_mem_nil⟩⟩
    have hexit : 0 < 1 + 1 * (1 * 1 * 1) * Real.cos (0 * (Real.pi / 180)) := by
      simp
    have hmomentum := Particle.velocity_pos one_pos hexit
    obtain ⟨hgamma, hbeta⟩ := Prod.mk.inj (Cavity.velocity_advance
      (e := ⟨"c", 2, 1, [], .cavity ⟨1, 0, 1, 1⟩⟩) rfl (Bool.and_eq_true_iff.1 haccelerates).2)
    rw [hgamma, hbeta]
    exact mul_pos hmomentum.2 hmomentum.1

end BeamEnvelope
