import BeamEnvelope.Proofs.Machine.Steps
import BeamEnvelope.Proofs.Optics.AlikeMoments

/-!
# Beams that agree

The phase and the energy of the real particle are read by accelerating cavities only. Beams that
agree in all else therefore agree in all else behind any other element, and behind an element that
moves or seeds the beam they agree in phase and energy of the real particle too. Beams that agree
in everything do so behind every element.
-/

namespace BeamEnvelope

open Scalar

variable {K : Type} [Scalar K]

/-- Particles of one kind at one velocity and of one `betaGamma`. -/
structure Particle.SameMotion (p q : Particle K) : Prop extends p.Agree q where
  betaGamma : p.betaGamma = q.betaGamma

namespace State

/-- Beams that agree in all but where the real particle is, up to the signs of zeros. -/
structure Resembles (st st' : State K) : Prop extends st.AlikeMoments st' where
  real : st.real.SameMotion st'.real
  reference : st.reference.SameMotion st'.reference
  phase : Alike st.reference.phase st'.reference.phase

/-- Beams that agree also in that. -/
structure Matches (st st' : State K) : Prop extends st.Resembles st' where
  realPhase : Alike st.real.phase st'.real.phase
  realEnergy : Alike st.real.centroidEnergy st'.real.centroidEnergy

end State

/-- Particles that compare equal in all but phase and centroid energy. -/
structure Particle.ComparesEqual (p q : Particle K) : Prop where
  charge : eq p.charge q.charge
  restEnergy : eq p.restEnergy q.restEnergy
  kineticEnergy : eq p.kineticEnergy q.kineticEnergy
  totalEnergy : eq p.totalEnergy q.totalEnergy
  gamma : eq p.gamma q.gamma
  beta : eq p.beta q.beta
  betaGamma : eq p.betaGamma q.betaGamma

/-- Beams that compare equal in all but where the real particle is. -/
structure State.ComparesEqual (st st' : State K) : Prop where
  sigma (i j : Axis) : eq (st.sigma i j) (st'.sigma i j)
  centroid (i : Axis) : eq (st.centroid i) (st'.centroid i)
  real : st.real.ComparesEqual st'.real
  reference : st.reference.ComparesEqual st'.reference
  phase : eq st.reference.phase st'.reference.phase

/-- What a beam meets before its real particle is put anew does not accelerate it. -/
def Realigns (frequency : K) (reference : Particle K) (es : List (Element K)) : Prop :=
  ∀ e, es.find? (fun e => e.type != .generic) = some e → e.type = .cavity →
    Kinematics.ofReference? reference frequency = none

namespace Particle.SameMotion

variable {p q : Particle K}

omit [Scalar K] in
theorem refl (p : Particle K) : p.SameMotion p := ⟨⟨rfl, rfl, rfl, rfl, rfl, rfl⟩, rfl⟩

omit [Scalar K] in
theorem eq_with (h : p.SameMotion q) :
    q = { p with phase := q.phase, centroidEnergy := q.centroidEnergy } := by
  obtain ⟨⟨hcharge, hrest, hkinetic, htotal, hgamma, hbeta⟩, hproduct⟩ := h
  rw [hcharge, hrest, hkinetic, htotal, hgamma, hbeta, hproduct]

omit [Scalar K] in
/-- Particles may be put anywhere. -/
theorem placed (h : p.SameMotion q) (phase centroidEnergy phase' centroidEnergy' : K) :
    Particle.SameMotion { p with phase, centroidEnergy }
      { q with phase := phase', centroidEnergy := centroidEnergy' } := by
  rw [h.eq_with]
  exact ⟨⟨rfl, rfl, rfl, rfl, rfl, rfl⟩, rfl⟩

theorem update (h : p.SameMotion q) : p.update.SameMotion q.update := by
  rw [h.eq_with]
  exact ⟨⟨rfl, rfl, rfl, rfl, rfl, rfl⟩, rfl⟩

theorem ofReference?_eq (h : p.SameMotion q) (frequency : K) :
    Kinematics.ofReference? p frequency = Kinematics.ofReference? q frequency := by
  rw [h.eq_with]
  rfl

/-- No map depends on the phase of the reference. -/
theorem transferMap_eq (h : p.SameMotion q) (e : Element K) (frequency : K) :
    e.transferMap p frequency = e.transferMap q frequency := by
  rw [h.eq_with]
  rfl

end Particle.SameMotion

variable [SignedZeros K] {frequency length : K} {st st' : State K} {e : Element K}

/-- Real particles that are aligned anew agree in phase and energy as well. -/
theorem State.Resembles.alignReal (h : st.Resembles st') : st.alignReal.Matches st'.alignReal where
  sigma := h.sigma
  centroid := h.centroid
  real := h.real.update.placed _ _ _ _
  reference := h.reference
  phase := h.phase
  realPhase := h.phase.add (h.centroid Axis.s)
  realEnergy := by
    change Alike (st.real.update.kineticEnergy + _) (st'.real.update.kineticEnergy + _)
    rw [h.real.update.kineticEnergy]
    exact (Alike.refl _).add ((h.centroid Axis.ps).mul (.refl _))

theorem State.Resembles.transport (h : st.Resembles st') (r : PhaseMatrix K) :
    (st.transport r).Resembles (st'.transport r) where
  toAlikeMoments := h.toAlikeMoments.transport r
  real := h.real
  reference := h.reference
  phase := h.phase

theorem State.Matches.transport (h : st.Matches st') (r : PhaseMatrix K) :
    (st.transport r).Matches (st'.transport r) where
  toResembles := h.toResembles.transport r
  realPhase := h.realPhase
  realEnergy := h.realEnergy

theorem Particle.SameMotion.coast {p q : Particle K} (h : p.SameMotion q)
    (hphase : Alike p.phase q.phase) (length frequency : K) :
    (p.coast length frequency).SameMotion (q.coast length frequency) ∧
      Alike (p.coast length frequency).phase (q.coast length frequency).phase := by
  rw [h.eq_with]
  exact ⟨⟨⟨rfl, rfl, rfl, rfl, rfl, rfl⟩, rfl⟩, hphase.add (.refl _)⟩

theorem State.Resembles.coast (h : st.Resembles st') (r : PhaseMatrix K) (length frequency : K) :
    (st.coast r length frequency).Matches (st'.coast r length frequency) := by
  obtain ⟨hsigma, hcentroid⟩ := h.toAlikeMoments.transport r
  obtain ⟨hreference, hphase⟩ := h.reference.coast h.phase length frequency
  exact State.Resembles.alignReal ⟨⟨hsigma, hcentroid⟩, h.real, hreference, hphase⟩

omit [SignedZeros K] in
theorem State.Resembles.seed (h : st.Resembles st') (s : Seed K) :
    (st.seed s).Matches (st'.seed s) where
  sigma := by
    change ∀ i j, Alike ((s.sigma.getD st.sigma) i j) ((s.sigma.getD st'.sigma) i j)
    cases s.sigma with
    | none => exact h.sigma
    | some a => exact fun i j => .refl _
  centroid := by
    change ∀ i, Alike ((s.centroid.getD st.centroid) i) ((s.centroid.getD st'.centroid) i)
    cases s.centroid with
    | none => exact h.centroid
    | some a => exact fun i => .refl _
  real := .refl _
  reference := .refl _
  phase := .refl _
  realPhase := .refl _
  realEnergy := .refl _

section Cavity

variable (c : Cavity K) (length frequency : K)

omit [SignedZeros K] in
/-- What a cavity does to the reference depends on its phase in the phases only. -/
theorem Particle.SameMotion.crossing_eq {p q : Particle K} (h : p.SameMotion q) :
    c.crossing q length frequency = { c.crossing p length frequency with
      gapPhase := (c.crossing q length frequency).gapPhase
      exitPhase := (c.crossing q length frequency).exitPhase } := by
  rw [h.eq_with]
  rfl

theorem Particle.SameMotion.alike_exitPhase {p q : Particle K} (h : p.SameMotion q)
    (hphase : Alike p.phase q.phase) :
    Alike (c.crossing p length frequency).exitPhase (c.crossing q length frequency).exitPhase := by
  rw [h.eq_with]
  exact (hphase.add (.refl _)).add (.refl _)

/-- Particles that enter a cavity alike leave it alike. -/
theorem Cavity.alike_follow_follow (h : st.Matches st')
    (hrest : isPositive st.real.restEnergy = true) :
    Alike (c.follow st.real (c.crossing st.reference length frequency) length frequency).1
      (c.follow st'.real (c.crossing st'.reference length frequency) length frequency).1 ∧
    Alike (c.follow st.real (c.crossing st.reference length frequency) length frequency).2
      (c.follow st'.real (c.crossing st'.reference length frequency) length frequency).2 := by
  have hmiddle := h.realPhase.add (.refl (Particle.phaseAdvance (length / 2.0)
    (Particle.velocity st.real.restEnergy st.real.centroidEnergy).2 frequency))
  have hgap := h.phase.add
    (.refl (Particle.phaseAdvance (length / 2.0) st.reference.beta frequency))
  have harrival := (Alike.refl (c.phase * degree)).add
    (.mul (.refl (c.frequency / frequency)) (hmiddle.sub hgap))
  have henergy := h.realEnergy.add
    (.mul (.refl (st.real.charge * (c.scale * c.gradient * length))) harrival.cos)
  simp only [follow, crossing, ← h.real.charge, ← h.real.restEnergy, ← h.reference.beta,
    ← h.realEnergy.velocity_eq hrest]
  rw [← henergy.velocity_eq hrest]
  exact ⟨hmiddle.add (.refl _), henergy⟩

theorem Cavity.alike_centroid (h : st.Matches st') {v v' : PhaseVector K}
    (hv : ∀ i, Alike (v i) (v' i)) (i : Axis) :
    Alike (c.centroid st (c.crossing st.reference length frequency) v length frequency i)
      (c.centroid st' (c.crossing st'.reference length frequency) v' length frequency i) := by
  rw [centroid, centroid, ← h.real.restEnergy]
  split_ifs with hrest
  · obtain ⟨hphase, henergy⟩ := c.alike_follow_follow length frequency h hrest
    have hexit : (c.crossing st'.reference length frequency).exitEnergy =
        (c.crossing st.reference length frequency).exitEnergy := by
      rw [h.reference.crossing_eq c]
    simp only [PhaseVector.set_apply]
    split_ifs
    · rw [hexit]
      exact (henergy.sub (.refl _)).div _
    · exact hphase.sub (h.reference.alike_exitPhase c length frequency h.phase)
    · exact hv i
  · exact hv i

theorem State.Matches.accelerate (h : st.Matches st') (kin : Kinematics K) :
    (c.accelerate st kin length frequency).Matches (c.accelerate st' kin length frequency) := by
  have hmap : c.map st'.reference kin length frequency =
      c.map st.reference kin length frequency := by
    rw [h.reference.eq_with]
    rfl
  obtain ⟨hsigma, hcentroid⟩ :=
    h.toAlikeMoments.transport (c.map st.reference kin length frequency)
  unfold Cavity.accelerate
  rw [hmap]
  refine State.Resembles.alignReal ⟨⟨hsigma, ?_⟩, ?_, ?_, ?_⟩
  · exact c.alike_centroid length frequency h hcentroid
  · rw [h.reference.eq_with, h.real.eq_with]
    exact ⟨⟨rfl, rfl, rfl, rfl, rfl, rfl⟩, rfl⟩
  · rw [h.reference.eq_with]
    exact ⟨⟨rfl, rfl, rfl, rfl, rfl, rfl⟩, rfl⟩
  · exact h.reference.alike_exitPhase c length frequency h.phase

end Cavity

omit [SignedZeros K] in
theorem State.Resembles.moved (h : st.Resembles st') (x x' : K) :
    State.Resembles { st with position := x } { st' with position := x' } :=
  ⟨⟨h.sigma, h.centroid⟩, h.real, h.reference, h.phase⟩

omit [SignedZeros K] in
theorem State.Matches.moved (h : st.Matches st') (x x' : K) :
    State.Matches { st with position := x } { st' with position := x' } :=
  ⟨h.toResembles.moved x x', h.realPhase, h.realEnergy⟩

/-- A generic element leaves the particles alone. -/
theorem State.Resembles.advance_generic (h : st.Resembles st') (he : e.type = .generic)
    (frequency : K) :
    (e.advance frequency st).Resembles (e.advance frequency st') ∧
      (e.advance frequency st).reference = st.reference := by
  have haction : ∃ r, e.action = .generic r := by
    rw [Element.type] at he
    cases haction : e.action with
    | generic r => exact ⟨r, rfl⟩
    | _ => simp [haction, Action.type] at he
  obtain ⟨r, haction⟩ := haction
  constructor
  · rw [Element.advance, Element.advance, Element.act, Element.act, haction]
    exact (h.transport r).moved _ _
  · rw [Element.advance, Element.act, haction]
    rfl

/-- Every other element puts the real particle anew, but for a cavity that accelerates. -/
theorem State.Resembles.advance (h : st.Resembles st') (he : e.type ≠ .generic)
    (hcavity : e.type = .cavity → Kinematics.ofReference? st.reference frequency = none) :
    (e.advance frequency st).Matches (e.advance frequency st') := by
  suffices hact : (e.act frequency st).Matches (e.act frequency st') from hact.moved _ _
  have hkin := h.reference.ofReference?_eq frequency
  rw [Element.act, Element.act, ← h.reference.transferMap_eq e frequency, ← hkin]
  cases haction : e.action with
  | source s => exact h.seed s
  | generic r => simp [Element.type, haction, Action.type] at he
  | cavity c =>
    rw [hcavity (by simp [Element.type, haction, Action.type])]
    exact h.coast _ _ _
  | marker | drift | bend b | quadrupole s | solenoid s => exact h.coast _ _ _

theorem State.Matches.advance (h : st.Matches st') (e : Element K) (frequency : K) :
    (e.advance frequency st).Matches (e.advance frequency st') := by
  suffices hact : (e.act frequency st).Matches (e.act frequency st') from hact.moved _ _
  have hkin := h.reference.ofReference?_eq frequency
  rw [Element.act, Element.act, ← h.reference.transferMap_eq e frequency, ← hkin]
  cases haction : e.action with
  | source s => exact h.seed s
  | generic r => exact h.transport r
  | cavity c =>
    cases Kinematics.ofReference? st.reference frequency with
    | some kin => exact h.accelerate c e.length frequency kin
    | none => exact h.coast _ _ _
  | marker | drift | bend b | quadrupole s | solenoid s => exact h.coast _ _ _

theorem State.Matches.foldl (h : st.Matches st') (es : List (Element K)) :
    (es.foldl (fun st e => e.advance frequency st) st).Matches
      (es.foldl (fun st e => e.advance frequency st) st') := by
  induction es generalizing st st' with
  | nil => exact h
  | cons e es ih => exact ih (h.advance e frequency)

theorem State.Resembles.foldl (h : st.Resembles st') {es : List (Element K)}
    (hes : Realigns frequency st.reference es) :
    (es.foldl (fun st e => e.advance frequency st) st).Resembles
      (es.foldl (fun st e => e.advance frequency st) st') := by
  induction es generalizing st st' with
  | nil => exact h
  | cons e es ih =>
    by_cases he : e.type = .generic
    · obtain ⟨hnext, hreference⟩ := h.advance_generic he frequency
      refine ih hnext ?_
      rw [hreference]
      exact fun f hf => hes f (by rw [List.find?_cons, he]; exact hf)
    · have hfirst : (e :: es).find? (fun e => e.type != .generic) = some e := by simp [he]
      exact ((h.advance he (hes e hfirst)).foldl es).toResembles

omit [SignedZeros K] in
theorem Particle.SameMotion.comparesEqual {p q : Particle K} (h : p.SameMotion q)
    (hnumber : ∀ a ∈ p.numbers, isNaN a = false) : p.ComparesEqual q := by
  have hself (a : K) (ha : a ∈ p.numbers) : eq a a := by simpa [isNaN] using hnumber a ha
  rw [h.eq_with]
  constructor <;> exact hself _ (by simp [Particle.numbers])

theorem State.Resembles.comparesEqual (h : st.Resembles st') (hnumber : areNumbers st.numbers) :
    st.ComparesEqual st' where
  sigma i j := (h.sigma i j).eq (State.isNaN_sigma hnumber i j)
  centroid i :=
    (h.centroid i).eq (State.isNaN_centroid (State.areNumbers_centroidNumbers hnumber) i)
  real := h.real.comparesEqual fun _ => State.isNaN_real (State.areNumbers_centroidNumbers hnumber)
  reference := h.reference.comparesEqual fun _ => State.isNaN_reference hnumber
  phase := h.phase.eq (State.isNaN_reference hnumber (by simp [Particle.numbers]))

end BeamEnvelope
