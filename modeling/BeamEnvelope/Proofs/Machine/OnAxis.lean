import BeamEnvelope.Proofs.Machine.Steps
import BeamEnvelope.Proofs.Optics.AlikeMoments
import BeamEnvelope.Proofs.Optics.OnAxis

/-!
# Beams on the axis stay with their reference

A beam without offsets has none behind any element that is not generic, and its particle stays at
the phase and the energy of the reference. Through a cavity the two are moved by different rules:
the reference gains its energy at the synchronous phase, the particle at the phase at which it
arrives. They agree since both tracks enter with one velocity and one phase, up to the sign of zero.
-/

namespace BeamEnvelope

open Scalar

variable {K : Type} [Scalar K]

namespace State

/-- The beam has no offsets, and its particle is the reference up to the signs of zeros. -/
structure IsOnReference (st : State K) : Prop where
  centroid : st.centroid.IsOnAxis
  phase : Alike st.real.phase st.reference.phase
  centroidEnergy : Alike st.real.centroidEnergy st.reference.centroidEnergy

end State

namespace Passage

/-- Behind the passage nothing but zero separates the beam from its reference, and the rule that
moves the real particle through a cavity gives what the rule for the reference gives. -/
structure StaysOnReference (frequency : K) (p : Passage K) : Prop where
  centroid (i : Axis) : i ≠ Axis.one → isZero (p.behind.centroid i)
  phase : eq p.behind.real.phase p.behind.reference.phase
  centroidEnergy : eq p.behind.real.centroidEnergy p.behind.reference.centroidEnergy
  follow (c : Cavity K) : p.element.action = .cavity c → p.accelerates frequency →
    let crossing := c.crossing p.before.reference p.element.length frequency
    let followed := c.follow p.before.real crossing p.element.length frequency
    eq followed.1 crossing.exitPhase ∧ eq followed.2 crossing.exitEnergy

end Passage

namespace Element

/-- Whether a beam on the axis stays there: the element is not generic, and what it seeds has no
offsets. -/
def keepsAxis (e : Element K) : Bool :=
  e.type != .generic && (e.seed?.bind Seed.centroid).all fun v => v.IsOnAxis

theorem keepsAxis_iff {e : Element K} : e.keepsAxis ↔
    e.type ≠ .generic ∧ ∀ s v, e.seed? = some s → s.centroid = some v → v.IsOnAxis := by
  simp only [keepsAxis, Bool.and_eq_true, bne_iff_ne, Option.all_eq_true, decide_eq_true_eq,
    Option.bind_eq_some_iff]
  exact and_congr_right fun _ => ⟨fun h s v hs hv => h v ⟨s, hs, hv⟩,
    fun h v ⟨s, hs, hv⟩ => h s v hs hv⟩

end Element

variable [SignedZeros K] {frequency length : K} {history : List (Passage K)} {st : State K}
  {e : Element K}

theorem Element.keepsAxis_transferMap (he : e.type ≠ .generic) (p : Particle K) (frequency : K) :
    (e.transferMap p frequency).KeepsAxis := by
  rw [transferMap]
  cases haction : e.action with
  | marker | source s => exact PhaseMatrix.keepsAxis_identity
  | drift => exact PhaseMatrix.keepsAxis_drift _ _
  | bend b => exact PhaseMatrix.keepsAxis_bend _ _ _ _ _ _
  | quadrupole s => exact PhaseMatrix.keepsAxis_quadrupole _ _ _
  | solenoid s => exact PhaseMatrix.keepsAxis_solenoid _ _ _
  | cavity c =>
    cases Kinematics.ofReference? p frequency with
    | none => exact PhaseMatrix.keepsAxis_drift _ _
    | some kin =>
      exact ((PhaseMatrix.keepsAxis_drift _ _).mul (PhaseMatrix.keepsAxis_gap _ _ _)).mul
        (PhaseMatrix.keepsAxis_drift _ _)
  | generic r => simp [type, haction, Action.type] at he

/-- What a particle gains at a phase that is a void offset away is what it gains without. -/
theorem alike_gain {energy energy' offset : K} (voltage phase : K)
    (h : Alike energy energy') (hoffset : IsVoid offset)
    (hnumber : isNaN (energy + voltage * cos (phase + offset)) = false) :
    Alike (energy + voltage * cos (phase + offset)) (energy' + voltage * cos phase) := by
  have hphase : isNaN (phase + offset) = false := by
    refine Bool.eq_false_iff.2 fun hnan => ?_
    have hgain := SignedZeros.isNaN_mul_right voltage (SignedZeros.isNaN_cos hnan)
    rw [SignedZeros.isNaN_add_right energy hgain] at hnumber
    cases hnumber
  rw [(hoffset.add_alike hphase).cos_eq]
  exact h.add (.refl _)

/-- The particle of a beam on its reference gains what the reference gains, if that is a number. -/
theorem Cavity.alike_follow (c : Cavity K) (hst : Coherent frequency history st)
    (hon : st.IsOnReference) (hrest : isPositive st.real.restEnergy = true)
    (henergy : isNaN (c.follow st.real (c.crossing st.reference length frequency)
      length frequency).2 = false) :
    Alike (c.follow st.real (c.crossing st.reference length frequency) length frequency).1
      (c.crossing st.reference length frequency).exitPhase ∧
    Alike (c.follow st.real (c.crossing st.reference length frequency) length frequency).2
      (c.crossing st.reference length frequency).exitEnergy := by
  have hkinetic : Alike st.real.centroidEnergy st.reference.kineticEnergy := by
    rw [← hst.reference_centroidEnergy]
    exact hon.centroidEnergy
  have hbeta : (Particle.velocity st.real.restEnergy st.real.centroidEnergy).2 =
      st.reference.beta := by
    rw [hkinetic.velocity_eq hrest, hst.agree.restEnergy, ← hst.reference.velocity]
  have hmiddle := hon.phase.add
    (.refl (Particle.phaseAdvance (length / 2.0) st.reference.beta frequency))
  simp only [follow, crossing, hbeta, hst.agree.charge] at henergy ⊢
  have hexit := alike_gain _ _ hkinetic (hmiddle.isVoid_sub.mul_left _) henergy
  rw [hexit.velocity_eq hrest, hst.agree.restEnergy]
  exact ⟨hmiddle.add (.refl _), hexit⟩

/-- A map without shifts leaves a coordinate zero, if it is a number at all. -/
theorem State.isZero_transport {r : PhaseMatrix K} (hr : r.KeepsAxis)
    (haxis : st.centroid.IsOnAxis) {i : Axis} (hi : i ≠ Axis.one)
    (hnumber : isNaN ((st.transport r).centroid i) = false) :
    isZero ((st.transport r).centroid i) = true := by
  have hvoid := hr.isVoid_apply haxis hi
  rw [← PhaseVector.set_of_ne _ 1.0 hi] at hvoid
  exact hvoid.zero_of_number hnumber

omit [SignedZeros K] in
theorem Coherent.isPositive_restEnergy {kin : Kinematics K} (hst : Coherent frequency history st)
    (hkin : Kinematics.ofReference? st.reference frequency = some kin) :
    isPositive st.real.restEnergy = true := by
  rw [hst.agree.restEnergy]
  exact (Bool.and_eq_true_iff.1 (Kinematics.ofReference?_eq_some hkin).1).1

omit [SignedZeros K] in
/-- The offsets behind a cavity are the deviations of the particle that is followed through it. -/
theorem Cavity.centroid_accelerate (c : Cavity K) (kin : Kinematics K)
    (hrest : isPositive st.real.restEnergy = true) :
    (c.accelerate st kin length frequency).centroid =
      (((st.transport (c.map st.reference kin length frequency)).centroid.set Axis.s
        ((c.follow st.real (c.crossing st.reference length frequency) length frequency).1 -
          (c.crossing st.reference length frequency).exitPhase)).set Axis.ps
        (((c.follow st.real (c.crossing st.reference length frequency) length frequency).2 -
          (c.crossing st.reference length frequency).exitEnergy) / 1e6)) := by
  change c.centroid st _ _ length frequency = _
  rw [Cavity.centroid, if_pos hrest]

theorem Cavity.isNumber_follow {c : Cavity K} {kin : Kinematics K}
    (hrest : isPositive st.real.restEnergy = true)
    (hnumber : ∀ i, isNaN ((c.accelerate st kin length frequency).centroid i) = false) :
    isNaN (c.follow st.real (c.crossing st.reference length frequency)
      length frequency).1 = false ∧
    isNaN (c.follow st.real (c.crossing st.reference length frequency)
      length frequency).2 = false := by
  simp only [c.centroid_accelerate kin hrest, PhaseVector.set_apply] at hnumber
  constructor <;> refine Bool.eq_false_iff.2 fun hnan => ?_
  · have hoffset := hnumber Axis.s
    rw [if_neg (by decide), if_pos rfl, SignedZeros.isNaN_sub_left _ hnan] at hoffset
    cases hoffset
  · have hoffset := hnumber Axis.ps
    rw [if_pos rfl, SignedZeros.isNaN_div_left _ (SignedZeros.isNaN_sub_left _ hnan)] at hoffset
    cases hoffset

/-- A cavity keeps a beam on the axis, since the particle of the beam gains what the reference
gains. -/
theorem Cavity.isOnAxis_accelerate {c : Cavity K} {kin : Kinematics K} (he : e.action = .cavity c)
    (hst : Coherent frequency history st) (hon : st.IsOnReference)
    (hkin : Kinematics.ofReference? st.reference frequency = some kin)
    (hnumber : ∀ i, isNaN ((c.accelerate st kin e.length frequency).centroid i) = false) :
    (c.accelerate st kin e.length frequency).centroid.IsOnAxis := by
  have hrest := hst.isPositive_restEnergy hkin
  have hmap : (c.map st.reference kin e.length frequency).KeepsAxis := by
    have hkeeps := e.keepsAxis_transferMap (by simp [Element.type, he, Action.type]) st.reference
      frequency
    rw [Element.transferMap, he] at hkeeps
    simpa only [hkin] using hkeeps
  obtain ⟨hphase, hgain⟩ := c.alike_follow hst hon hrest (isNumber_follow hrest hnumber).2
  intro i hi
  have hentry := hnumber i
  rw [c.centroid_accelerate kin hrest, PhaseVector.set_apply, PhaseVector.set_apply] at hentry ⊢
  split_ifs at hentry ⊢ with hps hs
  · exact (hgain.isVoid_sub.div _).zero_of_number hentry
  · exact hphase.isVoid_sub.zero_of_number hentry
  · exact State.isZero_transport hmap hon.centroid hi hentry

/-- Particles that are aligned with a beam on the axis are where the reference is. -/
theorem Coherent.isOnReference (h : Coherent frequency history st) (haligned : st.IsAligned)
    (haxis : st.centroid.IsOnAxis) (hnumber : areNumbers st.centroidNumbers) :
    st.IsOnReference where
  centroid := haxis
  phase := by
    rw [haligned.phase]
    exact SignedZeros.add_zero _ (haxis Axis.s (by decide))
  centroidEnergy := by
    have hoffset : IsVoid (st.centroid Axis.ps * 1e6) :=
      SignedZeros.isVoid_zero_mul _ (haxis Axis.ps (by decide))
    have henergy : isNaN st.real.centroidEnergy = false :=
      State.isNaN_real hnumber (by simp [Particle.numbers])
    rw [haligned.centroidEnergy] at henergy ⊢
    rw [h.reference_centroidEnergy, ← h.agree.kineticEnergy]
    exact hoffset.add_alike henergy

/-- One element keeps a beam on its reference. -/
theorem State.IsOnReference.advance (hon : st.IsOnReference) (hst : Coherent frequency history st)
    (hseed : ∀ s, e.seed? = some s → s.IsHomogeneous) (he : e.keepsAxis)
    (hnumber : areNumbers (e.advance frequency st).centroidNumbers) :
    (e.advance frequency st).IsOnReference := by
  obtain ⟨hnongeneric, hseeded⟩ := Element.keepsAxis_iff.1 he
  have hbehind := hst.advance hseed
  have haligned := hbehind.aligned _ List.getLast?_concat
  have hentries := State.isNaN_centroid hnumber
  have hacts := e.acts frequency st
  -- an element that moves the beam leaves it aligned
  suffices haxis : (e.advance frequency st).IsOnReference ∨ e.movesBeam = true ∧
      (e.advance frequency st).centroid.IsOnAxis from
    haxis.elim id fun h => hbehind.isOnReference (haligned h.1) h.2 hnumber
  rw [Element.advance] at hentries ⊢
  generalize e.act frequency st = next at hacts hentries ⊢
  cases hacts with
  | seed s haction =>
    refine .inl ⟨?_, .refl _, .refl _⟩
    change (s.centroid.getD st.centroid).IsOnAxis
    cases hv : s.centroid with
    | none => exact hon.centroid
    | some v => exact hseeded s v (by rw [Element.seed?, haction]) hv
  | transport r haction => exact absurd (congrArg Action.type haction) hnongeneric
  | accelerate c kin haction hkin =>
    refine .inr ⟨?_, Cavity.isOnAxis_accelerate haction hst hon hkin hentries⟩
    simp [Element.movesBeam, Element.type, haction, Action.type]
  | coast hmoves =>
    exact .inr ⟨hmoves, fun i hi => State.isZero_transport
      (e.keepsAxis_transferMap hnongeneric _ _) hon.centroid hi (hentries i)⟩

/-- What is alike compares equal. -/
theorem State.IsOnReference.staysOnReference (hon : st.IsOnReference)
    (hst : Coherent frequency history st) (hbehind : (e.advance frequency st).IsOnReference)
    (hnumber : areNumbers (e.advance frequency st).centroidNumbers) :
    Passage.StaysOnReference frequency ⟨e, st, e.advance frequency st⟩ := by
  have hentries := State.isNaN_centroid hnumber
  refine ⟨hbehind.centroid,
    hbehind.phase.eq (State.isNaN_real hnumber (by simp [Particle.numbers])),
    hbehind.centroidEnergy.eq (State.isNaN_real hnumber (by simp [Particle.numbers])), ?_⟩
  intro c haction haccelerates
  obtain ⟨-, haccelerates⟩ := Bool.and_eq_true_iff.1 haccelerates
  obtain ⟨kin, hkin⟩ := Option.isSome_iff_exists.1 haccelerates
  have hrest := hst.isPositive_restEnergy hkin
  have hcentroid : (e.advance frequency st).centroid =
      (c.accelerate st kin e.length frequency).centroid := by
    rw [Element.advance, Element.act, haction]
    simp only [hkin]
  rw [hcentroid] at hentries
  obtain ⟨hphase, henergy⟩ := Cavity.isNumber_follow hrest hentries
  obtain ⟨hphase', henergy'⟩ := c.alike_follow hst hon hrest henergy
  exact ⟨hphase'.eq hphase, henergy'.eq henergy⟩

theorem passages_stayOnReference {es : List (Element K)} (hst : Coherent frequency history st)
    (hon : st.IsOnReference) (hseeds : ∀ e ∈ es, ∀ s, e.seed? = some s → s.IsHomogeneous)
    (hes : ∀ e ∈ es, e.keepsAxis)
    (hnumbers : ∀ p ∈ passages frequency st es, areNumbers p.behind.centroidNumbers) :
    ∀ p ∈ passages frequency st es, p.StaysOnReference frequency := by
  induction es generalizing st history with
  | nil => simp [passages]
  | cons e es ih =>
    rw [passages] at hnumbers ⊢
    obtain ⟨he, hes⟩ := List.forall_mem_cons.1 hes
    obtain ⟨hseed, hseeds⟩ := List.forall_mem_cons.1 hseeds
    obtain ⟨hnumber, hnumbers⟩ := List.forall_mem_cons.1 hnumbers
    have hbehind := hon.advance hst hseed he hnumber
    exact List.forall_mem_cons.2 ⟨hon.staysOnReference hst hbehind hnumber,
      ih (hst.advance hseed) hbehind hseeds hes hnumbers⟩

omit [SignedZeros K] in
/-- A fresh beam has one particle. -/
theorem Machine.real_freshState (m : Machine K) (o : Overrides K) :
    (m.freshState o).real = (m.freshState o).reference := by
  have hseeded : ((m.elements.findSome? Element.seed?).elim .start
      State.start.seed : State K).real = ((m.elements.findSome? Element.seed?).elim .start
      State.start.seed : State K).reference := by
    cases m.elements.findSome? Element.seed? <;> rfl
  rw [freshState, State.override]
  split
  · rfl
  · exact hseeded

omit [SignedZeros K] in
theorem Machine.isOnReference_freshState {m : Machine K} {o : Overrides K}
    (h : (m.freshState o).centroid.IsOnAxis) : (m.freshState o).IsOnReference := by
  refine ⟨h, ?_, ?_⟩ <;> rw [m.real_freshState o] <;> exact .refl _

/-- A beam of a built machine without generic elements that starts on the axis stays on its
reference behind every element, through whatever spans it is carried, as long as its numbers are
numbers. -/
theorem Machine.journey_staysOnReference (lib : Elementary) (hlib : lib.IsDocumented)
    {lattice : Lattice} {m : Machine Float} (h : ofLattice lattice = .ok m) (o : Overrides Float)
    (spans : List Span) :
    letI := lib.scalar
    (∀ e ∈ m.elements, e.keepsAxis) → (m.freshState o).centroid.IsOnAxis →
    (∀ p ∈ m.journey (m.freshState o) spans, areNumbers p.behind.centroidNumbers) →
    ∀ p ∈ m.journey (m.freshState o) spans, p.StaysOnReference m.frequency := by
  let _ := lib.scalar
  have := hlib.signedZeros
  intro helements haxis hnumbers
  have hseeds : ∀ e ∈ m.elements, ∀ s, e.seed? = some s → s.IsHomogeneous :=
    isHomogeneous_of_ofLattice h
  have hst := lib.coherent_freshState h o
  rw [journey_eq_passages] at hnumbers ⊢
  have hselected : ∀ e ∈ spans.flatMap fun span => span.select m.elements, e ∈ m.elements := by
    intro e he
    obtain ⟨span, -, hspan⟩ := List.mem_flatMap.1 he
    exact mem_elements_of_mem_select hspan
  exact passages_stayOnReference hst (isOnReference_freshState haxis)
    (fun e he => hseeds e (hselected e he)) (fun e he => helements e (hselected e he)) hnumbers

/-- A source on the axis, a drift and a cavity with a marker behind it. -/
def axisCell : Lattice where
  name := "cell"
  globals := .ofList [("sim_type", .text Machine.simulationType), ("IonEs", .scalar 931494000.0)]
  components := [
    ⟨"s", "source", .ofList [("IonZ", .scalar 0.5), ("IonEk", .scalar 500000.0),
      ("moment0", .vector [0.0, 0.0, -0.0, 0.0, 0.0, 0.0])]⟩,
    ⟨"d", "drift", .ofList [("L", .scalar 0.25)]⟩,
    ⟨"gap", "rfcavity", .ofList [("L", .scalar 0.5), ("f", .scalar 161e6)]⟩,
    ⟨"end", "marker", ∅⟩]

theorem axisCell_staysOnReference :
    letI := Elementary.atZero.scalar
    ∃ m, Machine.ofLattice axisCell = .ok m ∧
      let passages := m.journey (m.freshState {}) [{}]
      passages.length = 4 ∧ (passages.any fun p => p.accelerates m.frequency) ∧
      ∀ p ∈ passages, p.StaysOnReference m.frequency := by
  have h : Machine.ofLattice axisCell = .ok _ := rfl
  exact ⟨_, h, rfl, by decide +kernel, Machine.journey_staysOnReference .atZero
    Elementary.isDocumented_atZero h {} [{}] (by decide +kernel) (by decide +kernel)
    (by decide +kernel)⟩

end BeamEnvelope
