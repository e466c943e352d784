import BeamEnvelope.Proofs.Machine.Steps

/-!
# Magnets and cavities without a reference

A magnet given by its field needs the rigidity of the reference particle, and a cavity its
kinematics. Where the reference has no momentum they act as drifts of their length, with one warning
each, and nothing but a source gives it one. A reference without charge has a momentum but no
rigidity, so there the magnets alone act as drifts.
-/

namespace BeamEnvelope

open Scalar

section Drifts

variable {K : Type} [Scalar K] {frequency : K} {st : State K} {e : Element K}

def Element.isFieldMagnet (e : Element K) : Bool :=
  match e.action with
  | .quadrupole (.field _) | .solenoid (.field _) => true
  | _ => false

/-- The warning of an element that is a drift for an undefined reference. -/
def Element.fallback? (e : Element K) : Option Warning :=
  match e.action with
  | .quadrupole (.field _) | .solenoid (.field _) => some (.undefinedRigidity e.name)
  | .cavity _ => some (.cavityAsDrift e.name)
  | _ => none

/-- A drift in place of an element that needs a reference. -/
def Element.withoutReference (e : Element K) : Element K :=
  if e.fallback?.isSome then { e with action := .drift } else e

/-- The element does to the state what every drift of its length does. -/
def Element.IsDriftAt (e : Element K) (frequency : K) (st : State K) : Prop :=
  ∀ d : Element K, d.action = .drift → d.length = e.length →
    e.advance frequency st = d.advance frequency st

/-- A drift coasts through the map of its length. -/
theorem Element.isDriftAt_of_act (h : e.act frequency st = st.coast (.drift (e.length * 1e3)
    (Kinematics.ofReference? st.reference frequency)) e.length frequency) :
    e.IsDriftAt frequency st := by
  intro d hd hlength
  have hdrift : d.act frequency st = st.coast (.drift (d.length * 1e3)
      (Kinematics.ofReference? st.reference frequency)) d.length frequency := by
    rw [act, hd]
    simp only [transferMap, hd]
  rw [advance, advance, h, hdrift, hlength]

theorem Kinematics.ofReference?_eq_none {p : Particle K} (h : p.isDefined = false) :
    ofReference? p frequency = none := by
  simp [ofReference?, h]

theorem Particle.rigidity_of_undefined {p : Particle K} (h : p.isDefined = false) :
    p.rigidity = 0.0 := by
  simp [rigidity, h]

theorem Particle.rigidity_of_uncharged {p : Particle K} (h : isZero p.charge = true) :
    p.rigidity = 0.0 := by
  simp [rigidity, h]

/-- A cavity without kinematics. -/
theorem Element.isDriftAt_of_cavity {c : Cavity K} (he : e.action = .cavity c)
    (hkin : Kinematics.ofReference? st.reference frequency = none) :
    e.IsDriftAt frequency st := by
  apply isDriftAt_of_act
  rw [act, he]
  simp only [hkin, transferMap, he]

/-- The reference has no momentum, and its velocity is the one of its energies. -/
structure State.LacksReference (st : State K) : Prop where
  isUndefined : st.reference.isDefined = false
  isConsistent : st.reference.IsConsistent

/-- No element but a source gives the reference a momentum. -/
theorem State.LacksReference.isUndefined_act (h : st.LacksReference) (he : e.type ≠ .source) :
    (e.act frequency st).reference.isDefined = false := by
  have hacts := e.acts frequency st
  generalize e.act frequency st = next at hacts
  cases hacts with
  | seed s action => exact absurd (by rw [Element.type, action]; rfl) he
  | transport r action => exact h.isUndefined
  | accelerate c kin action kinematics =>
    rw [Kinematics.ofReference?_eq_none h.isUndefined] at kinematics
    cases kinematics
  | coast moves drifts =>
    -- renewing the velocity renews nothing
    have hcoast : (st.coast (e.transferMap st.reference frequency) e.length frequency).reference =
        st.reference.coast e.length frequency := rfl
    rw [hcoast, Particle.coast, h.isConsistent.updateVelocity_eq]
    exact h.isUndefined

theorem State.LacksReference.advance (h : st.LacksReference) (he : e.type ≠ .source) :
    (e.advance frequency st).LacksReference :=
  ⟨h.isUndefined_act he, e.isConsistent_advance frequency st h.isConsistent⟩

theorem State.LacksReference.foldl (h : st.LacksReference) {es : List (Element K)}
    (hes : ∀ e ∈ es, e.type ≠ .source) :
    (es.foldl (fun st e => e.advance frequency st) st).LacksReference :=
  List.foldlRecOn es _ h fun _ h e he => h.advance (hes e he)

end Drifts

theorem isZero_zero : isZero (0.0 : Float) = true := by decide +kernel

/-- A strength of zero is zero in the units of the maps. -/
theorem zero_div_square : (0.0 / (1e3 * 1e3) : Float) = 0.0 := by decide +kernel

theorem zero_div_thousand : (0.0 / 1e3 : Float) = 0.0 := by decide +kernel

/-- Nothing focuses without a strength, whichever sign its zero has. -/
theorem Plane.focusing_neg_zero (length : Float) :
    Plane.focusing (-0.0) length = .focusing 0.0 length := by
  have hpos : isPositive (0.0 : Float) = false := by decide +kernel
  have hneg : isNegative (0.0 : Float) = false := by decide +kernel
  have hpos' : isPositive (-0.0 : Float) = false := by decide +kernel
  have hneg' : isNegative (-0.0 : Float) = false := by decide +kernel
  simp [focusing, hpos, hneg, hpos', hneg']

theorem PhaseMatrix.quadrupole_zero (length : Float) (kin : Option (Kinematics Float)) :
    quadrupole length 0.0 kin = drift length kin := by
  rw [quadrupole, drift, Plane.focusing_neg_zero]

theorem PhaseMatrix.solenoid_zero (length : Float) (kin : Option (Kinematics Float)) :
    solenoid length 0.0 kin = drift length kin :=
  if_pos isZero_zero

variable {frequency : Float} {st : State Float} {e : Element Float}

theorem Strength.resolve_field {p : Particle Float} (h : p.rigidity = 0.0) (b divisor : Float) :
    (Strength.field b).resolve p divisor = 0.0 := by
  simp only [resolve, h]
  exact if_pos isZero_zero

/-- A field without a rigidity has no effect, and is reported. -/
theorem Element.isDriftAt_of_isFieldMagnet (he : e.isFieldMagnet = true)
    (hrigidity : st.reference.rigidity = 0.0) :
    e.IsDriftAt frequency st ∧
      e.warnings frequency st = [.undefinedRigidity e.name] := by
  have hunresolved (b : Float) : (Strength.field b).isUnresolved st.reference = true := by
    simp only [Strength.isUnresolved, hrigidity]
    exact isZero_zero
  cases haction : e.action with
  | quadrupole s =>
    cases s with
    | normalized k => simp [isFieldMagnet, haction] at he
    | field b =>
      refine ⟨isDriftAt_of_act ?_, by simp [warnings, haction, hunresolved]⟩
      simp only [act, transferMap, haction, Strength.resolve_field hrigidity,
        zero_div_square, PhaseMatrix.quadrupole_zero]
  | solenoid s =>
    cases s with
    | normalized k => simp [isFieldMagnet, haction] at he
    | field b =>
      refine ⟨isDriftAt_of_act ?_, by simp [warnings, haction, hunresolved]⟩
      simp only [act, transferMap, haction, Strength.resolve_field hrigidity,
        zero_div_thousand, PhaseMatrix.solenoid_zero]
  | marker | drift | bend b | cavity c | source s | generic r =>
    simp [isFieldMagnet, haction] at he

/-- Every element that needs a reference is a drift without one. -/
theorem Element.isDriftAt_of_fallback? (h : st.reference.isDefined = false)
    (he : e.fallback?.isSome = true) : e.IsDriftAt frequency st := by
  cases hmagnet : e.isFieldMagnet with
  | true => exact (isDriftAt_of_isFieldMagnet hmagnet (Particle.rigidity_of_undefined h)).1
  | false =>
    cases haction : e.action with
    | cavity c => exact isDriftAt_of_cavity haction (Kinematics.ofReference?_eq_none h)
    | quadrupole s | solenoid s => cases s <;> simp_all [fallback?, isFieldMagnet]
    | marker | drift | bend b | source s | generic r => simp [fallback?, haction] at he

theorem Element.warnings_of_undefined (h : st.reference.isDefined = false) :
    e.warnings frequency st = e.fallback?.toList := by
  have hrigidity := Particle.rigidity_of_undefined h
  cases haction : e.action with
  | cavity c => simp [warnings, fallback?, haction, Kinematics.ofReference?_eq_none h]
  | quadrupole s | solenoid s =>
    cases s with
    | normalized k => simp [warnings, fallback?, haction, Strength.isUnresolved]
    | field b =>
      have hmagnet : e.isFieldMagnet = true := by rw [isFieldMagnet, haction]
      rw [(isDriftAt_of_isFieldMagnet hmagnet hrigidity).2, fallback?, haction]
      rfl
  | marker | drift | bend b | source s | generic r => simp [warnings, fallback?, haction]

theorem Element.advance_withoutReference (h : st.reference.isDefined = false) :
    e.withoutReference.advance frequency st = e.advance frequency st := by
  rw [withoutReference]
  split
  · rename_i he
    exact (isDriftAt_of_fallback? h he { e with action := .drift } rfl rfl).symm
  · rfl

/-- A run without a source is a run through drifts. -/
theorem State.LacksReference.foldl_withoutReference (h : st.LacksReference)
    {es : List (Element Float)} (hes : ∀ e ∈ es, e.type ≠ .source) :
    (es.map Element.withoutReference).foldl (fun st e => e.advance frequency st) st =
      es.foldl (fun st e => e.advance frequency st) st := by
  induction es generalizing st with
  | nil => rfl
  | cons e es ih =>
    obtain ⟨he, hes⟩ := List.forall_mem_cons.1 hes
    rw [List.map_cons, List.foldl_cons, List.foldl_cons,
      Element.advance_withoutReference h.isUndefined, ih (h.advance he) hes]

/-- The warnings of a run without a source are those of its elements. -/
theorem State.LacksReference.warnings_passages (h : st.LacksReference)
    {es : List (Element Float)} (hes : ∀ e ∈ es, e.type ≠ .source) :
    ((passages frequency st es).flatMap fun p => p.element.warnings frequency p.before) =
      es.filterMap Element.fallback? := by
  induction es generalizing st with
  | nil => rfl
  | cons e es ih =>
    obtain ⟨he, hes⟩ := List.forall_mem_cons.1 hes
    rw [passages, List.flatMap_cons, ih (h.advance he) hes, List.filterMap_cons,
      Element.warnings_of_undefined h.isUndefined]
    cases e.fallback? <;> rfl

/-- What elements do to a state whose reference is of no use to them. -/
structure State.Degrades (frequency : Float) (st : State Float) : Prop where
  /-- A field magnet or a cavity is a drift for an undefined reference. -/
  drifts (h : st.reference.isDefined = false) (e : Element Float) :
    e.fallback?.isSome → e.IsDriftAt frequency st
  /-- It gives one warning, and no other element gives any. -/
  warnings (h : st.reference.isDefined = false) (e : Element Float) :
    e.warnings frequency st = e.fallback?.toList
  /-- The reference stays undefined up to the next source, and so a whole run leads through
  drifts. -/
  runs (h : st.reference.isDefined = false) (es : List (Element Float)) :
    (∀ e ∈ es, e.type ≠ .source) →
      (es.foldl (fun st e => e.advance frequency st) st).reference.isDefined = false ∧
      (es.map Element.withoutReference).foldl (fun st e => e.advance frequency st) st =
        es.foldl (fun st e => e.advance frequency st) st ∧
      ((passages frequency st es).flatMap fun p => p.element.warnings frequency p.before) =
        es.filterMap Element.fallback?
  /-- A field magnet is a drift for a defined reference without charge, too. -/
  uncharged (h : st.reference.isDefined = true) (hcharge : isZero st.reference.charge = true)
    (e : Element Float) : e.isFieldMagnet → e.IsDriftAt frequency st ∧
      e.warnings frequency st = [.undefinedRigidity e.name]

theorem State.degrades (h : st.reference.IsConsistent) : st.Degrades frequency where
  drifts hundefined _ he := Element.isDriftAt_of_fallback? hundefined he
  warnings hundefined _ := Element.warnings_of_undefined hundefined
  runs hundefined _ hes :=
    have hlacks : st.LacksReference := ⟨hundefined, h⟩
    ⟨(hlacks.foldl hes).isUndefined, hlacks.foldl_withoutReference hes,
      hlacks.warnings_passages hes⟩
  uncharged _ hcharge _ he :=
    Element.isDriftAt_of_isFieldMagnet he (Particle.rigidity_of_uncharged hcharge)

namespace Machine

/-- Wherever a beam has been carried to in a machine, elements that need a usable reference and have
none are drifts. -/
theorem journey_degrades (m : Machine Float) (o : Overrides Float) {spans : List Span}
    {front behind : List (Passage Float)}
    (hcut : m.journey (m.freshState o) spans = front ++ behind) :
    (stateBehind (m.freshState o) front).Degrades m.frequency :=
  have hrest : (Particle.rest : Particle Float).IsConsistent :=
    ⟨zero_add_zero.symm, velocity_zero.symm⟩
  State.degrades (stateBehind_induction (P := fun st => st.reference.IsConsistent)
    (hrest.freshState m o) (fun e _ st => e.isConsistent_advance m.frequency st) hcut)

/-- Field magnets and a cavity in a machine without a source. -/
def sourcelessCell : Lattice where
  name := "cell"
  globals := .ofList [("sim_type", .text simulationType)]
  components := [
    ⟨"q", "quadrupole", .ofList [("L", .scalar 0.25), ("B2", .scalar 3.5)]⟩,
    ⟨"s", "solenoid", .ofList [("L", .scalar 0.5), ("B", .scalar 1.5)]⟩,
    ⟨"k", "quadrupole", .ofList [("L", .scalar 0.25), ("K", .scalar 2.0)]⟩,
    ⟨"gap", "rfcavity", .ofList [("L", .scalar 0.5), ("f", .scalar 80.5e6)]⟩]

theorem sourcelessCell_degrades : ∃ m, ofLattice sourcelessCell = .ok m ∧
    let fresh := m.freshState {}
    let spans : List Span := [.between 0 1]
    fresh.reference.isDefined = false ∧
    m.elements.filterMap Element.fallback? =
      [.undefinedRigidity "q", .undefinedRigidity "s", .cavityAsDrift "gap"] ∧
    (stateBehind fresh (m.journey fresh spans)).Degrades m.frequency := by
  have h : ofLattice sourcelessCell = .ok _ := rfl
  refine ⟨_, h, ?_, rfl, ?_⟩
  · decide +kernel
  · exact journey_degrades _ {} (List.append_nil _).symm

end Machine

end BeamEnvelope
