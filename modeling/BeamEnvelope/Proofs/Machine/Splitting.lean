import BeamEnvelope.Proofs.Machine.Conservation
import BeamEnvelope.Proofs.Optics.Sections

/-!
# Split elements

Over the real numbers a drift, a quadrupole, a solenoid or a bend may be cut in two anywhere along
its length: the beam behind both parts is the beam behind the whole. No kinematics change on the
way, so the two maps are those of one reference particle, and both particles pass the same phase.
-/

namespace BeamEnvelope

open Scalar

variable {frequency l₁ l₂ : ℝ} {p : Particle ℝ} {st : State ℝ} {e e₁ e₂ : Element ℝ}

/-- An action over two lengths and the actions over each of them. A bend is entered in the first
part and left in the second. -/
inductive Action.Splits (l₁ l₂ : ℝ) : Action ℝ → Action ℝ → Action ℝ → Prop
  | drift : Splits l₁ l₂ .drift .drift .drift
  | quadrupole (s : Strength ℝ) : Splits l₁ l₂ (.quadrupole s) (.quadrupole s) (.quadrupole s)
  | solenoid (s : Strength ℝ) : Splits l₁ l₂ (.solenoid s) (.solenoid s) (.solenoid s)
  | bend (b : Bend ℝ) : Splits l₁ l₂ (.bend b)
    (.bend { b with angle := b.angle * l₁ / (l₁ + l₂), edgeOut := 0 })
    (.bend { b with angle := b.angle * l₂ / (l₁ + l₂), edgeIn := 0 })

structure Element.Splits (e e₁ e₂ : Element ℝ) : Prop where
  pos₁ : 0 < e₁.length
  pos₂ : 0 < e₂.length
  length_add : e₁.length + e₂.length = e.length
  action : Action.Splits e₁.length e₂.length e.action e₁.action e₂.action

theorem Element.Splits.transferMap_eq (h : e.Splits e₁ e₂) (p : Particle ℝ) (frequency : ℝ) :
    e.transferMap p frequency = e₂.transferMap p frequency * e₁.transferMap p frequency := by
  obtain ⟨hpos₁, hpos₂, hlength, haction⟩ := h
  have hsum : e.length * 1e3 = e₁.length * 1e3 + e₂.length * 1e3 := by rw [← hlength, add_mul]
  simp only [transferMap, hsum]
  generalize e₁.length = l₁ at *
  generalize e₂.length = l₂ at *
  generalize e.action = a, e₁.action = a₁, e₂.action = a₂ at haction
  cases haction with
  | drift => exact PhaseMatrix.drift_add _ _ _
  | quadrupole s => exact PhaseMatrix.quadrupole_add _ _ _ _
  | solenoid s => exact PhaseMatrix.solenoid_add _ _ _ _
  | bend b =>
    have hangle (l : ℝ) : b.angle * l / (l₁ + l₂) =
        b.angle * (l * 1e3) / (l₁ * 1e3 + l₂ * 1e3) := by
      have hsum : l₁ + l₂ ≠ 0 := (add_pos hpos₁ hpos₂).ne'
      field_simp
    have hmm {l : ℝ} (hl : 0 < l) : l * 1e3 ≠ 0 := by positivity
    simp only [hangle]
    exact PhaseMatrix.bend_add _ (hmm hpos₁) (hmm hpos₂)
      (add_pos (by positivity) (by positivity)).ne' _ _ _ _

theorem Element.Splits.keepsOne (h : e.Splits e₁ e₂) (p : Particle ℝ) (frequency : ℝ) :
    (e₂.transferMap p frequency).KeepsOne := by
  obtain ⟨-, hpos₂, -, haction⟩ := h
  simp only [transferMap]
  generalize e₁.length = l₁ at *
  generalize e₂.length = l₂ at *
  generalize e.action = a, e₁.action = a₁, e₂.action = a₂ at haction
  cases haction with
  | drift => exact PhaseMatrix.keepsOne_uncoupled _ _ _
  | quadrupole s => exact PhaseMatrix.keepsOne_uncoupled _ _ _
  | solenoid s => exact PhaseMatrix.keepsOne_solenoid _ _ _
  | bend b =>
    have hlength : l₂ * 1e3 ≠ 0 := by positivity
    exact PhaseMatrix.keepsOne_bend _ hlength _ _ _ _

namespace Particle

theorem phaseAdvance_add (l₁ l₂ beta frequency : ℝ) : phaseAdvance (l₁ + l₂) beta frequency =
    phaseAdvance l₁ beta frequency + phaseAdvance l₂ beta frequency := by
  unfold phaseAdvance
  split
  · rw [mul_add, add_div]
  · simp

theorem IsConsistent.coast_coast (h : p.IsConsistent) (l₁ l₂ frequency : ℝ) :
    (p.coast l₁ frequency).coast l₂ frequency = p.coast (l₁ + l₂) frequency := by
  have hcoast : (p.coast l₁ frequency).IsConsistent := ⟨rfl, rfl⟩
  rw [hcoast.coast_eq, h.coast_eq, h.coast_eq, phaseAdvance_add, add_assoc]

/-- The map of an element does not see how far its reference has come. -/
theorem IsConsistent.transferMap_coast (h : p.IsConsistent) (e : Element ℝ) (l frequency : ℝ) :
    e.transferMap (p.coast l frequency) frequency = e.transferMap p frequency := by
  rw [h.coast_eq]
  rfl

end Particle

namespace State

variable {r₁ r₂ : PhaseMatrix ℝ}

/-- Two maps carry the moments as their product does. -/
theorem transport_transport (st : State ℝ) (r₁ : PhaseMatrix ℝ) (h : r₂.KeepsOne) :
    (st.transport r₁).transport r₂ = st.transport (r₂ * r₁) := by
  have hsigma : r₂ * (r₁ * st.sigma * r₁.transpose) * r₂.transpose =
      r₂ * r₁ * st.sigma * (r₂ * r₁).transpose := by
    rw [PhaseMatrix.transpose_mul]
    simp only [PhaseMatrix.mul_assoc_real]
  have hcentroid : (r₂.apply ((r₁.apply st.centroid).set Axis.one 1.0)).set Axis.one 1.0 =
      ((r₂ * r₁).apply st.centroid).set Axis.one 1.0 := by
    unfold PhaseVector.set
    congr 1
    funext i
    by_cases hi : i = Axis.one
    · rw [if_pos hi, if_pos hi]
    · -- what the first map makes of the homogeneous coordinate does not count
      have hzero : r₂ i 6 = 0 := (h i).trans (if_neg hi)
      rw [if_neg hi, if_neg hi, PhaseMatrix.apply_apply, PhaseMatrix.apply_apply]
      simp only [PhaseMatrix.sumAxes, PhaseMatrix.mul_apply, PhaseMatrix.apply_apply,
        PhaseVector.ofFn_apply, hzero]
      simp [Axis.one]
      ring
  simp only [transport, hsigma, hcentroid]

/-- Coasting over two lengths in a row is coasting over both. -/
theorem coast_coast (href : st.reference.IsConsistent) (r₁ : PhaseMatrix ℝ) (h : r₂.KeepsOne)
    (l₁ l₂ frequency : ℝ) : (st.coast r₁ l₁ frequency).coast r₂ l₂ frequency =
      st.coast (r₂ * r₁) (l₁ + l₂) frequency := by
  -- the real particle is updated from its energies and put at the reference anew
  have hcoast : (st.coast r₁ l₁ frequency).coast r₂ l₂ frequency =
      alignReal { (st.transport r₁).transport r₂ with
        reference := (st.reference.coast l₁ frequency).coast l₂ frequency } := rfl
  rw [hcoast, transport_transport st r₁ h, href.coast_coast]
  rfl

end State

theorem Element.Splits.act_eq (h : e.Splits e₁ e₂) (frequency : ℝ) (st : State ℝ) :
    e.act frequency st = st.coast (e.transferMap st.reference frequency) e.length frequency ∧
    e₁.act frequency st = st.coast (e₁.transferMap st.reference frequency) e₁.length frequency ∧
    e₂.act frequency st = st.coast (e₂.transferMap st.reference frequency) e₂.length frequency := by
  have haction := h.action
  simp only [act]
  generalize e.action = a, e₁.action = a₁, e₂.action = a₂ at haction
  cases haction <;> exact ⟨rfl, rfl, rfl⟩

/-- The beam behind both parts of an element is the beam behind the whole. -/
theorem Element.Splits.advance_eq (h : e.Splits e₁ e₂) (href : st.reference.IsConsistent)
    (frequency : ℝ) : e₂.advance frequency (e₁.advance frequency st) = e.advance frequency st := by
  obtain ⟨hwhole, hfirst, -⟩ := h.act_eq frequency st
  have hsecond := (h.act_eq frequency (e₁.advance frequency st)).2.2
  have hmap : e₂.transferMap (e₁.advance frequency st).reference frequency =
      e₂.transferMap st.reference frequency := by
    rw [advance, hfirst]
    exact href.transferMap_coast e₂ e₁.length frequency
  have hcoast := State.coast_coast href (e₁.transferMap st.reference frequency)
    (h.keepsOne st.reference frequency) e₁.length e₂.length frequency
  rw [← h.transferMap_eq, h.length_add] at hcoast
  have hmoved : (e₁.advance frequency st).coast (e₂.transferMap st.reference frequency) e₂.length
      frequency = { st.coast (e.transferMap st.reference frequency) e.length frequency with
        position := st.position + e₁.length } := by
    rw [← hcoast, advance, hfirst]
    rfl
  have hposition : st.position + e₁.length + e₂.length = st.position + e.length := by
    rw [← h.length_add, add_assoc]
  rw [advance, hsecond, hmap, hmoved, advance, hwhole]
  change ({ st.coast (e.transferMap st.reference frequency) e.length frequency with
    position := st.position + e₁.length + e₂.length } : State ℝ) = _
  rw [hposition]
  rfl

theorem Element.Splits.seed?_eq_none (h : e.Splits e₁ e₂) :
    e.seed? = none ∧ e₁.seed? = none ∧ e₂.seed? = none := by
  have haction := h.action
  simp only [seed?]
  generalize e.action = a, e₁.action = a₁, e₂.action = a₂ at haction
  cases haction <;> exact ⟨rfl, rfl, rfl⟩

namespace Machine

/-- A machine with an element cut in two, between those in front of it and those behind it. -/
def cut (m : Machine ℝ) (front : List (Element ℝ)) (e₁ e₂ : Element ℝ)
    (back : List (Element ℝ)) : Machine ℝ :=
  { m with elements := front ++ e₁ :: e₂ :: back }

variable {m : Machine ℝ} {xs ys : List (Element ℝ)}

/-- A cut element seeds nothing. -/
theorem freshState_cut (h : e.Splits e₁ e₂) (hm : m.elements = xs ++ e :: ys) (o : Overrides ℝ) :
    (m.cut xs e₁ e₂ ys).freshState o = m.freshState o := by
  obtain ⟨hwhole, hfirst, hsecond⟩ := h.seed?_eq_none
  have hseed : (m.cut xs e₁ e₂ ys).elements.findSome? Element.seed? =
      m.elements.findSome? Element.seed? := by
    rw [hm, cut, List.findSome?_append, List.findSome?_append, List.findSome?_cons_of_isNone,
      List.findSome?_cons_of_isNone, List.findSome?_cons_of_isNone] <;>
        simp [hwhole, hfirst, hsecond]
  rw [freshState, hseed, freshState]

theorem propagate_cut (h : e.Splits e₁ e₂) (hm : m.elements = xs ++ e :: ys)
    (href : st.reference.IsConsistent) :
    (m.cut xs e₁ e₂ ys).propagate {} st = m.propagate {} st := by
  -- the beam in front of the cut is one for which both parts do what the whole does
  have hreach : (xs.foldl (fun st e => e.advance m.frequency st) st).reference.IsConsistent :=
    List.foldlRecOn (motive := fun st : State ℝ => st.reference.IsConsistent) xs _ href
      fun st h e _ => e.isConsistent_advance m.frequency st h
  rw [propagate_eq_foldl, propagate_eq_foldl, Span.select_all, Span.select_all, hm, cut,
    List.foldl_append, List.foldl_append, List.foldl_cons, List.foldl_cons, List.foldl_cons,
    h.advance_eq hreach]

/-- Wherever a beam has been carried to, cutting an element in two changes nothing behind it, and
nothing behind a machine that contains the element. -/
theorem advance_splits (m : Machine ℝ) (o : Overrides ℝ) (spans : List Span)
    {front back : List (Passage ℝ)} (hcut : m.journey (m.freshState o) spans = front ++ back)
    (h : e.Splits e₁ e₂) :
    let st := stateBehind (m.freshState o) front
    e₂.advance m.frequency (e₁.advance m.frequency st) = e.advance m.frequency st ∧
      ∀ xs ys, m.elements = xs ++ e :: ys →
        (m.cut xs e₁ e₂ ys).freshState o = m.freshState o ∧
        (m.cut xs e₁ e₂ ys).propagate {} st = m.propagate {} st := by
  intro st
  have href : st.reference.IsConsistent :=
    stateBehind_induction (P := fun st => st.reference.IsConsistent)
      (isConsistent_freshState m o) (fun e _ st => e.isConsistent_advance m.frequency st) hcut
  exact ⟨h.advance_eq href m.frequency,
    fun xs ys hm => ⟨freshState_cut h hm o, propagate_cut h hm href⟩⟩

/-- A source and a bend with a face at each end. -/
noncomputable def facedCell : Machine ℝ where
  name := "cell"
  frequency := 1
  elements := [
    ⟨"s", 0, 0, [], .source { charge := 1, restEnergy := 1, kineticEnergy := 1 }⟩,
    ⟨"b", 1, 1, [], .bend ⟨1, 1, -1, 1⟩⟩]

/-- The beam passes the bend's first face with a quarter of it and the second with the rest. -/
theorem facedCell_splits :
    let start := facedCell.freshState {}
    let st := stateBehind start ((facedCell.journey start [{}]).take 1)
    let bend : Element ℝ := ⟨"b", 1, 1, [], .bend ⟨1, 1, -1, 1⟩⟩
    let entrance : Element ℝ :=
      ⟨"in", 1, 1 / 4, [], .bend ⟨1 * (1 / 4) / (1 / 4 + 3 / 4), 1, 0, 1⟩⟩
    let exit : Element ℝ := ⟨"out", 2, 3 / 4, [], .bend ⟨1 * (3 / 4) / (1 / 4 + 3 / 4), 0, -1, 1⟩⟩
    facedCell.elements[1]? = some bend ∧
      exit.advance 1 (entrance.advance 1 st) = bend.advance 1 st ∧
      (facedCell.cut (facedCell.elements.take 1) entrance exit []).propagate {} st =
        facedCell.propagate {} st := by
  intro start st bend entrance exit
  have hcut : facedCell.journey start [{}] =
      (facedCell.journey start [{}]).take 1 ++ (facedCell.journey start [{}]).drop 1 :=
    (List.take_append_drop _ _).symm
  have hsplits : bend.Splits entrance exit :=
    { pos₁ := by positivity
      pos₂ := by positivity
      length_add := by norm_num [bend, entrance, exit]
      action := .bend ⟨1, 1, -1, 1⟩ }
  obtain ⟨hadvance, hcell⟩ := advance_splits facedCell {} [{}] hcut hsplits
  exact ⟨rfl, hadvance, (hcell _ [] rfl).2⟩

end Machine

end BeamEnvelope
