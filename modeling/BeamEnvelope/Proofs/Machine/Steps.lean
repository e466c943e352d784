import BeamEnvelope.Proofs.Machine.Tracks
import BeamEnvelope.Proofs.Optics.DoubleNumbers

/-!
# Steps of a beam

An element acts on a beam in one of four ways, and what is kept by all of them is kept along every
run. A run is cut where its list of passages is cut.
-/

namespace BeamEnvelope

open Scalar

variable {K : Type} [Scalar K] {frequency : K} {e : Element K} {st : State K}

/-- The ways in which an element acts: a source seeds, a generic element maps the moments, a cavity
accelerates a reference with kinematics, and whatever else moves the beam is coasted through. -/
inductive Element.Acts (e : Element K) (frequency : K) (st : State K) : State K → Prop
  | seed (s : Seed K) (action : e.action = .source s) : Acts e frequency st (st.seed s)
  | transport (r : PhaseMatrix K) (action : e.action = .generic r) :
    Acts e frequency st (st.transport r)
  | accelerate (c : Cavity K) (kin : Kinematics K) (action : e.action = .cavity c)
    (kinematics : Kinematics.ofReference? st.reference frequency = some kin) :
    Acts e frequency st (c.accelerate st kin e.length frequency)
  | coast (moves : e.movesBeam) (drifts : ∀ c, e.action = .cavity c →
      Kinematics.ofReference? st.reference frequency = none) :
    Acts e frequency st (st.coast (e.transferMap st.reference frequency) e.length frequency)

theorem Element.acts (e : Element K) (frequency : K) (st : State K) :
    e.Acts frequency st (e.act frequency st) := by
  have hmoves (hsource : e.action.type ≠ .source) (hgeneric : e.action.type ≠ .generic) :
      e.movesBeam := by
    simp [movesBeam, type, hsource, hgeneric]
  rw [act]
  cases haction : e.action with
  | source s => exact .seed s haction
  | generic r => exact .transport r haction
  | cavity c =>
    cases hkin : Kinematics.ofReference? st.reference frequency with
    | some kin => exact .accelerate c kin haction hkin
    | none =>
      exact .coast (hmoves (by simp [haction, Action.type]) (by simp [haction, Action.type]))
        fun _ _ => hkin
  | marker | drift | bend b | quadrupole s | solenoid s =>
    exact .coast (hmoves (by simp [haction, Action.type]) (by simp [haction, Action.type]))
      (by simp [haction])

/-- Every element leaves the reference with the velocity of its energies. -/
theorem Element.isConsistent_advance (e : Element K) (frequency : K) (st : State K)
    (h : st.reference.IsConsistent) : (e.advance frequency st).reference.IsConsistent := by
  have hacts := e.acts frequency st
  rw [Element.advance]
  generalize e.act frequency st = next at hacts ⊢
  cases hacts with
  | seed s haction => exact Particle.isConsistent_seed ..
  | transport r haction => exact h
  | coast _ hdrifts => exact ⟨rfl, rfl⟩
  | accelerate c kin haction hkin => exact ⟨rfl, rfl⟩

/-- The reference of a fresh beam is consistent if a particle at rest is. -/
theorem Particle.IsConsistent.freshState (hrest : (Particle.rest : Particle K).IsConsistent)
    (m : Machine K) (o : Overrides K) : (m.freshState o).reference.IsConsistent := by
  have hseeded : ((m.elements.findSome? Element.seed?).elim .start
      State.start.seed : State K).reference.IsConsistent := by
    cases m.elements.findSome? Element.seed? with
    | none => exact hrest
    | some s => exact Particle.isConsistent_seed ..
  rw [Machine.freshState, State.override]
  split
  · exact Particle.isConsistent_seed ..
  · exact hseeded

/-- Kinematics are those of a particle with a momentum, at a frequency above zero. -/
theorem Kinematics.ofReference?_eq_some {p : Particle K} {kin : Kinematics K}
    (h : ofReference? p frequency = some kin) :
    p.isDefined = true ∧ isNegative frequency = false ∧ isZero frequency = false ∧
      kin = ⟨p.beta, p.gamma, p.betaGamma, p.restEnergy / 1e6, lightSpeed / frequency * 1e3⟩ := by
  unfold ofReference? at h
  simp only at h
  split at h
  · cases h
  · rename_i husable
    cases h
    simp only [Bool.or_eq_true, not_or, Bool.not_eq_true, Bool.not_eq_false'] at husable
    exact ⟨husable.1.1, husable.2.1, husable.2.2, rfl⟩

/-- The reference leaves an accelerating cavity with the velocity of its exit energy. -/
theorem Cavity.velocity_advance {c : Cavity K} (haction : e.action = .cavity c)
    (h : (Kinematics.ofReference? st.reference frequency).isSome) :
    ((e.advance frequency st).reference.gamma, (e.advance frequency st).reference.beta) =
      Particle.velocity st.reference.restEnergy
        (c.crossing st.reference e.length frequency).exitEnergy := by
  obtain ⟨kin, hkin⟩ := Option.isSome_iff_exists.1 h
  rw [Element.advance, Element.act, haction]
  simp only [hkin]
  rfl

omit [Scalar K] in
theorem stateBehind_append (st : State K) (front run : List (Passage K)) :
    stateBehind st (front ++ run) = stateBehind (stateBehind st front) run := by
  induction front generalizing st with
  | nil => rfl
  | cons p front ih => rw [List.cons_append, stateBehind_cons, stateBehind_cons, ih]

/-- Both ends of a run that is cut in two are runs. -/
theorem passages_eq_append {es : List (Element K)} {front back : List (Passage K)}
    (h : passages frequency st es = front ++ back) : ∃ xs ys, es = xs ++ ys ∧
      front = passages frequency st xs ∧
      back = passages frequency (stateBehind st front) ys := by
  induction es generalizing st front with
  | nil =>
    obtain ⟨rfl, rfl⟩ := List.append_eq_nil_iff.1 h.symm
    exact ⟨[], [], rfl, rfl, rfl⟩
  | cons e es ih =>
    cases front with
    | nil => exact ⟨[], e :: es, rfl, rfl, h.symm⟩
    | cons p front =>
      rw [passages, List.cons_append, List.cons.injEq] at h
      obtain ⟨rfl, h⟩ := h
      obtain ⟨xs, ys, rfl, hfront, hback⟩ := ih h
      refine ⟨e :: xs, ys, rfl, ?_, ?_⟩
      · rw [passages, hfront]
      · rw [stateBehind_cons, hback]

/-- What every element of a machine keeps holds wherever the beam has been carried to. -/
theorem Machine.stateBehind_induction {m : Machine K} {P : State K → Prop} {st : State K}
    (start : P st) (step : ∀ e ∈ m.elements, ∀ st, P st → P (e.advance m.frequency st))
    {spans : List Span} {front back : List (Passage K)}
    (hcut : m.journey st spans = front ++ back) : P (stateBehind st front) := by
  rw [journey_eq_passages] at hcut
  obtain ⟨xs, ys, hes, rfl, -⟩ := passages_eq_append hcut
  rw [stateBehind_passages]
  refine List.foldlRecOn xs _ start fun st h e he => step e ?_ st h
  have hmem := List.mem_append_left ys he
  rw [← hes] at hmem
  obtain ⟨span, -, hselected⟩ := List.mem_flatMap.1 hmem
  exact mem_elements_of_mem_select hselected

/-- A fresh beam of doubles is coherent, whatever the elementary functions return. -/
theorem Elementary.coherent_freshState (lib : Elementary) {lattice : Lattice} {m : Machine Float}
    (h : Machine.ofLattice lattice = .ok m) (o : Overrides Float) :
    letI := lib.scalar
    Coherent m.frequency [] (m.freshState o) := by
  let _ := lib.scalar
  have hstart : Coherent m.frequency [] (.start : State Float) :=
    .start m.frequency Machine.zero_add_zero Machine.velocity_zero Machine.zero_mul_one
  exact hstart.freshState (Machine.isHomogeneous_of_ofLattice h) o

end BeamEnvelope
