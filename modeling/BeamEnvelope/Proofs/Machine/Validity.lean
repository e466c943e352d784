import BeamEnvelope.Proofs.Double.Sums
import BeamEnvelope.Proofs.Machine.Tracks

/-!
# Valid machines

Building a machine checks the sign of every length, but not that it is finite, and what is not a
number has no sign. Where the lengths that the components give are finite, all elements are valid:
each has the length that its kind asks for and the values that its component gives, and a beam that
is carried through them never moves backwards.
-/

namespace BeamEnvelope

open Double

variable {globals : Dictionary Value} {c : Component} {index : Nat} {length : Float}

/-- The matrix has 49 values as its entries, row by row. -/
def PhaseMatrix.HasEntries (r : PhaseMatrix Float) (xs : List Float) : Prop :=
  xs.length = 49 ∧ ∀ i j : Axis, xs[7 * i.val + j.val]? = some (r i j)

/-- The moments start with six values, and end in 1. -/
def PhaseVector.HasMoments (v : PhaseVector Float) (xs : List Float) : Prop :=
  (xs.length = 6 ∨ xs.length = 7) ∧ (∀ i : Axis, i.val < 6 → xs[i.val]? = some (v i)) ∧
    v Axis.one = 1.0

theorem hasEntries_of_ofEntries? {r : PhaseMatrix Float} {xs : List Float}
    (h : PhaseMatrix.ofEntries? xs = some r) : r.HasEntries xs := by
  unfold PhaseMatrix.ofEntries? at h
  split at h
  · rename_i hlength
    obtain rfl := Option.some.inj h
    refine ⟨hlength, fun i j => ?_⟩
    rw [PhaseMatrix.ofFn_apply, List.get_eq_getElem, List.getElem?_eq_getElem]
  · cases h

theorem hasMoments_of_ofMoments? {v : PhaseVector Float} {xs : List Float}
    (h : PhaseVector.ofMoments? 1.0 xs = some v) : v.HasMoments xs := by
  have hone := one_of_ofMoments? h
  unfold PhaseVector.ofMoments? at h
  split at h
  · rename_i hlength
    obtain rfl := Option.some.inj h
    refine ⟨hlength, fun i hi => ?_, hone⟩
    rw [PhaseVector.ofFn_apply, dif_pos hi, List.get_eq_getElem, List.getElem?_eq_getElem]
  · cases h

/-- What a component's element satisfies. -/
structure Element.IsValid (globals : Dictionary Value) (c : Component) (e : Element Float) :
    Prop where
  length_finite : e.length.isFinite = true
  length_nonneg : 0.0 ≤ e.length
  marker : e.action = .marker → (e.length == 0.0) = true
  bend {b : Bend Float} : e.action = .bend b → (b.angle != 0.0) = true → 0.0 < e.length
  centroid {s : Seed Float} {v : PhaseVector Float} : e.action = .source s → s.centroid = some v →
    ∃ xs, c.lookup? globals "moment0" = some (.vector xs) ∧ v.HasMoments xs
  sigma {s : Seed Float} {r : PhaseMatrix Float} : e.action = .source s → s.sigma = some r →
    ∃ xs, c.lookup? globals "initial" = some (.vector xs) ∧ r.HasEntries xs
  transfer {r : PhaseMatrix Float} : e.action = .generic r →
    ∃ xs, c.lookup? globals "transfer" = some (.vector xs) ∧ r.HasEntries xs

namespace Component

/-- What is read of a vector comes from a vector. -/
theorem exists_vector_of_demand {α : Type} {key : String} {shape : Shape}
    {read : List Float → Option α} {value? : Option Value} {a : α}
    (h : demand key shape (fun v => v.vector?.bind read) value? = .ok (some a)) :
    ∃ xs, value? = some (.vector xs) ∧ read xs = some a := by
  obtain ⟨value, hvalue, hread⟩ := exists_of_demand h
  obtain ⟨xs, hxs, ha⟩ := Option.bind_eq_some_iff.1 hread
  cases value with
  | vector ys =>
    obtain rfl := Option.some.inj hxs
    exact ⟨ys, hvalue, ha⟩
  | scalar x => cases hxs
  | text s => cases hxs

theorem exists_entries_of_matrix? {key : String} {r : PhaseMatrix Float}
    (h : c.matrix? globals key = .ok (some r)) :
    ∃ xs, c.lookup? globals key = some (.vector xs) ∧ r.HasEntries xs := by
  obtain ⟨xs, hvalue, hr⟩ := exists_vector_of_demand h
  exact ⟨xs, hvalue, hasEntries_of_ofEntries? hr⟩

theorem exists_moments_of_moments? {key : String} {v : PhaseVector Float}
    (h : c.moments? globals key = .ok (some v)) :
    ∃ xs, c.lookup? globals key = some (.vector xs) ∧ v.HasMoments xs := by
  obtain ⟨xs, hvalue, hv⟩ := exists_vector_of_demand h
  exact ⟨xs, hvalue, hasMoments_of_ofMoments? hv⟩

/-- A length is what the component gives, or zero, and is not below zero. -/
theorem length_eq_ok (h : c.length = .ok length) : ¬ length < 0.0 ∧
    (length = 0.0 ∨ c.params.get? "L" = some (.scalar length)) := by
  obtain ⟨found, hfound, h⟩ := bind_eq_ok.1 h
  dsimp only at h
  split at h
  · cases h
  · rename_i hsign
    cases h
    refine ⟨hsign, ?_⟩
    cases found with
    | none => exact .inl rfl
    | some x =>
      obtain ⟨value, hvalue, hread⟩ := exists_of_demand hfound
      cases value with
      | scalar y =>
        obtain rfl := Option.some.inj hread
        exact .inr hvalue
      | vector xs => cases hread
      | text s => cases hread

theorem sharpBend_of_bend {b : Bend Float} (h : c.bend globals length = .ok b) :
    (length == 0.0 && b.angle != 0.0) = false := by
  obtain ⟨angle, -, h⟩ := bind_eq_ok.1 h
  obtain ⟨edgeIn, -, h⟩ := bind_eq_ok.1 h
  obtain ⟨edgeOut, -, h⟩ := bind_eq_ok.1 h
  obtain ⟨gradient, -, h⟩ := bind_eq_ok.1 h
  split at h
  · cases h
  · rename_i hsharp
    cases h
    exact Bool.eq_false_of_not_eq_true hsharp

/-- The element of a component that gives no length but a finite one is valid. -/
theorem isValid_of_element {e : Element Float}
    (hlength : ∀ x, c.params.get? "L" = some (.scalar x) → x.isFinite = true)
    (h : c.element globals index = .ok e) : e.IsValid globals c := by
  rw [element] at h
  split at h
  · rename_i type htype
    obtain ⟨length, hown, h⟩ := bind_eq_ok.1 h
    obtain ⟨action, haction, h⟩ := bind_eq_ok.1 h
    obtain ⟨aperture, -, h⟩ := bind_eq_ok.1 h
    cases h
    obtain ⟨hsign, hgiven⟩ := length_eq_ok hown
    have hfinite : length.isFinite = true := by
      rcases hgiven with rfl | hgiven
      · rfl
      · exact hlength length hgiven
    have hnonneg := zero_le_of_not_lt hfinite hsign
    have htype := type_of_action haction
    exact {
      length_finite := hfinite
      length_nonneg := hnonneg
      marker := by
        rintro rfl
        subst htype
        rw [Action.type, Component.action] at haction
        split at haction
        · assumption
        · cases haction
      bend := by
        rintro b rfl hangle
        subst htype
        obtain ⟨b', hb, heq⟩ := map_eq_ok.1 haction
        cases heq
        have hsharp := sharpBend_of_bend hb
        rw [hangle, Bool.and_true] at hsharp
        exact zero_lt_of_ne hnonneg hsharp
      centroid := by
        rintro s v rfl hv
        have hcentroid := (moments_of_seed (seed_of_action haction)).1
        rw [hv] at hcentroid
        exact exists_moments_of_moments? hcentroid
      sigma := by
        rintro s r rfl hr
        have hsigma := (moments_of_seed (seed_of_action haction)).2
        rw [hr] at hsigma
        exact exists_entries_of_matrix? hsigma
      transfer := by
        rintro r rfl
        subst htype
        obtain ⟨r', hr, heq⟩ := map_eq_ok.1 haction
        cases heq
        obtain ⟨found, hfound, h⟩ := bind_eq_ok.1 hr
        cases found with
        | none => cases h
        | some r' =>
          cases h
          exact exists_entries_of_matrix? hfound }
  · cases h

end Component

section Positions

variable {K : Type} [Scalar K]

/-- Only the length of an element moves a beam on. -/
theorem Element.position_act (e : Element K) (frequency : K) (st : State K) :
    (e.act frequency st).position = st.position := by
  unfold Element.act
  split
  · rfl
  · rfl
  · split <;> rfl
  · rfl

theorem Element.position_advance (e : Element K) (frequency : K) (st : State K) :
    (e.advance frequency st).position = st.position + e.length := by
  rw [Element.advance, position_act]

theorem Machine.position_freshState (m : Machine K) (o : Overrides K) :
    (m.freshState o).position = 0.0 := by
  have hseed (start : State K) (s : Seed K) : (start.seed s).position = start.position := rfl
  have hoverride (st : State K) : (st.override o).position = st.position := by
    unfold State.override
    dsimp only
    split <;> rfl
  rw [freshState, hoverride]
  cases m.elements.findSome? Element.seed? <;> rfl

/-- The positions of a beam that is carried through one span after another, from where it starts. -/
def Machine.positions (m : Machine K) (st : State K) (spans : List Span) : List K :=
  st.position :: (m.journey st spans).map (·.behind.position)

end Positions

/-- A beam that is carried through elements without negative lengths does not move backwards. -/
theorem pairwise_passages (frequency : Float) {st : State Float} {es : List (Element Float)}
    (hst : 0.0 ≤ st.position) (hes : ∀ e ∈ es, 0.0 ≤ e.length) :
    (∀ p ∈ passages frequency st es, 0.0 ≤ p.behind.position ∧ st.position ≤ p.behind.position) ∧
      ((passages frequency st es).map (·.behind.position)).Pairwise (· ≤ ·) := by
  induction es generalizing st with
  | nil => exact ⟨fun p hp => absurd hp List.not_mem_nil, .nil⟩
  | cons e es ih =>
    obtain ⟨he, hes⟩ := List.forall_mem_cons.1 hes
    have hposition := e.position_advance frequency st
    have hbehind : 0.0 ≤ (e.advance frequency st).position := by
      rw [hposition]
      exact zero_le_add hst he
    have hstep : st.position ≤ (e.advance frequency st).position := by
      rw [hposition]
      exact le_add_right hst he
    obtain ⟨hall, hpairwise⟩ := ih hbehind hes
    rw [passages, List.map_cons, List.pairwise_cons, List.forall_mem_map]
    refine ⟨List.forall_mem_cons.2 ⟨⟨hbehind, hstep⟩, fun p hp => ?_⟩, fun p hp => (hall p hp).2,
      hpairwise⟩
    obtain ⟨hp, hle⟩ := hall p hp
    exact ⟨hp, le_trans_of_nonneg hst hbehind hp hstep hle⟩

def Lattice.HasFiniteLengths (lattice : Lattice) : Prop :=
  ∀ c ∈ lattice.components, ∀ x, c.params.get? "L" = some (.scalar x) → x.isFinite = true

namespace Machine

/-- What is checked of a machine, and what it has from its lattice. -/
structure IsValid (lattice : Lattice) (m : Machine Float) : Prop where
  frequency_finite : m.frequency.isFinite = true
  frequency_pos : 0.0 < m.frequency
  elements : lattice.components.Forall₂ (fun c e => e.IsValid lattice.globals c) m.elements

theorem sampling_valid (globals : Dictionary Value) :
    (sampling globals).1.isFinite = true ∧ 0.0 < (sampling globals).1 := by
  have hdefault : defaultFrequency.isFinite = true ∧ 0.0 < defaultFrequency := by decide +kernel
  unfold sampling
  split
  · exact hdefault
  · split
    · rename_i f hf
      have hchecked := (Option.filter_eq_some_iff.1 hf).2
      simpa [and_comm] using hchecked
    · exact hdefault

theorem forall₂_of_elementsFrom {globals : Dictionary Value} {n : Nat} {cs : List Component}
    {es : List (Element Float)} (h : elementsFrom globals n cs = .ok es) :
    cs.Forall₂ (fun c e => ∃ index, c.element globals index = .ok e) es := by
  induction cs generalizing n es with
  | nil =>
    cases h
    exact .nil
  | cons c cs ih =>
    obtain ⟨e, rest, he, hrest, rfl⟩ := elementsFrom_cons_eq_ok h
    exact .cons ⟨n, he⟩ (ih hrest)

/-- A machine that is built from finite lengths is valid. The position of its beam is a number and
never decreases, whatever the overrides and whatever spans the beam is carried through. -/
theorem ofLattice_isValid {lattice : Lattice} {m : Machine Float} (h : ofLattice lattice = .ok m)
    (hlengths : lattice.HasFiniteLengths) : m.IsValid lattice ∧
      ∀ (o : Overrides Float) (spans : List Span),
        (∀ x ∈ m.positions (m.freshState o) spans, x.isNaN = false) ∧
        (m.positions (m.freshState o) spans).Pairwise (· ≤ ·) := by
  obtain ⟨-, -, h⟩ := bind_eq_ok.1 h
  obtain ⟨es, hes, h⟩ := bind_eq_ok.1 h
  cases h
  have helements : lattice.components.Forall₂ (fun c e => e.IsValid lattice.globals c) es :=
    ((List.forall₂_and_left _ _).2 ⟨hlengths, forall₂_of_elementsFrom hes⟩).imp
      fun c e ⟨hlength, index, he⟩ => Component.isValid_of_element hlength he
  have hnonneg : ∀ e ∈ es, 0.0 ≤ e.length := by
    intro e he
    obtain ⟨c, hc, index, hbuilt⟩ := exists_component_of_mem hes e he
    exact (Component.isValid_of_element (hlengths c hc) hbuilt).length_nonneg
  refine ⟨⟨(sampling_valid _).1, (sampling_valid _).2, helements⟩, fun o spans => ?_⟩
  have hstart : 0.0 ≤ (freshState ⟨lattice.name, (sampling lattice.globals).1, es⟩ o).position := by
    rw [position_freshState]
    decide +kernel
  have hselected : ∀ e ∈ spans.flatMap fun span => span.select es, 0.0 ≤ e.length := by
    intro e he
    obtain ⟨span, -, hselected⟩ := List.mem_flatMap.1 he
    exact hnonneg e (List.mem_of_mem_take (List.mem_of_mem_drop hselected))
  have hpairwise := pairwise_passages (sampling lattice.globals).1 hstart hselected
  rw [positions, journey_eq_passages]
  refine ⟨List.forall_mem_cons.2 ⟨isNaN_eq_false_of_nonneg hstart, List.forall_mem_map.2 ?_⟩,
    List.pairwise_cons.2 ⟨List.forall_mem_map.2 ?_, hpairwise.2⟩⟩
  · exact fun p hp => isNaN_eq_false_of_nonneg (hpairwise.1 p hp).1
  · exact fun p hp => (hpairwise.1 p hp).2

/-- A source, a drift, a bend and a marker, and a matrix among the globals for a generic element. -/
def mixedCell : Lattice where
  name := "cell"
  globals := .ofList [("sim_type", .text simulationType), ("SampleFreq", .scalar (-1.0)),
    ("transfer", .vector ((List.range 49).map Nat.toFloat))]
  components := [
    ⟨"s", "source", .ofList [("moment0", .vector [0.5, 0.0, 0.0, 0.0, 0.25, 0.0, 2.0])]⟩,
    ⟨"d", "drift", .ofList [("L", .scalar 0.25)]⟩,
    ⟨"b", "sbend", .ofList [("L", .scalar 0.5), ("phi", .scalar 0.125)]⟩,
    ⟨"g", "generic", ∅⟩,
    ⟨"m", "marker", .ofList [("L", .scalar (-0.0))]⟩]

theorem mixedCell_isValid : ∃ m, ofLattice mixedCell = .ok m ∧ mixedCell.HasFiniteLengths ∧
    m.IsValid mixedCell ∧
    (m.positions (m.freshState {}) [⟨.unbounded, .excluded 4⟩, .between 1 3] ==
      [0.0, 0.0, 0.25, 0.75, 0.75, 1.0, 1.5]) = true ∧
    (m.positions (m.freshState {}) [⟨.unbounded, .excluded 4⟩, .between 1 3]).Pairwise (· ≤ ·) := by
  have h : ofLattice mixedCell = .ok _ := rfl
  have lengths : mixedCell.HasFiniteLengths := by
    have finite : ∀ c ∈ mixedCell.components, ∀ v ∈ c.params.get? "L",
        v.scalar?.all Float.isFinite = true := by decide +kernel
    exact fun c hc x hx => finite c hc _ hx
  obtain ⟨hvalid, hpositions⟩ := ofLattice_isValid h lengths
  exact ⟨_, h, lengths, hvalid, rfl, (hpositions {} _).2⟩

def driftCell (length : Float) : Lattice where
  name := "cell"
  globals := .ofList [("sim_type", .text simulationType)]
  components := [⟨"d", "drift", .ofList [("L", .scalar length)]⟩]

/-- A drift may be infinitely long, or have a length that is no number; then the position behind it
is no number either. -/
theorem driftCell_not_isValid :
    (¬ ∀ (lattice : Lattice) (m : Machine Float), ofLattice lattice = .ok m → m.IsValid lattice) ∧
    ¬ ∀ (lattice : Lattice) (m : Machine Float), ofLattice lattice = .ok m →
      ∀ (o : Overrides Float) (spans : List Span), ∀ x ∈ m.positions (m.freshState o) spans,
        x.isNaN = false := by
  constructor
  · intro hall
    have h : ofLattice (driftCell (1.0 / 0.0)) = .ok _ := rfl
    cases (hall _ _ h).elements with
    | cons hdrift _ => exact absurd hdrift.length_finite (by decide +kernel)
  · intro hall
    have h : ofLattice (driftCell (0.0 / 0.0)) = .ok _ := rfl
    have hposition := hall _ _ h {} [{}] (0.0 + 0.0 / 0.0) (.tail _ (.head _))
    exact absurd hposition (by decide +kernel)

end Machine

end BeamEnvelope
