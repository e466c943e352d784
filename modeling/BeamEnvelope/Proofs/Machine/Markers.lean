import BeamEnvelope.Proofs.Machine.Agreement

/-!
# Markers

A marker maps no moments, but it aligns the real particle with the reference as every element does
that moves the beam. So it shows behind it exactly if an accelerating cavity comes before any other
element that puts the real particle anew, and the particle was not aligned in front of it: that is
so behind a source that seeds offsets, behind overrides, and behind generic elements.
-/

namespace BeamEnvelope

open Scalar

variable {K : Type}

def Element.next (e : Element K) : Element K := { e with index := e.index + 1 }

def Machine.insert (m : Machine K) (n : ℕ) (e : Element K) : Machine K :=
  { m with elements := m.elements.take n ++ e :: (m.elements.drop n).map Element.next }

variable [Scalar K]

/-- Whether phase and energy of the real particle compare equal to those of the reference with the
offsets of the centroid. -/
def State.isAligned (st : State K) : Bool :=
  eq st.real.phase (st.reference.phase + st.centroid Axis.s) &&
    eq st.real.centroidEnergy (st.real.kineticEnergy + st.centroid Axis.ps * 1e6)

variable {frequency length : K} {st : State K} {e : Element K} {history : List (Passage K)}

theorem Element.advance_next (e : Element K) : e.next.advance frequency = e.advance frequency := rfl

namespace Machine

variable {m : Machine K} {n : ℕ} {o : Overrides K}

theorem freshState_insert (he : e.seed? = none) (m : Machine K) (n : ℕ) (o : Overrides K) :
    (m.insert n e).freshState o = m.freshState o := by
  have hnext : Element.seed? ∘ Element.next (K := K) = Element.seed? := rfl
  have hseed : (m.insert n e).elements.findSome? Element.seed? =
      m.elements.findSome? Element.seed? := by
    conv_rhs => rw [← List.take_append_drop n m.elements]
    rw [insert, List.findSome?_append, List.findSome?_append, List.findSome?_cons,
      List.findSome?_map, hnext, he]
  rw [freshState, freshState, hseed]

theorem propagate_all (m : Machine K) (st : State K) :
    m.propagate {} st = m.elements.foldl (fun st e => e.advance m.frequency st) st := by
  rw [propagate_eq_foldl, Span.select_all]

theorem propagate_take (m : Machine K) (n : ℕ) (st : State K) : m.propagate (.between 0 n) st =
    (m.elements.take n).foldl (fun st e => e.advance m.frequency st) st := by
  rw [propagate_eq_foldl, Span.select_between, List.drop_zero]

/-- A run through one element more: the front, the element, and the rest as before. -/
theorem propagate_insert (m : Machine K) (n : ℕ) (e : Element K) (st : State K) :
    (m.insert n e).propagate {} st =
      (m.elements.drop n).foldl (fun st e => e.advance m.frequency st)
        (e.advance m.frequency (m.propagate (.between 0 n) st)) := by
  simp only [propagate_all, propagate_take, insert, List.foldl_append, List.foldl_cons,
    List.foldl_map, Element.advance_next]

theorem propagate_eq_drop (m : Machine K) (n : ℕ) (st : State K) : m.propagate {} st =
    (m.elements.drop n).foldl (fun st e => e.advance m.frequency st)
      (m.propagate (.between 0 n) st) := by
  rw [propagate_all, propagate_take, ← List.foldl_append, List.take_append_drop]

theorem journey_all (m : Machine K) (st : State K) :
    m.journey st [{}] = BeamEnvelope.passages m.frequency st m.elements := by
  rw [journey_eq_passages, List.flatMap_singleton, Span.select_all]

/-- Behind each element of a machine there is a state of the run through all of them. -/
theorem exists_passage (m : Machine K) {front back : List (Element K)}
    (h : m.elements = front ++ e :: back) (st : State K) : ∃ p ∈ m.journey st [{}], p.behind =
      e.advance m.frequency (front.foldl (fun st e => e.advance m.frequency st) st) := by
  rw [journey_all, h, passages_append]
  exact ⟨_, List.mem_append_right _ List.mem_cons_self, rfl⟩

theorem map_element_passages (frequency : K) (st : State K) (es : List (Element K)) :
    (BeamEnvelope.passages frequency st es).map Passage.element = es := by
  induction es generalizing st with
  | nil => rfl
  | cons e es ih => rw [BeamEnvelope.passages, List.map_cons, ih]

theorem exists_last_passage (m : Machine K) (h : m.elements ≠ []) (st : State K) :
    ∃ p ∈ m.journey st [{}], p.behind = m.propagate {} st := by
  obtain hnil | ⟨front, e, hlast⟩ := m.elements.eq_nil_or_concat
  · exact absurd hnil h
  · rw [List.concat_eq_append] at hlast
    rw [propagate_all, hlast, List.foldl_append]
    exact m.exists_passage hlast st

end Machine

variable [SignedZeros K]

theorem isVoid_phaseAdvance (h : isZero length = true) (beta frequency : K) :
    IsVoid (Particle.phaseAdvance length beta frequency) := by
  rw [Particle.phaseAdvance]
  split
  · exact IsVoid.div (SignedZeros.isVoid_mul_zero _ h) _
  · exact .inl SignedZeros.isZero_zero

/-- Coasting over no length with the identity for a map changes nothing but where the real particle
is, and not even that if the particle is aligned already. -/
theorem Coherent.coast_identity (h : Coherent frequency history st) (hlength : isZero length = true)
    (hnumber : areNumbers (st.coast .identity length frequency).numbers) :
    (st.coast .identity length frequency).Resembles st ∧
      (Alike st.real.phase (st.reference.phase + st.centroid Axis.s) →
        Alike st.real.centroidEnergy (st.real.kineticEnergy + st.centroid Axis.ps * 1e6) →
        (st.coast .identity length frequency).Matches st) := by
  have hsigma := State.isNaN_sigma hnumber
  have hcentroid := State.isNaN_centroid (State.areNumbers_centroidNumbers hnumber)
  have hmoments := State.alikeMoments_identity h.homogeneous hsigma hcentroid
  have hreal : st.real.update = st.real := by
    rw [Particle.update, h.real.updateVelocity_eq, ← h.real_betaGamma]
  have hreference : (st.coast .identity length frequency).reference =
      st.reference.coast length frequency := rfl
  have hphase : isNaN (st.coast .identity length frequency).reference.phase = false :=
    State.isNaN_reference hnumber (by simp [Particle.numbers])
  rw [hreference, h.reference.coast_eq] at hphase
  have hresembles : (st.coast .identity length frequency).Resembles st := by
    refine ⟨⟨hmoments.sigma, hmoments.centroid⟩, ?_, ?_, ?_⟩
    · have hupdate : st.real.update.SameMotion st.real := hreal ▸ .refl _
      exact hupdate.placed _ _ _ _
    · rw [hreference, h.reference.coast_eq]
      exact (Particle.SameMotion.refl st.reference).placed _ _ _ _
    · rw [hreference, h.reference.coast_eq]
      exact (isVoid_phaseAdvance hlength _ _).add_alike hphase
  refine ⟨hresembles, fun hphase henergy => ⟨hresembles, ?_, ?_⟩⟩
  · exact (hresembles.phase.add (hresembles.centroid Axis.s)).trans hphase.symm
  · have hoffset := (Alike.refl st.real.kineticEnergy).add
      ((hresembles.centroid Axis.ps).mul (.refl 1e6))
    change Alike (st.real.update.kineticEnergy + _) _
    rw [hreal]
    exact hoffset.trans henergy.symm

/-- So does a marker. -/
theorem Coherent.marker (h : Coherent frequency history st) (he : e.action = .marker)
    (hlength : isZero e.length = true) (hnumber : areNumbers (e.advance frequency st).numbers) :
    (e.advance frequency st).Resembles st ∧
      (Alike st.real.phase (st.reference.phase + st.centroid Axis.s) →
        Alike st.real.centroidEnergy (st.real.kineticEnergy + st.centroid Axis.ps * 1e6) →
        (e.advance frequency st).Matches st) := by
  have hact : e.advance frequency st = { st.coast .identity e.length frequency with
      position := (st.coast .identity e.length frequency).position + e.length } := by
    rw [Element.advance, Element.act, he, Element.transferMap, he]
  rw [hact] at hnumber ⊢
  obtain ⟨hresembles, hmatches⟩ := h.coast_identity hlength hnumber
  exact ⟨hresembles.moved _ _, fun hphase henergy => (hmatches hphase henergy).moved _ _⟩

namespace Machine

variable {m : Machine K} {n : ℕ} {o : Overrides K}

omit [SignedZeros K] in
/-- The beam behind the first elements is coherent, and aligned if the last of them moves it. -/
theorem coherent_propagate_take (hstart : Coherent m.frequency [] (m.freshState o))
    (hseeds : ∀ e ∈ m.elements, ∀ s, e.seed? = some s → s.IsHomogeneous) (n : ℕ) :
    ∃ history, Coherent m.frequency history (m.propagate (.between 0 n) (m.freshState o)) ∧
      ((m.elements.take n).getLast?.any Element.movesBeam →
        (m.propagate (.between 0 n) (m.freshState o)).IsAligned) := by
  have hst := hstart.passages (fun e he => hseeds e (List.mem_of_mem_take he))
    (List.append_nil (BeamEnvelope.passages m.frequency (m.freshState o) (m.elements.take n))).symm
  rw [List.nil_append, stateBehind_passages, ← propagate_take] at hst
  refine ⟨_, hst, fun hmoves => ?_⟩
  obtain ⟨e, he, hmoves⟩ := (Option.any_eq_true _ _).1 hmoves
  rw [← map_element_passages m.frequency (m.freshState o) (m.elements.take n),
    List.getLast?_map] at he
  obtain ⟨p, hp, rfl⟩ := Option.map_eq_some_iff.1 he
  exact hst.aligned p hp hmoves

/-- A marker is not seen behind a machine, if the beam that reaches it is aligned, or is aligned
behind it before it is accelerated. -/
theorem comparesEqual_insert (hstart : Coherent m.frequency [] (m.freshState o))
    (hseeds : ∀ e ∈ m.elements, ∀ s, e.seed? = some s → s.IsHomogeneous)
    (he : e.action = .marker) (hlength : isZero e.length = true)
    (haligned : (m.elements.take n).getLast?.any Element.movesBeam ∨
      (m.propagate (.between 0 n) (m.freshState o)).isAligned ∨
      Realigns m.frequency (m.propagate (.between 0 n) (m.freshState o)).reference
        (m.elements.drop n))
    (hnumbers : ∀ p ∈ (m.insert n e).journey ((m.insert n e).freshState o) [{}],
      areNumbers p.behind.numbers) :
    ((m.insert n e).propagate {} ((m.insert n e).freshState o)).ComparesEqual
      (m.propagate {} (m.freshState o)) := by
  have hseed : e.seed? = none := by rw [Element.seed?, he]
  rw [freshState_insert hseed] at hnumbers ⊢
  have hend : areNumbers ((m.insert n e).propagate {} (m.freshState o)).numbers := by
    obtain ⟨p, hp, hlast⟩ := (m.insert n e).exists_last_passage (by simp [insert]) (m.freshState o)
    exact hlast ▸ hnumbers p hp
  have hbehind : areNumbers
      (e.advance m.frequency (m.propagate (.between 0 n) (m.freshState o))).numbers := by
    obtain ⟨p, hp, hmarker⟩ := (m.insert n e).exists_passage rfl (m.freshState o)
    rw [propagate_take]
    exact hmarker ▸ hnumbers p hp
  obtain ⟨history, hst, hmoves⟩ := coherent_propagate_take hstart hseeds n
  obtain ⟨hresembles, hmatches⟩ := hst.marker he hlength hbehind
  rw [propagate_insert] at hend ⊢
  rw [m.propagate_eq_drop n]
  refine State.Resembles.comparesEqual ?_ hend
  -- aligned by the element in front, aligned already, or aligned anew before it counts
  rcases haligned with hlast | hhere | hnext
  · obtain ⟨hphase, henergy⟩ := hmoves hlast
    exact ((hmatches (.inl hphase) (.inl henergy)).foldl _).toResembles
  · obtain ⟨hphase, henergy⟩ := Bool.and_eq_true_iff.1 hhere
    exact ((hmatches (SignedZeros.alike_of_eq hphase)
      (SignedZeros.alike_of_eq henergy)).foldl _).toResembles
  · refine hresembles.foldl fun f hf hcavity => ?_
    rw [hresembles.reference.ofReference?_eq]
    exact hnext f hf hcavity

end Machine

/-- A lattice with a marker behind its first `n` components. -/
def Lattice.withMarker (lattice : Lattice) (n : ℕ) (name : String) : Lattice :=
  { lattice with components :=
      lattice.components.take n ++ ⟨name, "marker", ∅⟩ :: lattice.components.drop n }

def Element.marker (name : String) (index : ℕ) : Element Float := ⟨name, index, 0.0, [], .marker⟩

namespace Component

variable {globals : Dictionary Value} {c : Component} {index : ℕ}

theorem element_marker (name : String) :
    element globals ⟨name, "marker", ∅⟩ index = .ok (.marker name index) := rfl

/-- An element does not depend on its index but for bearing it. -/
theorem element_succ {e : Element Float} (h : c.element globals index = .ok e) :
    c.element globals (index + 1) = .ok e.next := by
  rw [element] at h ⊢
  split at h
  · obtain ⟨length, hlength, h⟩ := bind_eq_ok.1 h
    obtain ⟨action, haction, h⟩ := bind_eq_ok.1 h
    obtain ⟨aperture, haperture, h⟩ := bind_eq_ok.1 h
    cases h
    exact bind_eq_ok.2 ⟨length, hlength,
      bind_eq_ok.2 ⟨action, haction, bind_eq_ok.2 ⟨aperture, haperture, rfl⟩⟩⟩
  · cases h

end Component

namespace Machine

section Elements

variable {globals : Dictionary Value} {k : ℕ} {cs : List Component} {es : List (Element Float)}

theorem elementsFrom_cons {c : Component} {e : Element Float} (h : c.element globals k = .ok e)
    (hs : elementsFrom globals (k + 1) cs = .ok es) :
    elementsFrom globals k (c :: cs) = .ok (e :: es) := by
  rw [elementsFrom, h, hs]
  rfl

theorem elementsFrom_succ (h : elementsFrom globals k cs = .ok es) :
    elementsFrom globals (k + 1) cs = .ok (es.map Element.next) := by
  induction cs generalizing k es with
  | nil =>
    cases h
    rfl
  | cons c cs ih =>
    obtain ⟨e, rest, he, hrest, rfl⟩ := elementsFrom_cons_eq_ok h
    exact elementsFrom_cons (Component.element_succ he) (ih hrest)

/-- A marker among the components makes one element more. -/
theorem elementsFrom_marker (h : elementsFrom globals k cs = .ok es) (n : ℕ) (name : String) :
    ∃ index, elementsFrom globals k (cs.take n ++ ⟨name, "marker", ∅⟩ :: cs.drop n) =
      .ok (es.take n ++ .marker name index :: (es.drop n).map Element.next) := by
  induction n generalizing k cs es with
  | zero => exact ⟨k, elementsFrom_cons (Component.element_marker name) (elementsFrom_succ h)⟩
  | succ n ih =>
    cases cs with
    | nil =>
      cases h
      exact ⟨k, elementsFrom_cons (Component.element_marker name) rfl⟩
    | cons c cs =>
      obtain ⟨e, rest, he, hrest, rfl⟩ := elementsFrom_cons_eq_ok h
      obtain ⟨index, hmarked⟩ := ih hrest
      exact ⟨index, elementsFrom_cons he hmarked⟩

end Elements

variable {lattice : Lattice} {m : Machine Float}

theorem ofLattice_withMarker (h : ofLattice lattice = .ok m) (n : ℕ) (name : String) :
    ∃ index, ofLattice (lattice.withMarker n name) = .ok (m.insert n (.marker name index)) := by
  obtain ⟨_, htype, h⟩ := bind_eq_ok.1 h
  obtain ⟨es, hes, h⟩ := bind_eq_ok.1 h
  cases h
  obtain ⟨index, hmarked⟩ := elementsFrom_marker hes n name
  exact ⟨index, bind_eq_ok.2 ⟨(), htype, bind_eq_ok.2 ⟨_, hmarked, rfl⟩⟩⟩

/-- A marker anywhere in a lattice is not seen behind the machine that it describes, if the beam
reaches the marker aligned, as it does behind every element that moves it, or is aligned behind the
marker before it is accelerated. -/
theorem comparesEqual_withMarker (lib : Elementary) (hlib : lib.IsDocumented)
    (h : ofLattice lattice = .ok m) (n : ℕ) (name : String) (o : Overrides Float) :
    letI := lib.scalar
    ∃ marked, ofLattice (lattice.withMarker n name) = .ok marked ∧
      let st := m.propagate (.between 0 n) (m.freshState o)
      ((m.elements.take n).getLast?.any Element.movesBeam ∨ st.isAligned ∨
        Realigns m.frequency st.reference (m.elements.drop n)) →
      (∀ p ∈ marked.journey (marked.freshState o) [{}], areNumbers p.behind.numbers) →
      (marked.propagate {} (marked.freshState o)).ComparesEqual
        (m.propagate {} (m.freshState o)) := by
  let _ := lib.scalar
  have := hlib.signedZeros
  obtain ⟨index, hmarked⟩ := ofLattice_withMarker h n name
  have hseeds : ∀ e ∈ m.elements, ∀ s, e.seed? = some s → s.IsHomogeneous :=
    isHomogeneous_of_ofLattice h
  exact ⟨_, hmarked, comparesEqual_insert (lib.coherent_freshState h o) hseeds rfl
    SignedZeros.isZero_zero⟩

/-- A source with an offset in phase, and a cavity without voltage, whose cosines do not count. -/
def gapCell (offset : Float) : Lattice where
  name := "cell"
  globals := .ofList [("sim_type", .text simulationType), ("IonEs", .scalar 931494000.0)]
  components := [
    ⟨"s", "source", .ofList [("IonZ", .scalar 0.5), ("IonEk", .scalar 500000.0),
      ("moment0", .vector [0.0, 0.0, 0.0, 0.0, offset, 0.0])]⟩,
    ⟨"gap", "rfcavity",
      .ofList [("L", .scalar 0.5), ("f", .scalar 80.5e6), ("scl_fac", .scalar 0.0)]⟩]

/-- Without an offset the beam leaves the source aligned. -/
theorem gapCell_comparesEqual :
    letI := Elementary.atZero.scalar
    ∃ m marked, ofLattice (gapCell 0.0) = .ok m ∧
      ofLattice ((gapCell 0.0).withMarker 1 "m") = .ok marked ∧
      (marked.propagate {} (marked.freshState {})).ComparesEqual
        (m.propagate {} (m.freshState {})) := by
  have h : ofLattice (gapCell 0.0) = .ok _ := rfl
  obtain ⟨marked, hmarked, htransparent⟩ :=
    comparesEqual_withMarker .atZero Elementary.isDocumented_atZero h 1 "m" {}
  have hbuilt : ofLattice ((gapCell 0.0).withMarker 1 "m") = .ok _ := rfl
  obtain rfl := Except.ok.inj (hbuilt.symm.trans hmarked)
  exact ⟨_, _, h, hbuilt, htransparent (.inr (.inl (by decide +kernel))) (by decide +kernel)⟩

/-- With one it does not: the cavity takes the centroid for one without an offset, unless a marker
aligns the real particle with the beam. -/
theorem gapCell_not_comparesEqual :
    letI := Elementary.atZero.scalar
    ∃ m marked, ofLattice (gapCell 0.25) = .ok m ∧
      ofLattice ((gapCell 0.25).withMarker 1 "m") = .ok marked ∧
      (m.elements.drop 1).any Element.movesBeam ∧
      ((m.journey (m.freshState {}) [{}] ++ marked.journey (marked.freshState {}) [{}]).all
        fun p => p.behind.numbers.all Float.isFinite) ∧
      ¬ (marked.propagate {} (marked.freshState {})).ComparesEqual
        (m.propagate {} (m.freshState {})) := by
  have h : ofLattice (gapCell 0.25) = .ok _ := rfl
  have hmarked : ofLattice ((gapCell 0.25).withMarker 1 "m") = .ok _ := rfl
  refine ⟨_, _, h, hmarked, by decide +kernel, by decide +kernel, ?_⟩
  rintro ⟨-, hcentroid, -, -, -⟩
  exact absurd (hcentroid Axis.s) (by decide +kernel)

end Machine

end BeamEnvelope
