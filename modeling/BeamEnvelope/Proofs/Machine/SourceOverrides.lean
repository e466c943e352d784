import BeamEnvelope.Proofs.Machine.Markers
import BeamEnvelope.Proofs.Machine.Simulation

/-!
# Overriding a beam is editing its source

Overrides are laid over a beam that the first source has seeded, and a simulation with overrides
begins behind that source. If the source is the first element and has no length, the same is reached
without overrides: by writing their values into the source instead. The one path goes through the
parameters of a component, the seed and the seed once more when the source is passed, the other
through the tracks that the seed has started.
-/

namespace BeamEnvelope

namespace Dictionary

variable {β : Type}

def put (d : Dictionary β) (name : String) (value? : Option β) : Dictionary β :=
  value?.elim d (d.insert name)

theorem get?_put (d : Dictionary β) (name key : String) (value? : Option β) :
    (d.put name value?).get? key = if key = name then value?.or (d.get? key) else d.get? key := by
  cases value? with
  | none => simp [put]
  | some value => simp [put, get?_insert]

end Dictionary

/-- The component with what overrides give in place of its own parameters. -/
def Component.withOverrides (c : Component) (o : Overrides Float) : Component :=
  { c with params := c.params
      |>.put "IonZ" (o.charge.map .scalar)
      |>.put "IonEs" (o.restEnergy.map .scalar)
      |>.put "IonEk" (o.kineticEnergy.map .scalar)
      |>.put "initial" (o.sigma.map fun r => .vector r.toLists.flatten)
      |>.put "moment0" (o.centroid.map fun v => .vector v.toList) }

def Lattice.withOverrides (lattice : Lattice) (o : Overrides Float) : Lattice :=
  { lattice with components := lattice.components.modifyHead (·.withOverrides o) }

section Seeds

variable {K : Type} [Scalar K]

/-- The seed with what overrides give in place of its own. -/
def Seed.withOverrides (s : Seed K) (o : Overrides K) : Seed K where
  sigma := o.sigma.or s.sigma
  centroid := (o.centroid.map fun v => v.set Axis.one 1.0).or s.centroid
  charge := o.charge.getD s.charge
  restEnergy := o.restEnergy.getD s.restEnergy
  kineticEnergy := o.kineticEnergy.getD s.kineticEnergy

namespace State

theorem seed_seed (st : State K) (s : Seed K) : (st.seed s).seed s = st.seed s := by
  cases hsigma : s.sigma <;> cases hcentroid : s.centroid <;>
    simp [seed, restart, hsigma, hcentroid]

/-- Overrides read the quantities that they leave alone off the reference particle, which has them
from the seed. -/
theorem override_seed (st : State K) (s : Seed K) (o : Overrides K) :
    (st.seed s).override o = st.seed (s.withOverrides o) := by
  have hcharge : (st.seed s).reference.charge = s.charge := rfl
  have hrest : (st.seed s).reference.restEnergy = s.restEnergy := rfl
  have hkinetic : (st.seed s).reference.kineticEnergy = s.kineticEnergy := rfl
  cases henergies : o.charge.isSome || o.restEnergy.isSome || o.kineticEnergy.isSome with
  | true =>
    simp only [override, henergies, if_true, hcharge, hrest, hkinetic]
    simp [seed, restart, Seed.withOverrides]
  | false =>
    simp only [Bool.or_eq_false_iff, Option.isSome_eq_false_iff, Option.isNone_iff_eq_none]
      at henergies
    obtain ⟨⟨hz, hes⟩, hek⟩ := henergies
    simp [override, seed, restart, Seed.withOverrides, hz, hes, hek]

end State

end Seeds

theorem PhaseVector.ofMoments?_toList {K : Type} (one : K) (v : PhaseVector K) :
    ofMoments? one v.toList = some (v.set Axis.one one) := by
  have hlength : v.toList.length = 6 ∨ v.toList.length = 7 := .inr (by simp [toList, Axis.all])
  rw [ofMoments?, dif_pos hlength, set]
  congr 2
  funext i
  by_cases hi : i = Axis.one
  · subst hi
    rw [if_pos rfl]
    exact dif_neg (by decide)
  · have hlt : i.val < 6 := by
      have hne : i.val ≠ 6 := fun h => hi (Fin.ext h)
      omega
    rw [if_neg hi, dif_pos hlt]
    simp [toList, Axis.all]

theorem PhaseMatrix.flatten_toLists {K : Type} (r : PhaseMatrix K) :
    r.toLists.flatten = List.ofFn fun k : Fin (7 * 7) =>
      r ⟨k / 7, Nat.div_lt_of_lt_mul k.isLt⟩ ⟨k % 7, Nat.mod_lt _ (by decide)⟩ := by
  rw [List.ofFn_mul', toLists, Axis.all, ← List.ofFn_eq_map]
  refine congrArg List.flatten (congrArg List.ofFn (funext fun i => ?_))
  rw [← List.ofFn_eq_map]
  refine congrArg List.ofFn (funext fun j => ?_)
  have hrow : (7 * i.val + j.val) / 7 = i.val := by omega
  have hcolumn : (7 * i.val + j.val) % 7 = j.val := by omega
  simp only [hrow, hcolumn]

theorem PhaseMatrix.ofEntries?_flatten_toLists {K : Type} (r : PhaseMatrix K) :
    ofEntries? r.toLists.flatten = some r := by
  have hlength : r.toLists.flatten.length = 49 := by rw [flatten_toLists, List.length_ofFn]
  rw [ofEntries?, dif_pos hlength, Option.some.injEq]
  refine ext_apply fun i j => ?_
  rw [ofFn_apply]
  have hrow : (7 * i.val + j.val) / 7 = i.val := by omega
  have hcolumn : (7 * i.val + j.val) % 7 = j.val := by omega
  simp only [flatten_toLists, List.get_eq_getElem, List.getElem_ofFn, hrow, hcolumn]

namespace Component

variable {globals : Dictionary Value} {c : Component} {s : Seed Float}

theorem demand_map_or {α β : Type} {key : String} {shape : Shape} {read : Value → Option α}
    {write : β → Value} {f : β → α} (hread : ∀ b, read (write b) = some (f b)) (given : Option β)
    {value? : Option Value} {a? : Option α} (h : demand key shape read value? = .ok a?) :
    demand key shape read ((given.map write).or value?) = .ok ((given.map f).or a?) := by
  cases given with
  | none => exact h
  | some b => simp [demand, hread]

theorem scalarOr_of_lookup? {d : Component} {key : String} {default x : Float}
    {given : Option Float}
    (hlookup : d.lookup? globals key = (given.map .scalar).or (c.lookup? globals key))
    (h : c.scalarOr globals key default = .ok x) :
    d.scalarOr globals key default = .ok (given.getD x) := by
  obtain ⟨x?, hx, h⟩ := bind_eq_ok.1 h
  cases h
  have hread (x : Float) : Value.scalar? (.scalar x) = some (id x) := rfl
  have hdemand : d.scalar? globals key = .ok ((given.map id).or x?) := by
    rw [scalar?, hlookup]
    exact demand_map_or hread given hx
  rw [scalarOr, hdemand]
  simp [bind, Except.bind, pure, Except.pure]

theorem lookup?_withOverrides (globals : Dictionary Value) (c : Component) (o : Overrides Float) :
    (c.withOverrides o).lookup? globals "IonZ" =
      (o.charge.map .scalar).or (c.lookup? globals "IonZ") ∧
    (c.withOverrides o).lookup? globals "IonEs" =
      (o.restEnergy.map .scalar).or (c.lookup? globals "IonEs") ∧
    (c.withOverrides o).lookup? globals "IonEk" =
      (o.kineticEnergy.map .scalar).or (c.lookup? globals "IonEk") ∧
    (c.withOverrides o).lookup? globals "initial" =
      (o.sigma.map fun r => .vector r.toLists.flatten).or (c.lookup? globals "initial") ∧
    (c.withOverrides o).lookup? globals "moment0" =
      (o.centroid.map fun v => .vector v.toList).or (c.lookup? globals "moment0") := by
  simp [lookup?, withOverrides, Dictionary.get?_put, Option.or_assoc]

theorem seed_withOverrides (h : c.seed globals = .ok s) (o : Overrides Float) :
    (c.withOverrides o).seed globals = .ok (s.withOverrides o) := by
  obtain ⟨centroid, hcentroid, h⟩ := bind_eq_ok.1 h
  obtain ⟨sigma, hsigma, h⟩ := bind_eq_ok.1 h
  obtain ⟨charge, hcharge, h⟩ := bind_eq_ok.1 h
  obtain ⟨restEnergy, hrest, h⟩ := bind_eq_ok.1 h
  obtain ⟨kineticEnergy, hkinetic, h⟩ := bind_eq_ok.1 h
  cases h
  obtain ⟨charge', rest', kinetic', sigma', centroid'⟩ := lookup?_withOverrides globals c o
  have hsigma' : (c.withOverrides o).matrix? globals "initial" = .ok ((o.sigma.map id).or sigma) := by
    rw [matrix?, sigma']
    exact demand_map_or PhaseMatrix.ofEntries?_flatten_toLists _ hsigma
  have hcentroid' : (c.withOverrides o).moments? globals "moment0" =
      .ok ((o.centroid.map fun v => v.set Axis.one 1.0).or centroid) := by
    rw [moments?, centroid']
    exact demand_map_or (PhaseVector.ofMoments?_toList 1.0) _ hcentroid
  rw [seed, hcentroid', hsigma', scalarOr_of_lookup? charge' hcharge,
    scalarOr_of_lookup? rest' hrest, scalarOr_of_lookup? kinetic' hkinetic, Option.map_id]
  rfl

/-- A source with another seed is the same otherwise. -/
theorem element_withOverrides {index : Nat} {e : Element Float}
    (h : c.element globals index = .ok e) (hs : e.action = .source s) (o : Overrides Float) :
    (c.withOverrides o).element globals index =
      .ok { e with action := .source (s.withOverrides o) } := by
  have hlength : (c.withOverrides o).length = c.length := by
    simp [length, withOverrides, Dictionary.get?_put]
  have haperture : (c.withOverrides o).aperture = c.aperture := by
    simp [aperture, withOverrides, Dictionary.get?_put]
  have hkind : (c.withOverrides o).kind = c.kind := rfl
  rw [element] at h ⊢
  rw [hkind, hlength, haperture]
  split at h
  · obtain ⟨length, hlen, h⟩ := bind_eq_ok.1 h
    obtain ⟨action, haction, h⟩ := bind_eq_ok.1 h
    obtain ⟨aperture, haper, h⟩ := bind_eq_ok.1 h
    cases h
    obtain rfl : action = .source s := hs
    obtain rfl := type_of_action haction
    have hedited : (c.withOverrides o).action globals length .source =
        .ok (.source (s.withOverrides o)) :=
      map_eq_ok.2 ⟨_, seed_withOverrides (seed_of_action haction) o, rfl⟩
    exact bind_eq_ok.2 ⟨length, hlen, bind_eq_ok.2 ⟨_, hedited, bind_eq_ok.2 ⟨aperture, haper, rfl⟩⟩⟩
  · cases h

end Component

/-- Nothing is added by a zero of either sign. -/
theorem Double.zero_add_of_beq_zero {x : Float} (h : (x == 0.0) = true) : 0.0 + x = 0.0 := by
  have hzero := beq_iff_compare.1 h
  rw [parts_zero] at hzero
  obtain ⟨s, hs⟩ := compare_zero.1 hzero
  rw [← ofParts_parts x, hs]
  cases s <;> decide +kernel

/-- A beam that has not moved passes a source without length unchanged, once it has been seeded. -/
theorem Element.advance_source_seed {e : Element Float} {s : Seed Float}
    (hs : e.action = .source s) (hlength : (e.length == 0.0) = true) (frequency : Float) :
    e.advance frequency (State.start.seed s) = State.start.seed s := by
  have hposition : (State.start.seed s).position + e.length = (State.start.seed s).position :=
    Double.zero_add_of_beq_zero hlength
  rw [advance, act, hs]
  simp only [State.seed_seed, hposition]

namespace Machine

variable {m n : Machine Float} {e f : Element Float} {es : List (Element Float)} {s : Seed Float}

theorem freshState_of_source (hm : m.elements = e :: es) (hs : e.action = .source s)
    (o : Overrides Float) : m.freshState o = State.start.seed (s.withOverrides o) := by
  have hseed : m.elements.findSome? Element.seed? = some s := by
    rw [hm, List.findSome?_cons, Element.seed?, hs]
  rw [freshState, hseed]
  exact State.override_seed _ s o

/-- Passing a source without length in front of the machine changes nothing. -/
theorem propagate_source (hm : m.elements = e :: es) (hs : e.action = .source s)
    (hlength : (e.length == 0.0) = true) :
    m.propagate (.between 0 1) (m.freshState {}) = State.start.seed s := by
  have hnone : s.withOverrides {} = s := rfl
  have hselect : (Span.between 0 1).select m.elements = [e] := by
    rw [hm, Span.select_between]
    rfl
  rw [propagate_eq_foldl, hselect, freshState_of_source hm hs, hnone]
  exact e.advance_source_seed hs hlength m.frequency

/-- Behind their first elements two machines with one rest have the same stretches. -/
theorem select_tail {α : Type} (x y : α) (xs : List α) (stop : Nat) :
    (Span.between 1 stop).select (x :: xs) = (Span.between 1 stop).select (y :: xs) := by
  rw [Span.select_between, Span.select_between]
  cases stop <;> rfl

section Tail

variable (hm : m.elements = e :: es) (hn : n.elements = f :: es)
  (hfrequency : n.frequency = m.frequency) (stop : Nat) (st : State Float)
include hm hn hfrequency

theorem propagate_tail : n.propagate (.between 1 stop) st = m.propagate (.between 1 stop) st := by
  rw [propagate_eq_foldl, propagate_eq_foldl, hm, hn, hfrequency, select_tail f e]

theorem trace_tail : n.trace (.between 1 stop) st = m.trace (.between 1 stop) st := by
  rw [trace_eq_map_passages, trace_eq_map_passages, passages, passages, hm, hn, hfrequency,
    select_tail f e]

end Tail

/-- The later entries of a trace are the trace of a run that begins later. -/
theorem IsNumbered.filter_trace (hm : m.IsNumbered) {a b c : Nat} (hab : a ≤ b) (hbc : b ≤ c)
    (hc : c ≤ m.elements.length) (st : State Float) :
    ((m.trace (.between a c) st).filter fun entry => b ≤ entry.1) =
      m.trace (.between b c) (m.propagate (.between a b) st) := by
  rw [m.trace_between_append hab hbc, List.filter_append,
    hm.trace_eq_map_range' (Nat.le_trans hbc hc), hm.trace_eq_map_range' hc]
  have hfront : ((List.range' a (b - a)).map fun i =>
      (i, m.propagate (.between a (i + 1)) st)).filter (fun entry => b ≤ entry.1) = [] := by
    rw [List.filter_eq_nil_iff]
    intro entry hentry
    obtain ⟨i, hi, rfl⟩ := List.mem_map.1 hentry
    rw [List.mem_range'_1] at hi
    simp only [decide_eq_true_eq]
    omega
  rw [hfront, List.nil_append, List.filter_eq_self]
  intro entry hentry
  obtain ⟨i, hi, rfl⟩ := List.mem_map.1 hentry
  rw [List.mem_range'_1] at hi
  exact decide_eq_true hi.1

/-- What the source of a lattice is edited to be stands in front of the machine. -/
theorem ofLattice_withOverrides {lattice : Lattice} (h : ofLattice lattice = .ok m)
    (hm : m.elements = e :: es) (hs : e.action = .source s) (o : Overrides Float) :
    ofLattice (lattice.withOverrides o) =
      .ok { m with elements := { e with action := .source (s.withOverrides o) } :: es } := by
  obtain ⟨_, htype, h⟩ := bind_eq_ok.1 h
  obtain ⟨elements, helements, h⟩ := bind_eq_ok.1 h
  cases h
  simp only at hm
  subst hm
  cases hcomponents : lattice.components with
  | nil =>
    rw [hcomponents] at helements
    cases helements
  | cons c cs =>
    rw [hcomponents] at helements
    obtain ⟨g, rest, hg, hrest, heq⟩ := elementsFrom_cons_eq_ok helements
    cases heq
    have hedited : (lattice.withOverrides o).components = c.withOverrides o :: cs := by
      rw [Lattice.withOverrides, hcomponents]
      rfl
    refine bind_eq_ok.2 ⟨(), htype, bind_eq_ok.2 ⟨_, ?_, rfl⟩⟩
    rw [hedited]
    exact elementsFrom_cons (Component.element_withOverrides hg hs o) hrest

end Machine

def Request.plain (request : Request) : Request := { request with overrides := {} }

namespace Simulation

open Machine

variable {lattice : Lattice} {m n : Machine Float} {e f : Element Float}
  {es : List (Element Float)} {s : Seed Float} {request : Request}

theorem start_plain (hstart : request.start? = none) (m : Machine Float) :
    request.plain.start m = 0 := by
  rw [Request.start, Request.plain, hstart]
  rfl

/-- With overrides a simulation begins behind a source that stands first. -/
theorem start_of_source (hnumbered : m.IsNumbered) (hm : m.elements = e :: es)
    (hs : e.action = .source s) (hoverrides : request.overrides.isEmpty = false)
    (hstart : request.start? = none) : request.start m = 1 := by
  have hsource : e.type = .source := by rw [Element.type, hs]; rfl
  rw [Request.start, hstart, Option.getD_none, defaultStart_eq_findIdx? hnumbered, hoverrides, hm,
    List.findIdx?_cons, hsource]
  rfl

/-- On a machine that begins with a source without length, and on one with the overridden seed in
its place, the outcomes agree behind the source. -/
theorem outcome_plain (hnumbered : n.IsNumbered) (hm : m.elements = e :: es)
    (hs : e.action = .source s) (hn : n.elements = f :: es)
    (hf : f.action = .source (s.withOverrides request.overrides))
    (hlength : (f.length == 0.0) = true) (hfrequency : n.frequency = m.frequency)
    (hfirst : request.start m = 1) (hstart : request.start? = none)
    (hfits : request.Fits m) :
    (request.outcome m).state = (request.plain.outcome n).state ∧
      (request.outcome m).trace =
        (request.plain.outcome n).trace.filter fun entry => 1 ≤ entry.1 := by
  have hcount : n.elements.length = m.elements.length := by rw [hn, hm]; rfl
  have hstop : request.plain.stop n = request.stop m := by rw [Request.stop, hcount]; rfl
  have hfront : n.propagate (.between 0 1) (n.freshState {}) = m.freshState request.overrides := by
    rw [propagate_source hn hf hlength, freshState_of_source hm hs]
  obtain ⟨hle, hlast⟩ := hfits
  rw [hfirst] at hle
  simp only [Request.outcome, hfirst, start_plain hstart, hstop]
  constructor
  · rw [n.propagate_between_append (Nat.zero_le 1) hle]
    rw [Request.plain, hfront, propagate_tail hm hn hfrequency]
  · cases hkept : request.trace with
    | false => simp [Request.plain, hkept]
    | true =>
      simp only [Request.plain, hkept, if_true]
      rw [hnumbered.filter_trace (Nat.zero_le 1) hle (hcount ▸ hlast), hfront,
        trace_tail hm hn hfrequency]

/-- A simulation with overrides on a machine that begins with a source without length ends as one
does without them for which the values have been written into the source, and it has the same states
behind the elements from the second on. -/
theorem simulate_withOverrides (h : ofLattice lattice = .ok m)
    (hfirst : m.elements.head? = some e) (hsource : e.type = .source)
    (hlength : (e.length == 0.0) = true) (hoverrides : request.overrides.isEmpty = false)
    (hstart : request.start? = none)
    (hstop : 1 ≤ request.stop m ∧ request.stop m ≤ m.elements.length) :
    ∃ edited outcome plain, ofLattice (lattice.withOverrides request.overrides) = .ok edited ∧
      (simulate m request).result = .ok outcome ∧
      (simulate edited request.plain).result = .ok plain ∧
      outcome.state = plain.state ∧
      outcome.trace = plain.trace.filter fun entry => 1 ≤ entry.1 := by
  obtain ⟨es, hm⟩ := List.head?_eq_some_iff.1 hfirst
  obtain ⟨s, hs⟩ : ∃ s, e.action = .source s := by
    rw [Element.type] at hsource
    cases haction : e.action with
    | source s => exact ⟨s, rfl⟩
    | _ =>
      rw [haction] at hsource
      cases hsource
  have hedited := ofLattice_withOverrides h hm hs request.overrides
  have hone := start_of_source (isNumbered_of_ofLattice h) hm hs hoverrides hstart
  have hfits : request.Fits m := by rwa [Request.Fits, hone]
  obtain ⟨hstate, htrace⟩ := outcome_plain (isNumbered_of_ofLattice hedited) hm hs rfl rfl hlength
    rfl hone hstart hfits
  refine ⟨_, _, _, hedited, ?_, ?_, hstate, htrace⟩
  · rw [simulate_of_fits request hfits]
  · rw [simulate_of_fits request.plain]
    rw [Request.Fits, start_plain hstart]
    refine ⟨Nat.zero_le _, ?_⟩
    rw [hm] at hstop
    simpa [Request.plain, Request.stop, hm] using hstop.2

/-- A beam of another energy and another offset through the first three elements of a cell. -/
theorem cavityCell_withOverrides :
    let request : Request := {
      overrides := { kineticEnergy := some 600000.0, centroid := some (.ofFn fun _ => 0.5) }
      stop? := some 3
      trace := true }
    ∃ m edited outcome plain, ofLattice cavityCell = .ok m ∧
      ofLattice (cavityCell.withOverrides request.overrides) = .ok edited ∧
      (simulate m request).result = .ok outcome ∧
      (simulate edited request.plain).result = .ok plain ∧
      outcome.state = plain.state ∧
      outcome.trace = plain.trace.filter fun entry => 1 ≤ entry.1 := by
  intro request
  have h : ofLattice cavityCell = .ok _ := rfl
  obtain ⟨edited, outcome, plain, hplain⟩ := @simulate_withOverrides cavityCell _ _ request h
    rfl rfl (by decide +kernel) rfl rfl ⟨Nat.le_of_ble_eq_true rfl, Nat.le_of_ble_eq_true rfl⟩
  exact ⟨_, edited, outcome, plain, h, hplain⟩

end Simulation

end BeamEnvelope
