import BeamEnvelope.Proofs.Machine.Propagation

/-!
# Machines of joined lattices

Whether a component is an element, and which one, does not depend on where it stands: the element
only bears the index of its place. So a lattice becomes a machine if each of its components is an
element, a refusal names the first one that is none, and the machine of two rows of components in
one lattice carries a beam as the machines of the two rows do one after the other.
-/

namespace BeamEnvelope

variable {K : Type}

namespace Element

def withIndex (e : Element K) (index : Nat) : Element K := { e with index }

/-- Elements in a row, with the indices from `n` on. -/
def numbered (n : Nat) (es : List (Element K)) : List (Element K) :=
  (es.zipIdx n).map fun p => p.1.withIndex p.2

@[simp] theorem numbered_nil (n : Nat) : numbered n ([] : List (Element K)) = [] := rfl

@[simp] theorem numbered_cons (n : Nat) (e : Element K) (es : List (Element K)) :
    numbered n (e :: es) = e.withIndex n :: numbered (n + 1) es := rfl

theorem map_index_numbered (n : Nat) (es : List (Element K)) :
    (numbered n es).map index = List.range' n es.length := by
  induction es generalizing n with
  | nil => rfl
  | cons e es ih => simp [ih, withIndex, List.range'_succ]

theorem map_name_numbered (n : Nat) (es : List (Element K)) :
    (numbered n es).map name = es.map name := by
  induction es generalizing n with
  | nil => rfl
  | cons e es ih => simp [ih, withIndex]

variable [Scalar K] (frequency : K)

/-- A beam does not see the index of an element. -/
@[simp] theorem advance_withIndex (e : Element K) (index : Nat) (st : State K) :
    (e.withIndex index).advance frequency st = e.advance frequency st := rfl

@[simp] theorem warnings_withIndex (e : Element K) (index : Nat) (st : State K) :
    (e.withIndex index).warnings frequency st = e.warnings frequency st := rfl

theorem foldl_numbered (n : Nat) (es : List (Element K)) (st : State K) :
    (numbered n es).foldl (fun st e => e.advance frequency st) st =
      es.foldl (fun st e => e.advance frequency st) st := by
  induction es generalizing n st with
  | nil => rfl
  | cons e es ih => simp [ih]

theorem warnings_numbered (n : Nat) (es : List (Element K)) (st : State K) :
    ((passages frequency st (numbered n es)).flatMap fun p =>
        p.element.warnings frequency p.before) =
      (passages frequency st es).flatMap fun p => p.element.warnings frequency p.before := by
  induction es generalizing n st with
  | nil => rfl
  | cons e es ih => simp [passages, ih]

end Element

namespace Component

variable (globals : Dictionary Value) (c : Component)

theorem element_eq_map (index : Nat) :
    c.element globals index = (·.withIndex index) <$> c.element globals 0 := by
  unfold element
  split
  · simp only [map_bind, map_pure]
    rfl
  · rfl

variable {globals c} {index : Nat}

/-- Whether the component is refused for this cause wherever it stands. -/
def Offends (globals : Dictionary Value) (c : Component) (cause : Element.Refusal) : Prop :=
  ∀ index, c.element globals index = .error cause

def Fits (globals : Dictionary Value) (c : Component) : Prop :=
  ∀ index, ∃ e, c.element globals index = .ok e

theorem element_eq_ok {e : Element Float} :
    c.element globals index = .ok e ↔ ∃ b, c.element globals 0 = .ok b ∧ b.withIndex index = e := by
  rw [element_eq_map, map_eq_ok]

theorem fits_of_element_eq_ok {e : Element Float} (h : c.element globals index = .ok e) :
    c.Fits globals := by
  intro other
  obtain ⟨b, hb, -⟩ := element_eq_ok.1 h
  exact ⟨_, element_eq_ok.2 ⟨b, hb, rfl⟩⟩

theorem offends_of_element_eq_error {cause : Element.Refusal}
    (h : c.element globals index = .error cause) : c.Offends globals cause := by
  intro other
  rw [element_eq_map] at h ⊢
  cases hplain : c.element globals 0 with
  | ok b =>
    rw [hplain] at h
    cases h
  | error cause' =>
    rw [hplain] at h
    cases h
    rfl

theorem name_of_element_eq_ok {e : Element Float} (h : c.element globals index = .ok e) :
    e.name = c.name := by
  rw [element] at h
  split at h
  · obtain ⟨length, -, h⟩ := bind_eq_ok.1 h
    obtain ⟨action, -, h⟩ := bind_eq_ok.1 h
    obtain ⟨aperture, -, h⟩ := bind_eq_ok.1 h
    cases h
    rfl
  · cases h

end Component

namespace Machine

variable {globals : Dictionary Value} {cs ds : List Component} {es : List (Element Float)} {n : Nat}

/-- The elements of a row are those of its components, numbered. -/
theorem elementsFrom_eq_ok : elementsFrom globals n cs = .ok es ↔
    ∃ bs, cs.mapM (·.element globals 0) = .ok bs ∧ es = Element.numbered n bs := by
  induction cs generalizing n es with
  | nil => simp [elementsFrom, pure, Except.pure, eq_comm]
  | cons c cs ih =>
    rw [elementsFrom, List.mapM_cons]
    cases hc : c.element globals n with
    | error cause =>
      have hplain := Component.offends_of_element_eq_error hc 0
      simp [hplain, bind, Except.bind]
    | ok e =>
      obtain ⟨b, hb, rfl⟩ := Component.element_eq_ok.1 hc
      rw [bind_of_eq_ok hb]
      simp only [bind_eq_ok, ih]
      constructor
      · rintro ⟨_, ⟨bs, hbs, rfl⟩, h⟩
        cases h
        exact ⟨b :: bs, ⟨bs, hbs, rfl⟩, rfl⟩
      · rintro ⟨_, ⟨bs, hbs, h⟩, rfl⟩
        cases h
        exact ⟨_, ⟨bs, hbs, rfl⟩, rfl⟩

/-- A row is refused for its first component that is no element. -/
theorem exists_of_elementsFrom_eq_error {r : Refusal} (h : elementsFrom globals n cs = .error r) :
    ∃ front c behind cause, cs = front ++ c :: behind ∧ (∀ d ∈ front, d.Fits globals) ∧
      c.Offends globals cause ∧ r = .element (n + front.length) c.name cause := by
  induction cs generalizing n with
  | nil => cases h
  | cons c cs ih =>
    rw [elementsFrom] at h
    cases hc : c.element globals n with
    | error cause =>
      rw [hc] at h
      cases h
      exact ⟨[], c, cs, cause, rfl, by simp, Component.offends_of_element_eq_error hc, rfl⟩
    | ok e =>
      rw [hc] at h
      dsimp only at h
      cases hrest : elementsFrom globals (n + 1) cs with
      | ok es =>
        rw [bind_of_eq_ok hrest] at h
        cases h
      | error r' =>
        rw [bind_of_eq_error hrest] at h
        cases h
        obtain ⟨front, d, behind, cause, rfl, hfront, hd, rfl⟩ := ih hrest
        refine ⟨c :: front, d, behind, cause, rfl, ?_, hd, ?_⟩
        · exact List.forall_mem_cons.2 ⟨Component.fits_of_element_eq_ok hc, hfront⟩
        · rw [List.length_cons, Nat.add_assoc, Nat.add_comm 1]

theorem map_name_of_mapM (h : cs.mapM (·.element globals 0) = .ok es) :
    es.map Element.name = cs.map Component.name := by
  rw [mapM_eq_ok] at h
  induction h with
  | nil => rfl
  | cons he _ ih => rw [List.map_cons, List.map_cons, ih, Component.name_of_element_eq_ok he]

theorem mapM_element_append {bs : List (Element Float)} :
    (cs ++ ds).mapM (·.element globals 0) = .ok bs ↔ ∃ es fs,
      cs.mapM (·.element globals 0) = .ok es ∧ ds.mapM (·.element globals 0) = .ok fs ∧
        bs = es ++ fs := by
  simp only [List.mapM_append, bind_eq_ok, pure, Except.pure, Except.ok.injEq]
  grind

variable {name : String} {frequency : Float} {bs : List (Element Float)} {m : Machine Float}
  {st : State Float}

theorem propagate_numbered :
    (⟨name, frequency, Element.numbered 0 bs⟩ : Machine Float).propagate {} st =
      bs.foldl (fun st e => e.advance frequency st) st := by
  rw [propagate_eq_foldl, Span.select_all, Element.foldl_numbered]

theorem warnings_numbered :
    (⟨name, frequency, Element.numbered 0 bs⟩ : Machine Float).warnings {} st =
      (BeamEnvelope.passages frequency st bs).flatMap fun p =>
        p.element.warnings frequency p.before := by
  rw [warnings, passages, Span.select_all, Element.warnings_numbered]

/-- What machines of lattices with these globals owe to the rows of components. The names of the
lattices may differ. -/
structure Composes (globals : Dictionary Value) (cs ds : List Component) : Prop where
  built (name name₁ name₂ : String) : (∃ m, ofLattice ⟨name, globals, cs ++ ds⟩ = .ok m) ↔
    (∃ m₁, ofLattice ⟨name₁, globals, cs⟩ = .ok m₁) ∧ ∃ m₂, ofLattice ⟨name₂, globals, ds⟩ = .ok m₂
  /-- A refusal names the first component that is no element, and its place. -/
  refused {name : String} {r : Refusal} (h : ofLattice ⟨name, globals, cs ++ ds⟩ = .error r) :
    ∃ front c behind cause, cs ++ ds = front ++ c :: behind ∧ (∀ d ∈ front, d.Fits globals) ∧
      c.Offends globals cause ∧ r = .element front.length c.name cause
  numbered {name : String} {m : Machine Float} (h : ofLattice ⟨name, globals, cs ++ ds⟩ = .ok m) :
    m.elements.map Element.index = List.range (cs ++ ds).length ∧
      m.elements.map Element.name = (cs ++ ds).map Component.name
  propagated {name name₁ name₂ : String} {m m₁ m₂ : Machine Float}
    (h : ofLattice ⟨name, globals, cs ++ ds⟩ = .ok m) (h₁ : ofLattice ⟨name₁, globals, cs⟩ = .ok m₁)
    (h₂ : ofLattice ⟨name₂, globals, ds⟩ = .ok m₂) (st : State Float) :
    m.propagate {} st = m₂.propagate {} (m₁.propagate {} st)
  warned {name name₁ name₂ : String} {m m₁ m₂ : Machine Float}
    (h : ofLattice ⟨name, globals, cs ++ ds⟩ = .ok m) (h₁ : ofLattice ⟨name₁, globals, cs⟩ = .ok m₁)
    (h₂ : ofLattice ⟨name₂, globals, ds⟩ = .ok m₂) (st : State Float) :
    m.warnings {} st = m₁.warnings {} st ++ m₂.warnings {} (m₁.propagate {} st)

section

variable (htype : globals.get? "sim_type" = some (.text simulationType))
include htype

theorem checkSimulationType_eq_ok : checkSimulationType globals = .ok () := by
  rw [checkSimulationType, htype]
  rfl

theorem ofLattice_eq_ok : ofLattice ⟨name, globals, cs⟩ = .ok m ↔
    ∃ bs, cs.mapM (·.element globals 0) = .ok bs ∧
      m = ⟨name, (sampling globals).1, Element.numbered 0 bs⟩ := by
  rw [ofLattice, bind_of_eq_ok (checkSimulationType_eq_ok htype)]
  simp only [bind_eq_ok, elementsFrom_eq_ok]
  constructor
  · rintro ⟨_, ⟨bs, hbs, rfl⟩, h⟩
    cases h
    exact ⟨bs, hbs, rfl⟩
  · rintro ⟨bs, hbs, rfl⟩
    exact ⟨_, ⟨bs, hbs, rfl⟩, rfl⟩

/-- The elements of a machine of two rows are those of the machines of the rows, numbered anew. -/
theorem exists_rows_of_append {name₁ name₂ : String} {m₁ m₂ : Machine Float}
    (h : ofLattice ⟨name, globals, cs ++ ds⟩ = .ok m) (h₁ : ofLattice ⟨name₁, globals, cs⟩ = .ok m₁)
    (h₂ : ofLattice ⟨name₂, globals, ds⟩ = .ok m₂) : ∃ es fs,
      m = ⟨name, (sampling globals).1, Element.numbered 0 (es ++ fs)⟩ ∧
      m₁ = ⟨name₁, (sampling globals).1, Element.numbered 0 es⟩ ∧
      m₂ = ⟨name₂, (sampling globals).1, Element.numbered 0 fs⟩ := by
  obtain ⟨bs, hbs, rfl⟩ := (ofLattice_eq_ok htype).1 h
  obtain ⟨es, hes, rfl⟩ := (ofLattice_eq_ok htype).1 h₁
  obtain ⟨fs, hfs, rfl⟩ := (ofLattice_eq_ok htype).1 h₂
  have hrows := mapM_element_append.2 ⟨es, fs, hes, hfs, rfl⟩
  obtain rfl : bs = es ++ fs := Except.ok.inj (hbs.symm.trans hrows)
  exact ⟨es, fs, rfl, rfl, rfl⟩

/-- Machines compose like the rows of components that they are built from. -/
theorem composes_of_simulationType (cs ds : List Component) : Composes globals cs ds where
  built name name₁ name₂ := by
    simp only [ofLattice_eq_ok htype, mapM_element_append]
    grind
  refused {name r} h := by
    rw [ofLattice, bind_of_eq_ok (checkSimulationType_eq_ok htype)] at h
    cases helements : elementsFrom globals 0 (cs ++ ds) with
    | ok es =>
      rw [bind_of_eq_ok helements] at h
      cases h
    | error r' =>
      rw [bind_of_eq_error helements] at h
      cases h
      simpa using exists_of_elementsFrom_eq_error helements
  numbered {name m} h := by
    obtain ⟨bs, hbs, rfl⟩ := (ofLattice_eq_ok htype).1 h
    have hnames := map_name_of_mapM hbs
    have hlength : bs.length = (cs ++ ds).length := by simpa using congrArg List.length hnames
    constructor
    · rw [Element.map_index_numbered, hlength, List.range_eq_range']
    · rw [Element.map_name_numbered, hnames]
  propagated h h₁ h₂ st := by
    obtain ⟨es, fs, rfl, rfl, rfl⟩ := exists_rows_of_append htype h h₁ h₂
    rw [propagate_numbered, propagate_numbered, propagate_numbered, List.foldl_append]
  warned h h₁ h₂ st := by
    obtain ⟨es, fs, rfl, rfl, rfl⟩ := exists_rows_of_append htype h h₁ h₂
    rw [warnings_numbered, warnings_numbered, warnings_numbered, propagate_numbered,
      passages_append, List.flatMap_append]

end

example : ofLattice ⟨"cell", .ofList [("sim_type", .text simulationType)],
    [⟨"d", "drift", ∅⟩, ⟨"g", "generic", ∅⟩, ⟨"m", "mark", ∅⟩]⟩ =
      .error (.element 1 "g" (.missing "transfer")) := rfl

/-- A source and a quadrupole whose strength depends on the beam, and a cavity with a drift behind
it. -/
def entrance : List Component := [
  ⟨"s", "source", .ofList [("IonZ", .scalar 0.5), ("IonEk", .scalar 500000.0)]⟩,
  ⟨"q", "quadrupole", .ofList [("L", .scalar 0.25), ("B2", .scalar 4.0)]⟩]

def gap : List Component := [
  ⟨"gap", "rfcavity", .ofList [("L", .scalar 0.5), ("f", .scalar 80.5e6)]⟩,
  ⟨"d", "drift", .ofList [("L", .scalar 0.25)]⟩]

def ionGlobals : Dictionary Value :=
  .ofList [("sim_type", .text simulationType), ("IonEs", .scalar 931494000.0)]

theorem entrance_gap_compose : ionGlobals.get? "sim_type" = some (.text simulationType) ∧
    Composes ionGlobals entrance gap ∧
    ∃ m m₁ m₂, ofLattice ⟨"cell", ionGlobals, entrance ++ gap⟩ = .ok m ∧
      ofLattice ⟨"front", ionGlobals, entrance⟩ = .ok m₁ ∧
      ofLattice ⟨"back", ionGlobals, gap⟩ = .ok m₂ ∧
      (∀ st, m.propagate {} st = m₂.propagate {} (m₁.propagate {} st)) ∧
      ∀ st, m.warnings {} st = m₁.warnings {} st ++ m₂.warnings {} (m₁.propagate {} st) := by
  have hcompose : Composes ionGlobals entrance gap := composes_of_simulationType rfl entrance gap
  have h : ofLattice ⟨"cell", ionGlobals, entrance ++ gap⟩ = .ok _ := rfl
  have h₁ : ofLattice ⟨"front", ionGlobals, entrance⟩ = .ok _ := rfl
  have h₂ : ofLattice ⟨"back", ionGlobals, gap⟩ = .ok _ := rfl
  exact ⟨rfl, hcompose, _, _, _, h, h₁, h₂, hcompose.propagated h h₁ h₂, hcompose.warned h h₁ h₂⟩

end Machine

end BeamEnvelope
