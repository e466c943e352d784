import BeamEnvelope.Proofs.Dictionary
import BeamEnvelope.Proofs.Machine.Tracks

/-!
# Strengths of magnets

The strength of a quadrupole or a solenoid is looked up under one key after another, and each key in
the component before the globals. So a normalized strength among the globals comes before a field of
the component, and nothing else among the globals comes before what the component gives itself.
-/

namespace BeamEnvelope

/-- The key of the field that gives the strength of magnets of a type. -/
def ElementType.fieldKey? : ElementType → Option String
  | .quadrupole => some "B2"
  | .solenoid => some "B"
  | _ => none

def Action.strength? {K : Type} : Action K → Option (Strength K)
  | .quadrupole s | .solenoid s => some s
  | _ => none

namespace Component

variable {globals globals' : Dictionary Value} {c : Component} {normalized field key : String}
  {type : ElementType} {index : Nat}

theorem lookup?_of_own {v : Value} (h : c.params.get? key = some v) :
    c.lookup? globals key = some v := by
  rw [lookup?, h, Option.some_or]

theorem lookup?_of_get?_eq_none (h : c.params.get? key = none) :
    c.lookup? globals key = globals.get? key := by
  rw [lookup?, h, Option.none_or]

theorem scalar?_of_lookup?_eq_none (h : c.lookup? globals key = none) :
    c.scalar? globals key = .ok none := by
  rw [scalar?, h, demand]

theorem scalar?_of_lookup? {v : Value} {found : Option Float}
    (hv : c.lookup? globals key = some v) (h : c.scalar? globals key = .ok found) :
    ∃ x, v = .scalar x ∧ found = some x := by
  rw [scalar?, hv] at h
  cases v with
  | scalar x =>
    cases h
    exact ⟨x, rfl, rfl⟩
  | vector xs => cases h
  | text s => cases h

theorem lookup?_of_scalar?_eq_none (h : c.scalar? globals key = .ok none) :
    c.lookup? globals key = none := by
  cases hv : c.lookup? globals key with
  | none => rfl
  | some v =>
    obtain ⟨x, -, hx⟩ := scalar?_of_lookup? hv h
    cases hx

/-- A normalized strength comes first. -/
theorem strength_of_lookup? {v : Value} {s : Strength Float}
    (hv : c.lookup? globals normalized = some v)
    (h : c.strength globals normalized field = .ok s) :
    ∃ k, v = .scalar k ∧ s = .normalized k := by
  obtain ⟨found, hfound, h⟩ := bind_eq_ok.1 h
  obtain ⟨k, rfl, rfl⟩ := scalar?_of_lookup? hv hfound
  cases h
  exact ⟨k, rfl, rfl⟩

/-- A field comes second. -/
theorem strength_of_lookup?_eq_none {v : Value} {s : Strength Float}
    (hnone : c.lookup? globals normalized = none) (hv : c.lookup? globals field = some v)
    (h : c.strength globals normalized field = .ok s) : ∃ b, v = .scalar b ∧ s = .field b := by
  rw [strength, bind_of_eq_ok (scalar?_of_lookup?_eq_none hnone)] at h
  obtain ⟨found, hfound, h⟩ := bind_eq_ok.1 h
  obtain ⟨b, rfl, rfl⟩ := scalar?_of_lookup? hv hfound
  cases h
  exact ⟨b, rfl, rfl⟩

/-- Nothing but the two look-ups counts, and the second one only where the first one finds
nothing. -/
theorem strength_congr (hnormalized : c.lookup? globals normalized = c.lookup? globals' normalized)
    (hfield : c.lookup? globals normalized = none →
      c.lookup? globals field = c.lookup? globals' field) :
    c.strength globals normalized field = c.strength globals' normalized field := by
  have hscalar : c.scalar? globals normalized = c.scalar? globals' normalized := by
    rw [scalar?, scalar?, hnormalized]
  rw [strength, strength, ← hscalar]
  cases hfound : c.scalar? globals normalized with
  | error cause => rfl
  | ok found =>
    cases found with
    | some k => rfl
    | none =>
      have hsecond := hfield (lookup?_of_scalar?_eq_none hfound)
      rw [bind_of_eq_ok rfl, bind_of_eq_ok rfl, scalar?, scalar?, hsecond]

/-- What gives a magnet its strength, if the component gives one or a field itself. -/
structure GivesStrength (globals : Dictionary Value) (c : Component) (field : String)
    (s : Strength Float) : Prop where
  ofNormalized {v : Value} : c.params.get? "K" = some v → ∃ k, v = .scalar k ∧ s = .normalized k
  ofField {v : Value} : c.params.get? "K" = none → globals.get? "K" = none →
    c.params.get? field = some v → ∃ b, v = .scalar b ∧ s = .field b
  /-- A global strength comes before the component's own field. -/
  ofGlobal {v w : Value} : c.params.get? "K" = none → globals.get? "K" = some w →
    c.params.get? field = some v → ∃ k, w = .scalar k ∧ s = .normalized k

theorem givesStrength_of_strength {s : Strength Float} (h : c.strength globals "K" field = .ok s) :
    c.GivesStrength globals field s where
  ofNormalized hown := strength_of_lookup? (lookup?_of_own hown) h
  ofField hown hglobal hfield :=
    strength_of_lookup?_eq_none ((lookup?_of_get?_eq_none hown).trans hglobal)
      (lookup?_of_own hfield) h
  ofGlobal hown hglobal _ := strength_of_lookup? ((lookup?_of_get?_eq_none hown).trans hglobal) h

/-- Whether a change of the globals keeps what gives a magnet its strength. -/
def KeepsStrength (globals globals' : Dictionary Value) (c : Component) (field : String) : Prop :=
  c.params.contains "K" = true ∨
    c.params.contains field = true ∧ globals'.get? "K" = globals.get? "K"

theorem KeepsStrength.strength_eq (h : KeepsStrength globals globals' c field) :
    c.strength globals "K" field = c.strength globals' "K" field := by
  rcases h with hown | ⟨hfield, hglobal⟩
  · obtain ⟨v, hv⟩ := Option.isSome_iff_exists.1 hown
    have hlookup : c.lookup? globals "K" = some v := lookup?_of_own hv
    refine strength_congr (hlookup.trans (lookup?_of_own hv).symm) fun hnone => ?_
    rw [hlookup] at hnone
    cases hnone
  · obtain ⟨v, hv⟩ := Option.isSome_iff_exists.1 hfield
    refine strength_congr ?_ fun _ => (lookup?_of_own hv).trans (lookup?_of_own hv).symm
    rw [lookup?, lookup?, hglobal]

/-- The globals enter a magnet through its strength alone. -/
theorem element_congr (htype : ElementType.ofName? c.kind = some type)
    (hfield : type.fieldKey? = some field)
    (h : c.strength globals "K" field = c.strength globals' "K" field) :
    c.element globals index = c.element globals' index := by
  have haction (length : Float) : c.action globals length type = c.action globals' length type := by
    cases type with
    | quadrupole | solenoid =>
      cases hfield
      rw [action, action, h]
    | marker | drift | bend | cavity | source | generic => cases hfield
  simp only [element, htype, haction]

theorem exists_strength_of_element {e : Element Float}
    (htype : ElementType.ofName? c.kind = some type) (hfield : type.fieldKey? = some field)
    (h : c.element globals index = .ok e) :
    ∃ s, c.strength globals "K" field = .ok s ∧ e.action.strength? = some s := by
  simp only [element, htype] at h
  obtain ⟨length, -, h⟩ := bind_eq_ok.1 h
  obtain ⟨action, haction, h⟩ := bind_eq_ok.1 h
  obtain ⟨aperture, -, h⟩ := bind_eq_ok.1 h
  cases h
  cases type with
  | quadrupole | solenoid =>
    cases hfield
    obtain ⟨s, hs, rfl⟩ := map_eq_ok.1 haction
    exact ⟨s, hs, rfl⟩
  | marker | drift | bend | cavity | source | generic => cases hfield

end Component

namespace Machine

theorem exists_getElem?_of_elementsFrom {globals : Dictionary Value} {n i : Nat}
    {cs : List Component} {es : List (Element Float)} {c : Component}
    (h : elementsFrom globals n cs = .ok es) (hc : cs[i]? = some c) :
    ∃ e, c.element globals (n + i) = .ok e ∧ es[i]? = some e := by
  induction cs generalizing n i es with
  | nil => cases hc
  | cons d cs ih =>
    obtain ⟨e, rest, he, hrest, rfl⟩ := elementsFrom_cons_eq_ok h
    cases i with
    | zero =>
      cases hc
      exact ⟨e, he, rfl⟩
    | succ i =>
      rw [← Nat.add_assoc, Nat.add_right_comm]
      exact ih hrest hc

/-- Every component is built, and into the element at its own place. -/
theorem exists_getElem?_of_ofLattice {lattice : Lattice} {m : Machine Float} {i : Nat}
    {c : Component} (h : ofLattice lattice = .ok m) (hc : lattice.components[i]? = some c) :
    ∃ e, c.element lattice.globals i = .ok e ∧ m.elements[i]? = some e := by
  obtain ⟨-, -, h⟩ := bind_eq_ok.1 h
  obtain ⟨es, hes, h⟩ := bind_eq_ok.1 h
  cases h
  obtain ⟨e, he, hget⟩ := exists_getElem?_of_elementsFrom hes hc
  rw [Nat.zero_add] at he
  exact ⟨e, he, hget⟩

/-- The strength of a magnet that gives a strength or a field itself, and the changes of the globals
that leave the whole magnet as it is. -/
theorem ofLattice_givesStrength {lattice : Lattice} {m : Machine Float} {i : Nat} {c : Component}
    {type : ElementType} {field : String} (h : ofLattice lattice = .ok m)
    (hc : lattice.components[i]? = some c) (htype : ElementType.ofName? c.kind = some type)
    (hfield : type.fieldKey? = some field) :
    ∃ e s, m.elements[i]? = some e ∧ e.action.strength? = some s ∧
      c.GivesStrength lattice.globals field s ∧
      ∀ globals m', ofLattice { lattice with globals } = .ok m' →
        Component.KeepsStrength lattice.globals globals c field → m'.elements[i]? = some e := by
  obtain ⟨e, he, hget⟩ := exists_getElem?_of_ofLattice h hc
  obtain ⟨s, hs, hstrength⟩ := Component.exists_strength_of_element htype hfield he
  refine ⟨e, s, hget, hstrength, Component.givesStrength_of_strength hs,
    fun globals m' h' hkeeps => ?_⟩
  obtain ⟨e', he', hget'⟩ := exists_getElem?_of_ofLattice h' hc
  rw [← Component.element_congr htype hfield hkeeps.strength_eq] at he'
  obtain rfl := Except.ok.inj (he.symm.trans he')
  exact hget'

/-- A quadrupole with a strength and a field, and a solenoid with a field. -/
def magnetCell (globals : List (String × Value)) : Lattice where
  name := "cell"
  globals := .ofList (("sim_type", .text simulationType) :: globals)
  components := [
    ⟨"q", "quadrupole", .ofList [("L", .scalar 0.25), ("K", .scalar 1.5), ("B2", .scalar 3.5)]⟩,
    ⟨"s", "solenoid", .ofList [("L", .scalar 0.5), ("B", .scalar 2.5)]⟩]

theorem magnetCell_givesStrength : ∃ m m', ofLattice (magnetCell [("B", .scalar 1.0)]) = .ok m ∧
    ofLattice (magnetCell [("B2", .scalar 4.0)]) = .ok m' ∧
    ∃ e s, m.elements[1]? = some e ∧ m'.elements[1]? = some e ∧ e.action.strength? = some s ∧
      s = .field 2.5 := by
  have h : ofLattice (magnetCell [("B", .scalar 1.0)]) = .ok _ := rfl
  have h' : ofLattice (magnetCell [("B2", .scalar 4.0)]) = .ok _ := rfl
  have hc : (magnetCell [("B", .scalar 1.0)]).components[1]? = some _ := rfl
  obtain ⟨e, s, he, hs, hgives, hkeeps⟩ := ofLattice_givesStrength h hc rfl rfl
  have hown : Dictionary.get? (.ofList [("L", .scalar 0.5), ("B", .scalar 2.5)]) "B" =
    some (Value.scalar 2.5) := rfl
  obtain ⟨b, hb, rfl⟩ := hgives.ofField rfl rfl hown
  cases hb
  exact ⟨_, _, h, h', e, _, he, hkeeps _ _ h' (.inr ⟨rfl, rfl⟩), hs, rfl⟩

/-- Scalars come, go or change under the keys of strengths and fields; all other globals stay. -/
def EditsStrengths (globals globals' : Dictionary Value) : Prop :=
  ∀ key, globals'.get? key = globals.get? key ∨
    key ∈ ["K", "B2", "B"] ∧ ∀ v ∈ [globals.get? key, globals'.get? key],
      v.all fun v => v.scalar?.isSome

/-- A quadrupole with a field of its own. -/
def gradientCell (globals : List (String × Value)) : Lattice where
  name := "cell"
  globals := .ofList (("sim_type", .text simulationType) :: globals)
  components := [⟨"q", "quadrupole", .ofList [("L", .scalar 0.25), ("B2", .scalar 3.5)]⟩]

theorem editsStrengths_gradientCell :
    EditsStrengths (gradientCell []).globals (gradientCell [("K", .scalar 2.0)]).globals := by
  intro key
  by_cases hkey : key = "K"
  · subst hkey
    exact .inr ⟨by decide, by decide⟩
  · left
    have hne : (key == "K") = false := beq_eq_false_iff_ne.2 hkey
    simp [gradientCell, Dictionary.get?_ofList, List.lookup_cons, hne]

/-- A magnet's own parameters do not determine its strength. -/
theorem gradientCell_overridden : ¬ ∀ (lattice : Lattice) (globals : Dictionary Value)
    (m m' : Machine Float) (i : Nat) (c : Component) (type : ElementType) (field : String),
    EditsStrengths lattice.globals globals → ofLattice lattice = .ok m →
    ofLattice { lattice with globals } = .ok m' → lattice.components[i]? = some c →
    ElementType.ofName? c.kind = some type → type.fieldKey? = some field →
    (c.params.contains "K" ∨ c.params.contains field) →
      (m'.elements[i]?.bind fun e => e.action.strength?) =
        m.elements[i]?.bind fun e => e.action.strength? := by
  intro hall
  have h : ofLattice (gradientCell []) = .ok _ := rfl
  have h' : ofLattice (gradientCell [("K", .scalar 2.0)]) = .ok _ := rfl
  have hc : (gradientCell []).components[0]? = some _ := rfl
  have hstrength := hall (gradientCell []) (gradientCell [("K", .scalar 2.0)]).globals _ _ 0 _
    .quadrupole "B2" editsStrengths_gradientCell h h' hc rfl rfl (.inr rfl)
  -- the field of the component gives way to the global strength
  have hfield : some (Strength.normalized (2.0 : Float)) = some (.field 3.5) := hstrength
  cases hfield

end Machine

end BeamEnvelope
