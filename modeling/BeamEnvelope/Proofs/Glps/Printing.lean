import BeamEnvelope.Proofs.Dictionary
import BeamEnvelope.Proofs.Double.Value
import BeamEnvelope.Proofs.Glps.Lexing
import BeamEnvelope.Proofs.Result

/-!
# Which lattices are printed, and as what

Printing refuses or writes. What it writes does not depend on how it refuses, so the source of a
lattice is given on its own, and a lattice is printed exactly if it is printable, with that source.
Components of one name are compared as numbers are, and only the first of them is written.
-/

namespace BeamEnvelope

/-- Numbers that are finite, or a text that can stand between quotes. -/
def Value.IsPrintable : Value → Prop
  | .scalar x => x.isFinite = true
  | .vector xs => ∀ x ∈ xs, x.isFinite = true
  | .text s => Glps.IsQuotable s

def IsPrintableEntry (entry : String × Value) : Prop :=
  Glps.isIdentifier entry.1 = true ∧ entry.2.IsPrintable

structure Component.IsPrintable (c : Component) : Prop where
  name : Glps.isIdentifier c.name = true
  kind : Glps.isIdentifier c.kind = true
  params : ∀ entry ∈ c.params.entries, IsPrintableEntry entry

namespace Glps

variable {owner text : String} {v : Value} {c d : Component}

def valueSource : Value → String
  | .scalar x => numberText x
  | .vector xs => "[" ++ ", ".intercalate (xs.map numberText) ++ "]"
  | .text s => "\"" ++ s ++ "\""

theorem identifier_eq_ok {name : String} :
    identifier name = .ok text ↔ isIdentifier name = true ∧ text = name := by
  unfold identifier
  split
  · rename_i h
    simp [h, eq_comm]
  · rename_i h
    simp [h]

theorem number_eq_ok {x : Float} :
    number owner x = .ok text ↔ x.isFinite = true ∧ text = numberText x := by
  unfold number
  split
  · rename_i h
    simp [h, eq_comm]
  · rename_i h
    simp [h]

theorem valueText_eq_ok :
    valueText owner v = .ok text ↔ v.IsPrintable ∧ text = valueSource v := by
  cases v with
  | scalar x => exact number_eq_ok
  | vector xs =>
    simp only [valueText, bind_eq_ok, mapM_eq_ok_map fun x y => number_eq_ok]
    constructor
    · rintro ⟨_, ⟨hxs, rfl⟩, h⟩
      cases h
      exact ⟨hxs, rfl⟩
    · rintro ⟨hxs, rfl⟩
      exact ⟨_, ⟨hxs, rfl⟩, rfl⟩
  | text s =>
    simp only [valueText, String.contains_char_eq, decide_eq_true_iff]
    by_cases hquote : '"' ∈ s.toList
    · simp [hquote, Value.IsPrintable, IsQuotable]
    · by_cases hnul : '\x00' ∈ s.toList
      · simp [hquote, hnul, Value.IsPrintable, IsQuotable]
      · simp [hquote, hnul, Value.IsPrintable, IsQuotable, valueSource, eq_comm]

def globalSource (entry : String × Value) : String :=
  entry.1 ++ " = " ++ valueSource entry.2 ++ ";\n"

theorem globalStatement_eq_ok {entry : String × Value} :
    globalStatement entry = .ok text ↔ IsPrintableEntry entry ∧ text = globalSource entry := by
  simp only [globalStatement, bind_eq_ok, identifier_eq_ok, valueText_eq_ok]
  constructor
  · rintro ⟨_, ⟨hname, rfl⟩, _, ⟨hvalue, rfl⟩, h⟩
    cases h
    exact ⟨⟨hname, hvalue⟩, rfl⟩
  · rintro ⟨⟨hname, hvalue⟩, rfl⟩
    exact ⟨_, ⟨hname, rfl⟩, _, ⟨hvalue, rfl⟩, rfl⟩

def parameterSource (entry : String × Value) : String :=
  ", " ++ entry.1 ++ " = " ++ valueSource entry.2

theorem parameterText_eq_ok {entry : String × Value} : parameterText owner entry = .ok text ↔
    IsPrintableEntry entry ∧ text = parameterSource entry := by
  simp only [parameterText, bind_eq_ok, identifier_eq_ok, valueText_eq_ok]
  constructor
  · rintro ⟨_, ⟨hname, rfl⟩, _, ⟨hvalue, rfl⟩, h⟩
    cases h
    exact ⟨⟨hname, hvalue⟩, rfl⟩
  · rintro ⟨⟨hname, hvalue⟩, rfl⟩
    exact ⟨_, ⟨hname, rfl⟩, _, ⟨hvalue, rfl⟩, rfl⟩

def componentSource (c : Component) : String :=
  c.name ++ ": " ++ c.kind ++ String.join (c.params.entries.map parameterSource) ++ ";\n"

theorem componentStatement_eq_ok :
    componentStatement c = .ok text ↔ c.IsPrintable ∧ text = componentSource c := by
  simp only [componentStatement, bind_eq_ok, identifier_eq_ok,
    mapM_eq_ok_map fun x y => parameterText_eq_ok]
  constructor
  · rintro ⟨_, ⟨hname, rfl⟩, _, ⟨hkind, rfl⟩, _, ⟨hparams, rfl⟩, h⟩
    cases h
    exact ⟨⟨hname, hkind, hparams⟩, rfl⟩
  · rintro ⟨⟨hname, hkind, hparams⟩, rfl⟩
    exact ⟨_, ⟨hname, rfl⟩, _, ⟨hkind, rfl⟩, _, ⟨hparams, rfl⟩, rfl⟩

theorem beq_map_of_forall {α : Type} [BEq α] {f : α → α} {xs : List α}
    (h : ∀ x ∈ xs, (f x == x) = true) : (xs.map f == xs) = true := by
  induction xs with
  | nil => rfl
  | cons x xs ih =>
    obtain ⟨hx, hxs⟩ := List.forall_mem_cons.1 h
    change (f x == x && xs.map f == xs) = true
    rw [hx, ih hxs]
    rfl

theorem beq_self_of_forall {α : Type} [BEq α] {xs : List α} (h : ∀ x ∈ xs, (x == x) = true) :
    (xs == xs) = true := by
  have hmap := @beq_map_of_forall α _ id xs h
  rwa [List.map_id] at hmap

theorem beq_self_value (h : v.IsPrintable) : (v == v) = true := by
  cases v with
  | scalar x => exact Double.beq_self h
  | vector xs => exact beq_self_of_forall fun x hx => Double.beq_self (h x hx)
  | text s => exact beq_self_eq_true s

theorem beq_self_entries {d : Dictionary Value} (h : ∀ entry ∈ d.entries, IsPrintableEntry entry) :
    (d == d) = true := by
  refine beq_self_of_forall fun entry hentry => ?_
  change (entry.1 == entry.1 && entry.2 == entry.2) = true
  rw [beq_self_eq_true, beq_self_value (h entry hentry).2]
  rfl

theorem beq_self_component (h : c.IsPrintable) : (c == c) = true := by
  change (c.name == c.name && (c.kind == c.kind && c.params == c.params)) = true
  rw [beq_self_eq_true, beq_self_eq_true, beq_self_entries h.params]
  rfl

theorem name_eq_of_beq (h : (d == c) = true) : d.name = c.name := by
  change (d.name == c.name && _) = true at h
  rw [Bool.and_eq_true, beq_iff_eq] at h
  exact h.1

/-- The components whose names are new, in a list with `seen` in front of it. -/
def firsts (seen : List Component) : List Component → List Component
  | [] => []
  | c :: rest =>
    match seen.find? (·.name == c.name) with
    | some _ => firsts seen rest
    | none => c :: firsts (c :: seen) rest

variable {seen components : List Component} {globals : Dictionary Value}

theorem find?_name_eq_none : seen.find? (·.name == c.name) = none ↔ c.name ∉ seen.map (·.name) := by
  simp [List.find?_eq_none]

theorem find?_name_eq_some (hseen : (seen.map (·.name)).Nodup) :
    seen.find? (·.name == c.name) = some d ↔ d ∈ seen ∧ d.name = c.name := by
  constructor
  · intro h
    exact ⟨List.mem_of_find?_eq_some h, by simpa using List.find?_some h⟩
  · rintro ⟨hd, hname⟩
    induction seen with
    | nil => cases hd
    | cons e seen ih =>
      obtain ⟨he, hseen⟩ := List.nodup_cons.1 hseen
      rcases List.mem_cons.1 hd with rfl | hd
      · rw [List.find?_cons_of_pos (by simpa using hname)]
      · have hne : e.name ≠ c.name := by
          intro heq
          exact he (List.mem_map.2 ⟨d, hd, hname.trans heq.symm⟩)
        rw [List.find?_cons_of_neg (by simpa using hne), ih hseen hd]

theorem firsts_of_mem (h : c.name ∈ seen.map (·.name)) :
    firsts seen (c :: components) = firsts seen components := by
  rw [firsts]
  cases hfind : seen.find? (·.name == c.name) with
  | none => exact absurd h (find?_name_eq_none.1 hfind)
  | some d => rfl

theorem firsts_of_not_mem (h : c.name ∉ seen.map (·.name)) :
    firsts seen (c :: components) = c :: firsts (c :: seen) components := by
  rw [firsts, find?_name_eq_none.2 h]

theorem mem_of_mem_firsts (h : c ∈ firsts seen components) : c ∈ components := by
  induction components generalizing seen with
  | nil => cases h
  | cons d rest ih =>
    by_cases hd : d.name ∈ seen.map (·.name)
    · rw [firsts_of_mem hd] at h
      exact List.mem_cons_of_mem _ (ih h)
    · rw [firsts_of_not_mem hd] at h
      rcases List.mem_cons.1 h with rfl | h
      · exact List.mem_cons_self
      · exact List.mem_cons_of_mem _ (ih h)

/-- No name is written twice. -/
theorem nodup_firsts (hseen : (seen.map (·.name)).Nodup) :
    ((seen ++ firsts seen components).map (·.name)).Nodup := by
  induction components generalizing seen with
  | nil => rwa [firsts, List.append_nil]
  | cons c rest ih =>
    by_cases hc : c.name ∈ seen.map (·.name)
    · rw [firsts_of_mem hc]
      exact ih hseen
    · rw [firsts_of_not_mem hc, List.map_append, List.map_cons, List.nodup_middle,
        ← List.map_append]
      exact @ih (c :: seen) (List.nodup_cons.2 ⟨hc, hseen⟩)

/-- Every name is written. -/
theorem exists_mem_firsts (h : c ∈ components) :
    ∃ d ∈ seen ++ firsts seen components, d.name = c.name := by
  induction components generalizing seen with
  | nil => cases h
  | cons e rest ih =>
    by_cases he : e.name ∈ seen.map (·.name)
    · rw [firsts_of_mem he]
      rcases List.mem_cons.1 h with rfl | h
      · obtain ⟨d, hd, hname⟩ := List.mem_map.1 he
        exact ⟨d, List.mem_append_left _ hd, hname⟩
      · exact ih h
    · rw [firsts_of_not_mem he]
      rcases List.mem_cons.1 h with rfl | h
      · exact ⟨c, by simp, rfl⟩
      · obtain ⟨d, hd, hname⟩ := @ih (e :: seen) h
        refine ⟨d, ?_, hname⟩
        simp only [List.cons_append, List.mem_cons, List.mem_append] at hd ⊢
        tauto

/-- What stands for a component in a list with `seen` in front is equal to it. -/
def Agrees (seen components : List Component) : Prop :=
  ∀ c ∈ components, ∃ d ∈ seen ++ firsts seen components, (d == c) = true

theorem agrees_cons_of_mem (hseen : (seen.map (·.name)).Nodup) (hd : d ∈ seen)
    (hname : d.name = c.name) :
    Agrees seen (c :: components) ↔ (d == c) = true ∧ Agrees seen components := by
  have hmem : c.name ∈ seen.map (·.name) := List.mem_map.2 ⟨d, hd, hname⟩
  rw [Agrees, Agrees, firsts_of_mem hmem, List.forall_mem_cons]
  refine and_congr_left fun _ => ?_
  constructor
  · rintro ⟨e, he, heq⟩
    have hsame := List.inj_on_of_nodup_map (nodup_firsts hseen) he (List.mem_append_left _ hd)
      ((name_eq_of_beq heq).trans hname.symm)
    exact hsame ▸ heq
  · exact fun heq => ⟨d, List.mem_append_left _ hd, heq⟩

theorem agrees_cons_of_not_mem (hc : c.name ∉ seen.map (·.name)) (hprintable : c.IsPrintable) :
    Agrees seen (c :: components) ↔ Agrees (c :: seen) components := by
  have hmem (d : Component) : d ∈ seen ++ c :: firsts (c :: seen) components ↔
      d ∈ c :: seen ++ firsts (c :: seen) components := by
    simp only [List.cons_append, List.mem_cons, List.mem_append]
    tauto
  rw [Agrees, Agrees, firsts_of_not_mem hc, List.forall_mem_cons]
  simp only [hmem]
  constructor
  · exact fun h => h.2
  · exact fun h => ⟨⟨c, by simp, beq_self_component hprintable⟩, h⟩

theorem componentStatements_eq_ok {texts : List String} (hseen : (seen.map (·.name)).Nodup) :
    componentStatements globals seen components = .ok texts ↔
      (∀ c ∈ firsts seen components, c.IsPrintable ∧ globals.contains c.name = false) ∧
      Agrees seen components ∧ texts = (firsts seen components).map componentSource := by
  -- on the components; those that have been written are in `seen`
  induction components generalizing seen texts with
  | nil =>
    constructor
    · intro h
      cases h
      exact ⟨by simp [firsts], by simp [Agrees], rfl⟩
    · rintro ⟨-, -, rfl⟩
      rfl
  | cons c rest ih =>
    rw [componentStatements]
    cases hfind : seen.find? (·.name == c.name) with
    | some d =>
      obtain ⟨hd, hname⟩ := (find?_name_eq_some hseen).1 hfind
      rw [firsts_of_mem (List.mem_map.2 ⟨d, hd, hname⟩), agrees_cons_of_mem hseen hd hname]
      dsimp only
      split
      · rename_i heq
        rw [ih hseen]
        simp [heq]
      · rename_i hne
        simp [hne]
    | none =>
      have hc := find?_name_eq_none.1 hfind
      have hnext : ((c :: seen).map (·.name)).Nodup := List.nodup_cons.2 ⟨hc, hseen⟩
      rw [firsts_of_not_mem hc, List.forall_mem_cons, List.map_cons]
      dsimp only
      split
      · rename_i hglobal
        simp [hglobal]
      · rename_i hglobal
        simp only [bind_eq_ok, componentStatement_eq_ok, ih hnext]
        constructor
        · rintro ⟨_, ⟨hprintable, rfl⟩, _, ⟨hrest, hagrees, rfl⟩, h⟩
          cases h
          exact ⟨⟨⟨hprintable, by simpa using hglobal⟩, hrest⟩,
            (agrees_cons_of_not_mem hc hprintable).2 hagrees, rfl⟩
        · rintro ⟨⟨⟨hprintable, -⟩, hrest⟩, hagrees, rfl⟩
          exact ⟨_, ⟨hprintable, rfl⟩, _,
            ⟨hrest, (agrees_cons_of_not_mem hc hprintable).1 hagrees, rfl⟩, rfl⟩

/-- The components that are written, one of each name. -/
def definitions (components : List Component) : List Component := firsts [] components

theorem nodup_definitions (components : List Component) :
    ((definitions components).map (·.name)).Nodup :=
  @nodup_firsts [] components List.nodup_nil

theorem exists_mem_definitions (h : c ∈ components) :
    ∃ d ∈ definitions components, d.name = c.name := @exists_mem_firsts c [] components h

structure Printable (lattice : Lattice) : Prop where
  name : isIdentifier lattice.name = true
  globals : ∀ entry ∈ lattice.globals.entries, IsPrintableEntry entry
  definitions : ∀ c ∈ definitions lattice.components,
    c.IsPrintable ∧ lattice.globals.contains c.name = false
  agree : ∀ c ∈ lattice.components, ∃ d ∈ Glps.definitions lattice.components, (d == c) = true
  components_ne_nil : lattice.components ≠ []
  name_not_global : lattice.globals.contains lattice.name = false
  name_not_component : ∀ c ∈ lattice.components, c.name ≠ lattice.name

def source (lattice : Lattice) : String :=
  String.join (lattice.globals.entries.map globalSource) ++
    (if lattice.globals.isEmpty then "" else "\n") ++
    String.join ((definitions lattice.components).map componentSource) ++
    lineStatement lattice.name (lattice.components.map (·.name))

theorem print_eq_ok {lattice : Lattice} :
    print lattice = .ok text ↔ Printable lattice ∧ text = source lattice := by
  have hcomponents {texts : List String} :=
    @componentStatements_eq_ok [] lattice.components lattice.globals texts List.nodup_nil
  simp only [print, bind_eq_ok, mapM_eq_ok_map fun x y => globalStatement_eq_ok, hcomponents,
    identifier_eq_ok]
  constructor
  · rintro ⟨_, ⟨hglobals, rfl⟩, _, ⟨hdefinitions, hagrees, rfl⟩, _, ⟨hname, rfl⟩, h⟩
    split at h
    · cases h
    · rename_i hempty
      split at h
      · cases h
      · rename_i hconflict
        cases h
        simp only [Bool.or_eq_true, List.any_eq_true, beq_iff_eq, not_or, not_exists, not_and]
          at hconflict
        exact ⟨⟨hname, hglobals, hdefinitions, hagrees, by simpa using hempty,
          by simpa using hconflict.1, hconflict.2⟩, rfl⟩
  · rintro ⟨h, rfl⟩
    refine ⟨_, ⟨h.globals, rfl⟩, _, ⟨h.definitions, h.agree, rfl⟩, _, ⟨h.name, rfl⟩, ?_⟩
    have hempty : lattice.components.isEmpty = false := by simpa using h.components_ne_nil
    have hany : lattice.components.any (·.name == lattice.name) = false := by
      simpa using h.name_not_component
    rw [hempty, h.name_not_global, hany]
    rfl

end Glps

end BeamEnvelope
