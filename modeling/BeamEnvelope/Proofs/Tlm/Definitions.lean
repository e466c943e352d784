import BeamEnvelope.Proofs.Double.Products
import BeamEnvelope.Proofs.Result
import BeamEnvelope.Proofs.Tlm.Numbers

/-!
# Elements of records

A record stands for an element whose parameters are taken from its fields, each in one of three
forms. The definition of a record is read as that element, provided that no copied number starts with
a plus sign and that no exponent is put behind another one.
-/

namespace BeamEnvelope.Tlm

open Glps Grammar

/-- How the number in a field becomes the value of a parameter. -/
inductive Form where
  | plain
  /-- An angle in degrees. -/
  | degrees
  /-- A number of millions. -/
  | millions
deriving DecidableEq

def millionTimes? (cs : List Char) : Option Float :=
  (Decimal.readDigits? cs).map fun d => Decimal.toFloat ⟨d.coefficient, d.exponent + 6⟩

def Form.value? (word : String) : Form → Option Float
  | plain => Decimal.read? word
  | degrees => (Decimal.read? word).map (Function.deg2rad.apply ·)
  | millions =>
    match word.toList with
    | '-' :: cs => (millionTimes? cs).map (- ·)
    | cs => millionTimes? cs

/-- A parameter and the field that it is taken from. Fields are counted from 0. -/
structure Field where
  key : String
  index : Nat
  form : Form

namespace Kind

def element : Kind → String
  | marker => "marker"
  | drift => "drift"
  | solenoid => "solenoid"
  | dipole => "sbend"
  | quadrupole => "quadrupole"
  | cavity => "rfcavity"
  | electricBend => "edipole"

def fields : Kind → List Field
  | marker => []
  | drift => [⟨"L", 2, .plain⟩, ⟨"aper", 3, .plain⟩]
  | solenoid => [⟨"L", 2, .plain⟩, ⟨"B", 4, .plain⟩, ⟨"aper", 3, .plain⟩]
  | dipole =>
    [⟨"L", 2, .plain⟩, ⟨"phi", 4, .degrees⟩, ⟨"phi1", 7, .degrees⟩, ⟨"phi2", 8, .degrees⟩,
      ⟨"bg", 5, .plain⟩, ⟨"type", 6, .plain⟩, ⟨"aper", 3, .plain⟩]
  | quadrupole => [⟨"L", 2, .plain⟩, ⟨"B2", 4, .plain⟩, ⟨"aper", 3, .plain⟩]
  | cavity =>
    [⟨"L", 2, .plain⟩, ⟨"f", 4, .millions⟩, ⟨"phi", 6, .plain⟩, ⟨"scl_fac", 5, .plain⟩,
      ⟨"aper", 3, .plain⟩]
  | electricBend =>
    [⟨"L", 3, .plain⟩, ⟨"phi", 6, .plain⟩, ⟨"phi1", 8, .plain⟩, ⟨"phi2", 9, .plain⟩,
      ⟨"E", 7, .plain⟩, ⟨"scl_fac", 5, .plain⟩, ⟨"aper", 4, .plain⟩]

theorem isIdentifier_element (k : Kind) : isIdentifier k.element = true := by cases k <;> decide

theorem isIdentifier_key (k : Kind) : ∀ f ∈ k.fields, isIdentifier f.key = true := by
  cases k <;> decide

theorem nodup_keys (k : Kind) : (k.fields.map (·.key)).Nodup := by cases k <;> decide

theorem index_bounds (k : Kind) : ∀ f ∈ k.fields, 2 ≤ f.index ∧ f.index < k.leastWords := by
  cases k <;> decide

end Kind

/-- The element that a record stands for, under its final name. -/
def Record.component? (r : Record) (name : String) : Option Component := do
  let params ← r.kind.fields.mapM fun f =>
    (f.form.value? (Record.word r.words f.index)).map fun x => (f.key, Value.scalar x)
  return { name, kind := r.kind.element, params := .ofList params }

namespace Form

variable {word : String} {form : Form} {x : Float}

/-- Whether a number can be copied: it starts with no plus sign, and if it counts millions it has no
exponent and stays finite. -/
def IsCopyable (word : String) (form : Form) : Prop :=
  word.toList.head? ≠ some '+' ∧ (form = millions →
    ('e' ∉ word.toList ∧ 'E' ∉ word.toList) ∧ (millions.value? word).any Float.isFinite = true)

instance (word : String) (form : Form) : Decidable (form.IsCopyable word) :=
  inferInstanceAs (Decidable (_ ∧ _))

def source (word : String) : Form → String
  | plain => word
  | degrees => "deg2rad(" ++ word ++ ")"
  | millions => word ++ "e6"

/-- Six in the exponent makes millions. -/
theorem read?_millions (hword : 'e' ∉ word.toList ∧ 'E' ∉ word.toList)
    (h : millions.value? word = some x) : Decimal.read? (word ++ "e6") = some x := by
  have hdigits {cs : List Char} {y : Float} (hcs : 'e' ∉ cs ∧ 'E' ∉ cs)
      (hy : millionTimes? cs = some y) :
      ∃ d, Decimal.readDigits? (cs ++ ['e', '6']) = some d ∧ d.toFloat = y := by
    obtain ⟨d, hd, rfl⟩ := Option.map_eq_some_iff.1 hy
    exact ⟨_, Decimal.readDigits?_append_exponent hd hcs rfl, rfl⟩
  have hsource : word ++ "e6" = String.ofList (word.toList ++ ['e', '6']) := by
    rw [String.ofList_append, String.ofList_toList]
  rw [hsource]
  rw [value?.eq_def] at h
  dsimp only at h
  generalize word.toList = cs at h hword
  split at h
  · obtain ⟨y, hy, rfl⟩ := Option.map_eq_some_iff.1 h
    obtain ⟨d, hd, rfl⟩ := hdigits (hword.imp List.not_mem_of_not_mem_cons
      List.not_mem_of_not_mem_cons) hy
    exact (Decimal.read?_of_digits hd).2
  · obtain ⟨d, hd, rfl⟩ := hdigits hword h
    exact (Decimal.read?_of_digits hd).1

theorem head?_append {word behind : String} (hne : word.toList.head? ≠ some '+')
    (hbehind : behind.toList.head? ≠ some '+') : (word ++ behind).toList.head? ≠ some '+' := by
  rw [String.toList_append, List.head?_append]
  cases hword : word.toList.head? with
  | none => rwa [Option.none_or]
  | some c => rwa [Option.some_or, ← hword]

/-- A copied number is read as the double that its form makes of it. -/
theorem exists_denotes (hnumber : Record.isNumber word = true) (h : form.IsCopyable word) :
    ∃ x, form.value? word = some x ∧ Denotes (form.source word) x := by
  obtain ⟨hplus, hform⟩ := h
  unfold Record.isNumber at hnumber
  split at hnumber
  · rename_i x hx
    cases form with
    | plain => exact ⟨x, hx, denotes_word hx hnumber hplus⟩
    | degrees =>
      exact ⟨_, by rw [value?, hx]; rfl,
        denotes_call (f := .deg2rad) hx hnumber hplus (Double.isFinite_mul_degree hnumber)⟩
    | millions =>
      obtain ⟨hword, hmillions⟩ := hform rfl
      obtain ⟨y, hy, hfinite⟩ := (Option.any_eq_true _ _).1 hmillions
      exact ⟨y, hy, denotes_word (read?_millions hword hy) hfinite (head?_append hplus (by decide))⟩
  · cases hnumber

end Form

namespace Record

variable {r : Record} {name : String} {words : List String}

/-- What is checked of a record before it is converted. -/
structure IsChecked (r : Record) : Prop where
  leastWords_le : r.kind.leastWords ≤ r.words.length
  isNumber : ∀ i, 2 ≤ i → i < r.words.length → isNumber (word r.words i) = true
  name_eq : r.name = plainName (word r.words 1)
  isIdentifier : isIdentifier r.name = true

/-- Whether all numbers that are copied into the definition can be copied. -/
def IsCopyable (r : Record) : Prop := ∀ f ∈ r.kind.fields, f.form.IsCopyable (word r.words f.index)

instance (r : Record) : Decidable r.IsCopyable :=
  inferInstanceAs (Decidable (∀ f ∈ r.kind.fields, f.form.IsCopyable (word r.words f.index)))

theorem isNumber_of_firstNotNumber? (h : firstNotNumber? words = none) {i : Nat} (hi : 2 ≤ i)
    (hlt : i < words.length) : isNumber (word words i) = true := by
  have hmem : (words[i], i) ∈ words.zipIdx.drop 2 := by
    refine List.mem_iff_getElem.2 ⟨i - 2, ?_, ?_⟩
    · rw [List.length_drop, List.length_zipIdx]
      omega
    · simp [Nat.add_sub_cancel' hi]
  have hnumber := List.find?_eq_none.1 h _ hmem
  rw [word, List.getD_eq_getElem _ _ hlt]
  simpa using hnumber

theorem isChecked_of_ofWords (h : ofWords words = .ok r) : r.IsChecked ∧ r.words = words := by
  unfold ofWords at h
  dsimp only at h
  split at h
  · rename_i kind hkind
    split at h
    · cases h
    · rename_i hlength
      split at h
      · cases h
      · rename_i hnumbers
        split at h
        · cases h
        · rename_i hname
          have hnone : firstNotNumber? words = none := by
            cases hfirst : firstNotNumber? words with
            | none => rfl
            | some w => exact absurd hfirst (hnumbers w.1 w.2)
          split at h
          · cases h
          · cases h
            exact ⟨⟨Nat.not_lt.1 hlength, fun i => isNumber_of_firstNotNumber? hnone, rfl,
              by simpa using hname⟩, rfl⟩
  · cases h

/-- The definitions of all kinds of records have one layout. -/
theorem definition_eq (r : Record) (name : String) : r.definition name ++ "\n" =
    name ++ ": " ++ r.kind.element ++ String.join (r.kind.fields.map fun f =>
      assignment f.key (f.form.source (word r.words f.index))) ++ ";\n" := by
  -- characters, unlike strings, are appended by computation
  rw [← String.toList_inj, definition]
  cases r.kind <;>
    simp only [Kind.element, Kind.fields, Form.source, assignment, List.map_cons, List.map_nil,
      String.join_cons, String.join_nil, String.append_empty, String.toList_append, List.append_assoc]
  all_goals rfl

/-- The definition of a record defines the element that the record stands for. -/
theorem exists_defines (hchecked : r.IsChecked) (hcopyable : r.IsCopyable)
    (hname : Glps.isIdentifier name = true) :
    ∃ c, r.component? name = some c ∧ c.name = name ∧
      Defines (r.definition name ++ "\n") [(name, .element c)] := by
  have hfields : ∀ f ∈ r.kind.fields, ∃ x, f.form.value? (word r.words f.index) = some x ∧
      Denotes (f.form.source (word r.words f.index)) x := by
    intro f hf
    obtain ⟨hlow, hhigh⟩ := r.kind.index_bounds f hf
    exact Form.exists_denotes
      (hchecked.isNumber _ hlow (Nat.lt_of_lt_of_le hhigh hchecked.leastWords_le)) (hcopyable f hf)
  choose! value hvalue hdenotes using hfields
  let params : Dictionary Value := .ofList (r.kind.fields.map fun f => (f.key, .scalar (value f)))
  refine ⟨{ name, kind := r.kind.element, params }, ?_, rfl, ?_⟩
  · have hparams : (r.kind.fields.mapM fun f => (f.form.value? (word r.words f.index)).map fun x =>
        (f.key, Value.scalar x)) = some (r.kind.fields.map fun f => (f.key, .scalar (value f))) := by
      rw [mapM_eq_some, List.forall₂_map_right_iff, List.forall₂_same]
      intro f hf
      rw [hvalue f hf]
      rfl
    rw [component?, hparams]
    rfl
  · rw [definition_eq]
    exact defines_element hname r.kind.isIdentifier_element r.kind.nodup_keys
      r.kind.isIdentifier_key hdenotes

end Record

end BeamEnvelope.Tlm
