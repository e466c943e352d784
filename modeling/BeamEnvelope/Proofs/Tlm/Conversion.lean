import BeamEnvelope.Proofs.Tlm.Names

/-!
# Conversions are read back

A conversion writes comments, blank lines and one definition for each record, and then the line of all
elements. Reading it gives the elements that the records stand for, in their order, unless a name
occurs twice or the line is too long.
-/

namespace BeamEnvelope.Tlm

open Glps Grammar

variable {accepted more final : Accepted} {text : List Char} {written : String} {bytes : List UInt8}
  {lines : List Joined}

/-- The record on a line. A blank line and a comment have none. -/
def record? (text : List Char) : Option Record :=
  match Text.trim text with
  | [] => none
  | '#' :: _ => none
  | trimmed => (Record.ofWords ((Text.words trimmed).map String.ofList)).toOption

def recordsOn (lines : List Joined) : List Record :=
  lines.filterMap fun line => line.text?.bind record?

def records (bytes : List UInt8) : List Record := recordsOn (readLines bytes)

/-- The final names of accepted records, in the order of the records. -/
def namesOf (accepted : Accepted) : List String := (accepted.map (·.2)).reverse

theorem namesOf_cons (k : Kind) (name : String) (accepted : Accepted) :
    namesOf ((k, name) :: accepted) = namesOf accepted ++ [name] := by
  simp [namesOf]

/-- What converting a line or several of them contributes to a conversion: the elements that the
records stand for, defined by the text that is written. -/
structure Contributes (accepted more : Accepted) (rs : List Record) (written : String)
    (cs : List Component) : Prop where
  names : namesOf more = namesOf accepted ++ cs.map (·.name)
  components : rs.Forall₂ (fun r c => r.component? c.name = some c) cs
  defines : Defines written (cs.map fun c => (c.name, .element c))
  isIdentifier : ∀ c ∈ cs, isIdentifier c.name = true
  isLowercase : ∀ c ∈ cs, IsLowercase c.name.toList

theorem Contributes.append {between : Accepted} {rs rs' : List Record} {written' : String}
    {cs cs' : List Component} (h : Contributes accepted between rs written cs)
    (h' : Contributes between more rs' written' cs') :
    Contributes accepted more (rs ++ rs') (written ++ written') (cs ++ cs') where
  names := by rw [h'.names, h.names, List.map_append, List.append_assoc]
  components := List.rel_append h.components h'.components
  defines := by
    rw [List.map_append]
    exact h.defines.append h'.defines
  isIdentifier := List.forall_mem_append.2 ⟨h.isIdentifier, h'.isIdentifier⟩
  isLowercase := List.forall_mem_append.2 ⟨h.isLowercase, h'.isLowercase⟩

theorem contributes_nothing (h : Defines written []) :
    Contributes accepted accepted [] written [] where
  names := (List.append_nil _).symm
  components := .nil
  defines := h
  isIdentifier _ hc := absurd hc List.not_mem_nil
  isLowercase _ hc := absurd hc List.not_mem_nil

theorem defines_break : Defines "\n" [] := defines_layout fun _ => lexes_blank rfl

def wordsOn (text : List Char) : List String := (Text.words (Text.trim text)).map String.ofList

/-- A blank line, a comment or a record. -/
theorem line_cases (accepted : Accepted) (text : List Char) :
    (record? text = none ∧ writeLine accepted text = .ok ("", accepted)) ∨
    (∃ comment, Text.trim text = '#' :: comment ∧ record? text = none ∧
      writeLine accepted text = .ok (String.ofList ('#' :: comment), accepted)) ∨
    (record? text = (Record.ofWords (wordsOn text)).toOption ∧ writeLine accepted text =
      (Record.ofWords (wordsOn text)).map fun r =>
        (r.definition (finalName accepted r), (r.kind, finalName accepted r) :: accepted)) := by
  unfold record? writeLine wordsOn
  cases Text.trim text with
  | nil => exact .inl ⟨rfl, rfl⟩
  | cons c rest =>
    by_cases hc : c = '#'
    · subst hc
      exact .inr (.inl ⟨rest, rfl, rfl, rfl⟩)
    · refine .inr (.inr ⟨?_, ?_⟩)
      · simp [hc]
      · simp [hc]
        rfl

/-- A record, under its final name. -/
theorem contributes_record {r : Record} {words : List String} (hwords : Record.ofWords words = .ok r)
    (hcopyable : r.IsCopyable) (hlower : IsLowercase (Record.word words 1).toList) :
    ∃ c, Contributes accepted ((r.kind, finalName accepted r) :: accepted) [r]
      (r.definition (finalName accepted r) ++ "\n") [c] := by
  obtain ⟨hchecked, rfl⟩ := Record.isChecked_of_ofWords hwords
  have hname : Glps.isIdentifier (finalName accepted r) = true :=
    isIdentifier_finalName hchecked.isIdentifier
  have hplain : IsLowercase r.name.toList := by
    rw [hchecked.name_eq]
    exact isLowercase_plainName hlower
  obtain ⟨c, hc, hcname, hdefines⟩ := Record.exists_defines hchecked hcopyable hname
  rw [← hcname] at hc hname
  refine ⟨c, ?_, .cons hc .nil, ?_, ?_, ?_⟩
  · rw [namesOf_cons, List.map_singleton, hcname]
  · rw [List.map_singleton, hcname]
    exact hdefines
  · exact List.forall_mem_singleton.2 hname
  · rw [List.forall_mem_singleton, hcname]
    exact isLowercase_finalName hplain

/-- One line. -/
theorem contributes_writeLine (htext : IsLine text)
    (hcopyable : ∀ r, record? text = some r → r.IsCopyable)
    (h : writeLine accepted text = .ok (written, more)) :
    ∃ cs, Contributes accepted more (record? text).toList (written ++ "\n") cs := by
  have htrim : IsLine (Text.trim text) := htext.mono (trim_subset text)
  rcases line_cases accepted text with ⟨hrecord, hwrite⟩ | ⟨comment, hcomment, hrecord, hwrite⟩ |
    ⟨hrecord, hwrite⟩
  · rw [hwrite] at h
    cases h
    rw [hrecord]
    exact ⟨[], contributes_nothing defines_break⟩
  · rw [hwrite] at h
    cases h
    rw [hrecord]
    rw [hcomment] at htrim
    refine ⟨[], contributes_nothing (defines_comment fun hmem => ?_)⟩
    exact (htrim '\n' (List.mem_cons_of_mem _ hmem)).2 rfl
  · rw [hwrite] at h
    cases hwords : Record.ofWords (wordsOn text) with
    | error cause =>
      rw [hwords] at h
      cases h
    | ok r =>
      rw [hwords] at h hrecord
      cases h
      have hlower := isLowercase_word (fun c hc => (htrim c hc).1) 1
      obtain ⟨c, hc⟩ := contributes_record hwords (hcopyable r hrecord) hlower
      rw [hrecord]
      exact ⟨[c], hc⟩

/-- All lines, until the end of the file. -/
theorem contributes_writeLines {texts : List String}
    (hlines : ∀ line ∈ lines, ∀ text, line.text? = some text → IsLine text)
    (hcopyable : ∀ r ∈ recordsOn lines, r.IsCopyable)
    (h : writeLines accepted lines = (texts, final, none)) : final ≠ [] ∧
      ∃ cs, Contributes accepted final (recordsOn lines) (String.join (texts.map (· ++ "\n"))) cs := by
  -- what one line contributes and what the others do stand one behind the other
  induction lines generalizing accepted texts with
  | nil =>
    rw [writeLines] at h
    simp only [Prod.mk.injEq] at h
    obtain ⟨rfl, rfl, hempty⟩ := h
    refine ⟨?_, [], contributes_nothing (defines_layout fun rest => .refl rest)⟩
    rintro rfl
    cases hempty
  | cons line lines ih =>
    obtain ⟨hline, hrest⟩ := List.forall_mem_cons.1 hlines
    rw [writeLines] at h
    split at h
    · cases h
    · rename_i text htext
      have hrecords : recordsOn (line :: lines) = (record? text).toList ++ recordsOn lines := by
        rw [recordsOn, List.filterMap_cons, htext, Option.bind_some, recordsOn]
        cases record? text <;> rfl
      rw [hrecords] at hcopyable ⊢
      obtain ⟨hone, hothers⟩ := List.forall_mem_append.1 hcopyable
      split at h
      · cases h
      · rename_i written more hwrite
        generalize hmore : writeLines more lines = result at h
        obtain ⟨behind, last, failure?⟩ := result
        simp only [Prod.mk.injEq] at h
        obtain ⟨rfl, rfl, rfl⟩ := h
        obtain ⟨hne, cs', hcs'⟩ := ih hrest hothers hmore
        obtain ⟨cs, hcs⟩ := contributes_writeLine (hline text htext)
          (fun r hr => hone r (Option.mem_toList.2 hr)) hwrite
        refine ⟨hne, cs ++ cs', ?_⟩
        rw [List.map_cons, String.join_cons]
        exact hcs.append hcs'

def simulationType : String × Value := ("sim_type", .text "MomentMatrix")

theorem defines_head : Defines head (valueBindings [simulationType]) := by
  have hprintable : IsPrintableEntry simulationType := ⟨by decide, by decide, by decide⟩
  have hcomment : '\n' ∉ " Beam envelope simulation.".toList := by decide
  have hhead : head = String.ofList ('#' :: " Beam envelope simulation.".toList) ++ "\n" ++
      ("\n" ++ (globalSource simulationType ++ "\n")) := by decide
  rw [hhead]
  exact (defines_comment hcomment).append
    (defines_break.append ((defines_global hprintable).append defines_break))

/-- The statement that names the beamline is read as the definition of an element. -/
def use : Component := { name := "USE", kind := beamline }

theorem defines_use : Defines ("\nUSE: " ++ beamline ++ ";\n") (elementBindings [use]) := by
  -- an element without parameters
  have hstatement : Defines (use.name ++ ": " ++ use.kind ++ String.join [] ++ ";\n")
      (elementBindings [use]) :=
    @defines_element Field Field.key (fun _ => "") (fun _ => 0) [] use.name use.kind (by decide)
      (by decide) .nil nofun nofun
  have htext : "\nUSE: " ++ beamline ++ ";\n" =
      "\n" ++ (use.name ++ ": " ++ use.kind ++ String.join [] ++ ";\n") := by decide
  rw [htext]
  exact defines_break.append hstatement

theorem exists_contribution (hconverted : (convert bytes).failure? = none)
    (hcopyable : ∀ r ∈ records bytes, r.IsCopyable) : ∃ written final cs, cs ≠ [] ∧
      Contributes [] final (records bytes) written cs ∧ (convert bytes).names = cs.map (·.name) ∧
      (convert bytes).text = head ++ written ++ lineStatement beamline (cs.map (·.name)) ++
        ("\nUSE: " ++ beamline ++ ";\n") := by
  unfold convert at hconverted ⊢
  generalize hlines : writeLines [] (readLines bytes) = result at hconverted ⊢
  obtain ⟨texts, final, failure?⟩ := result
  cases failure? with
  | some failure => cases hconverted
  | none =>
    obtain ⟨hne, cs, hcs⟩ := contributes_writeLines isLine_of_mem_readLines hcopyable hlines
    have hnames : namesOf final = cs.map (·.name) := hcs.names
    refine ⟨_, final, cs, ?_, hcs, hnames, ?_⟩
    · rintro rfl
      exact hne (by simpa [namesOf] using hnames)
    · rw [← hnames]
      simp only [String.append_assoc]
      rfl

/-- The names of a conversion among the other names of the text. -/
theorem nodup_around {names : List String} (huse : use.name ∉ names) :
    ([simulationType.1] ++ names ++ [beamline] ++ [use.name]).Nodup ↔
      names.Nodup ∧ beamline ∉ names ∧ simulationType.1 ∉ names := by
  have htext : simulationType.1 ∉ [beamline, use.name] ∧ [beamline, use.name].Nodup := by decide
  rw [List.append_assoc, List.append_assoc, List.singleton_append, List.singleton_append,
    List.nodup_cons, List.nodup_append, List.mem_append, not_or]
  constructor
  · rintro ⟨⟨hglobal, -⟩, hnodup, -, hdisjoint⟩
    exact ⟨hnodup, fun hmem => hdisjoint _ hmem _ (by simp) rfl, hglobal⟩
  · rintro ⟨hnodup, hbeamline, hglobal⟩
    refine ⟨⟨hglobal, htext.1⟩, hnodup, htext.2, ?_⟩
    rintro a ha b hb rfl
    rcases List.mem_pair.1 hb with rfl | rfl
    · exact hbeamline ha
    · exact huse ha

/-- What a conversion is read as, and when it is read at all. -/
theorem exists_components (hconverted : (convert bytes).failure? = none)
    (hcopyable : ∀ r ∈ records bytes, r.IsCopyable) : ∃ cs : List Component,
      cs.map (·.name) = (convert bytes).names ∧
      (records bytes).Forall₂ (fun r c => r.component? c.name = some c) cs ∧
      ∀ lattice, read (bytesOf (convert bytes).text) = .ok lattice ↔
        ((convert bytes).names.Nodup ∧ beamline ∉ (convert bytes).names ∧
          simulationType.1 ∉ (convert bytes).names ∧ (convert bytes).names.length ≤ maxElements) ∧
        lattice = { name := beamline, globals := .ofList [simulationType], components := cs } := by
  obtain ⟨written, final, cs, hne, hcs, hnames, htext⟩ := exists_contribution hconverted hcopyable
  refine ⟨cs, hnames.symm, hcs.components, fun lattice => ?_⟩
  have hfront : Defines (head ++ written) (valueBindings [simulationType] ++ elementBindings cs) :=
    defines_head.append hcs.defines
  have huse : use.name ∉ cs.map (·.name) := by
    intro hmem
    obtain ⟨c, hc, hname⟩ := List.mem_map.1 hmem
    refine hcs.isLowercase c hc 'U' ?_ ⟨by decide, by decide⟩
    rw [hname]
    exact List.mem_cons_self
  rw [htext, read_elements_eq_ok hfront defines_use (by decide) hcs.isIdentifier
    (List.Subset.refl cs) hne, hnames, List.length_map]
  have hdistinct := nodup_around huse
  simp only [List.map_singleton, hdistinct, and_assoc]

/-- A conversion with distinct names is read as the elements that the records stand for, in their
order. -/
theorem read_convert (hconverted : (convert bytes).failure? = none)
    (hcount : (convert bytes).names.length ≤ 2 ^ 24) (hnodup : (convert bytes).names.Nodup)
    (hcell : "cell" ∉ (convert bytes).names) (hglobal : "sim_type" ∉ (convert bytes).names)
    (hcopyable : ∀ r ∈ records bytes, r.IsCopyable) : ∃ components,
      read (bytesOf (convert bytes).text) = .ok
        { name := "cell", globals := .ofList [("sim_type", .text "MomentMatrix")], components } ∧
      components.map (·.name) = (convert bytes).names ∧
      (records bytes).Forall₂ (fun r c => r.component? c.name = some c) components := by
  obtain ⟨cs, hnames, hcs, hread⟩ := exists_components hconverted hcopyable
  exact ⟨cs, (hread _).2 ⟨⟨hnodup, hcell, hglobal, hcount⟩, rfl⟩, hnames, hcs⟩

/-- A comment, a blank line, and records with a continued line and numbers in several spellings. -/
def sampleFile : List UInt8 :=
  bytesOf ("# \u00c9tude\nDRIFT D:1 .05 2E-2\n\nrfcavity C 2. 0.02 -80.5 1 &\n -30\n" ++
    "dipole b 0 1 45 0 0 -1e1 10\n")

theorem read_convert_sampleFile : (convert sampleFile).failure? = none ∧
    (convert sampleFile).names = ["d_1_1", "c", "b_1"] ∧ ∃ components,
      read (bytesOf (convert sampleFile).text) = .ok
        { name := "cell", globals := .ofList [("sim_type", .text "MomentMatrix")], components } ∧
      components.map (·.name) = (convert sampleFile).names ∧
      (records sampleFile).Forall₂ (fun r c => r.component? c.name = some c) components := by
  have converted : (convert sampleFile).failure? = none := by decide +kernel
  have names : (convert sampleFile).names = ["d_1_1", "c", "b_1"] := by decide +kernel
  have copyable : ∀ r ∈ records sampleFile, r.IsCopyable := by decide +kernel
  refine ⟨converted, names, read_convert converted ?_ ?_ ?_ ?_ copyable⟩ <;>
    rw [names] <;> decide

/-- Whether a conversion is read depends on its names alone. -/
theorem exists_read_convert_iff (hconverted : (convert bytes).failure? = none)
    (hcopyable : ∀ r ∈ records bytes, r.IsCopyable) :
    ((∃ lattice, read (bytesOf (convert bytes).text) = .ok lattice) ↔
      (convert bytes).names.Nodup ∧ "cell" ∉ (convert bytes).names ∧
        "sim_type" ∉ (convert bytes).names ∧ (convert bytes).names.length ≤ 2 ^ 24) ∧
    ∀ lattice, read (bytesOf (convert bytes).text) = .ok lattice →
      lattice.name = "cell" ∧ lattice.globals = .ofList [("sim_type", .text "MomentMatrix")] ∧
        lattice.components.map (·.name) = (convert bytes).names := by
  obtain ⟨cs, hnames, -, hread⟩ := exists_components hconverted hcopyable
  refine ⟨⟨?_, fun h => ⟨_, (hread _).2 ⟨h, rfl⟩⟩⟩, fun lattice h => ?_⟩
  · rintro ⟨lattice, h⟩
    exact ((hread lattice).1 h).1
  · obtain ⟨-, rfl⟩ := (hread lattice).1 h
    exact ⟨rfl, rfl, hnames⟩

/-- Files that are converted to a text that is not read: a drift and a marker of one name are each the
first of their kind, an element has the name of the beamline or of the global value, a number starts
with a plus sign, and a number of millions has an exponent. -/
def refusedFiles : List (List UInt8) :=
  ["drift d 1 0.02\nmark d 0 -28\n", "quadpole cell 1 0.02 5\n", "quadpole sim_type 1 0.02 5\n",
    "drift d +1 0.02\n", "rfcavity c 1 0.02 8e1 1 0\n"].map bytesOf

theorem refusedFiles_not_read : refusedFiles.Forall fun bytes => (convert bytes).failure? = none ∧
    ∀ lattice, read (bytesOf (convert bytes).text) ≠ .ok lattice := by
  have refused : ∀ bytes ∈ refusedFiles, (convert bytes).failure? = none ∧
      (read (bytesOf (convert bytes).text)).toOption = none := by decide +kernel
  refine List.forall_iff_forall_mem.2 fun bytes hbytes => ?_
  obtain ⟨hconverted, hnone⟩ := refused bytes hbytes
  refine ⟨hconverted, fun lattice h => ?_⟩
  rw [h] at hnone
  cases hnone

theorem exists_read_convert_sampleFile : (convert sampleFile).failure? = none ∧
    ((∃ lattice, read (bytesOf (convert sampleFile).text) = .ok lattice) ↔
      (convert sampleFile).names.Nodup ∧ "cell" ∉ (convert sampleFile).names ∧
        "sim_type" ∉ (convert sampleFile).names ∧ (convert sampleFile).names.length ≤ 2 ^ 24) ∧
    ∀ lattice, read (bytesOf (convert sampleFile).text) = .ok lattice →
      lattice.name = "cell" ∧ lattice.globals = .ofList [("sim_type", .text "MomentMatrix")] ∧
        lattice.components.map (·.name) = (convert sampleFile).names := by
  have converted : (convert sampleFile).failure? = none := by decide +kernel
  exact ⟨converted, exists_read_convert_iff converted (by decide +kernel)⟩

end BeamEnvelope.Tlm
