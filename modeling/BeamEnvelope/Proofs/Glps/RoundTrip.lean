import BeamEnvelope.Proofs.Glps.Bindings

/-!
# Printed lattices are read back

A printed source defines each global value, then one component of each name, and then its line. Read
back it is the printed lattice with each component replaced by the one that was written for its name;
the two are equal as numbers are compared. A line that is too long is printed, but reading it fails
where it grows too long.
-/

namespace BeamEnvelope.Glps

open Grammar SourceReader Reader

variable {lattice : Lattice} {text : String} {c d : Component} {components : List Component}

theorem mapM_parameterTree {entries : List (String × Value)}
    (h : ∀ entry ∈ entries, IsPrintableEntry entry) (env : Environment) :
    (entries.map parameterTree).mapM (parameterValue? env) = some entries := by
  rw [mapM_eq_some, List.forall₂_map_left_iff, List.forall₂_same]
  intro entry hentry
  simp [parameterValue?, parameterTree, value?_valueTree (h entry hentry).2]

theorem isDefinition_componentTree (h : c.IsPrintable) :
    IsDefinition (componentTree c) (c.name, .element c) := by
  refine ⟨rfl, fun env => ?_, ?_⟩
  · have hnames : (c.params.entries.map ((·.1) ∘ parameterTree)).Nodup := c.params.nodup_names
    simp [componentTree, Statement.symbol?, mapM_parameterTree h.params, hnames,
      Dictionary.ofList_entries]
  · intro p hp
    obtain ⟨entry, -, rfl⟩ := List.mem_map.1 hp
    exact (nesting_valueTree entry.2).trans (by decide)

def sourceEnvironment (lattice : Lattice) : Environment :=
  lattice.globals.entries.map (fun entry => (entry.1, .value entry.2)) ++
    (definitions lattice.components).map fun c => (c.name, .element c)

theorem map_fst_sourceEnvironment (lattice : Lattice) : (sourceEnvironment lattice).map (·.1) =
    lattice.globals.entries.map (·.1) ++ (definitions lattice.components).map (·.name) := by
  rw [sourceEnvironment, List.map_append, List.map_map, List.map_map]
  rfl

theorem nodup_sourceEnvironment (h : Printable lattice) :
    ((sourceEnvironment lattice).map (·.1)).Nodup := by
  rw [map_fst_sourceEnvironment]
  refine List.nodup_append.2 ⟨lattice.globals.nodup_names, nodup_definitions _, ?_⟩
  rintro n hn m hm rfl
  obtain ⟨c, hc, rfl⟩ := List.mem_map.1 hm
  have hfresh := Dictionary.contains_eq_false.1 (h.definitions c hc).2
  rw [Dictionary.get?, lookup_eq_none_iff_not_mem] at hfresh
  exact hfresh hn

theorem definitions_definitionTrees (h : Printable lattice) :
    (definitionTrees lattice).Forall₂ IsDefinition (sourceEnvironment lattice) := by
  refine List.rel_append ?_ ?_
  · rw [List.forall₂_map_left_iff, List.forall₂_map_right_iff, List.forall₂_same]
    exact fun entry hentry => isDefinition_globalTree (h.globals entry hentry)
  · rw [List.forall₂_map_left_iff, List.forall₂_map_right_iff, List.forall₂_same]
    exact fun c hc => isDefinition_componentTree (h.definitions c hc).1

theorem foldlM_definitionTrees (h : Printable lattice) :
    (definitionTrees lattice).foldlM Statement.extend? ([] : Environment) =
      some (sourceEnvironment lattice) :=
  foldlM_definitions (definitions_definitionTrees h) (nodup_sourceEnvironment h)

/-- What is written for a component: the one of its name. -/
def written (components : List Component) (c : Component) : Component :=
  ((definitions components).find? (·.name == c.name)).getD c

theorem written_eq (hd : d ∈ definitions components) (hname : d.name = c.name) :
    written components c = d := by
  rw [written, (find?_name_eq_some (nodup_definitions components)).2 ⟨hd, hname⟩]
  rfl

def reread (lattice : Lattice) : Lattice :=
  { lattice with components := lattice.components.map (written lattice.components) }

theorem lookup_sourceEnvironment (h : Printable lattice) (hc : c ∈ lattice.components) :
    (sourceEnvironment lattice).lookup c.name = some (.element (written lattice.components c)) := by
  obtain ⟨d, hd, heq⟩ := h.agree c hc
  have hname := name_eq_of_beq heq
  rw [written_eq hd hname, lookup_eq_some_iff_mem (nodup_sourceEnvironment h), ← hname]
  exact List.mem_append_right _ (List.mem_map.2 ⟨d, hd, rfl⟩)

theorem lookup_sourceEnvironment_name (h : Printable lattice) :
    (sourceEnvironment lattice).lookup lattice.name = none := by
  rw [lookup_eq_none_iff_not_mem, map_fst_sourceEnvironment, List.mem_append]
  rintro (hglobal | hdefinition)
  · have hfresh := Dictionary.contains_eq_false.1 h.name_not_global
    rw [Dictionary.get?, lookup_eq_none_iff_not_mem] at hfresh
    exact hfresh hglobal
  · obtain ⟨c, hc, hname⟩ := List.mem_map.1 hdefinition
    exact h.name_not_component c (mem_of_mem_firsts hc) hname

theorem mem_sourceEnvironment (h : Printable lattice) :
    ∀ c ∈ (reread lattice).components, (c.name, Symbol.element c) ∈ sourceEnvironment lattice := by
  intro c hc
  obtain ⟨d, hd, rfl⟩ := List.mem_map.1 hc
  obtain ⟨e, he, heq⟩ := h.agree d hd
  rw [written_eq he (name_eq_of_beq heq)]
  exact List.mem_append_right _ (List.mem_map.2 ⟨e, he, rfl⟩)

theorem names_reread (h : Printable lattice) :
    (reread lattice).components.map (·.name) = lattice.components.map (·.name) := by
  rw [reread, List.map_map]
  refine List.map_congr_left fun c hc => ?_
  obtain ⟨d, hd, heq⟩ := h.agree c hc
  rw [Function.comp_apply, written_eq hd (name_eq_of_beq heq), name_eq_of_beq heq]

theorem lattice?_sourceTrees (h : Printable lattice)
    (hfits : lattice.components.length ≤ maxElements) :
    (sourceTrees lattice).lattice? = some (reread lattice) := by
  obtain ⟨c, components, hcs⟩ := List.exists_cons_of_ne_nil h.components_ne_nil
  have htrees : sourceTrees lattice =
      definitionTrees lattice ++ [lineTree lattice.name c.name (components.map (·.name))] := by
    rw [sourceTrees, hcs]
  have hnames : (reread lattice).components.map (·.name) = c.name :: components.map (·.name) := by
    rw [names_reread h, hcs, List.map_cons]
  have hlength : (reread lattice).components.length ≤ maxElements := by
    rwa [reread, List.length_map]
  have hrun : (sourceTrees lattice).foldlM Statement.extend? ([] : Environment) =
      some (sourceEnvironment lattice ++ [(lattice.name, .line (reread lattice).components)]) := by
    rw [htrees, List.foldlM_append, foldlM_definitionTrees h]
    change ([lineTree lattice.name c.name (components.map (·.name))] : Program).foldlM
      Statement.extend? (sourceEnvironment lattice) = _
    rw [List.foldlM_cons, extend?_line hnames (nodup_sourceEnvironment h) (mem_sourceEnvironment h)
      hlength (lookup_sourceEnvironment_name h)]
    rfl
  have hlattice := lattice?_line lattice.globals.entries lattice.name
    (definitions lattice.components) (reread lattice).components []
  rw [Dictionary.ofList_entries, show elementBindings [] = [] from rfl, List.append_nil] at hlattice
  rw [Program.lattice?, hrun]
  exact hlattice

theorem nestsWithin_sourceTrees (h : Printable lattice) :
    (sourceTrees lattice).NestsWithin maxNesting := by
  have hdefinitions := nestsWithin_of_definitions (definitions_definitionTrees h)
  unfold sourceTrees
  split
  · exact hdefinitions
  · exact List.forall_mem_append.2
      ⟨hdefinitions, List.forall_mem_singleton.2 (nestsWithin_lineTree _ _ _)⟩

/-- A lattice whose line is not too long is read back from its source. -/
theorem read_source (h : Printable lattice) (hfits : lattice.components.length ≤ maxElements) :
    read (bytesOf (source lattice)) = .ok (reread lattice) := by
  obtain ⟨pos, hs⟩ := lexes_source h {}
  rw [ofBytes_nil] at hs
  exact read_of_program hs (nestsWithin_sourceTrees h) (lattice?_sourceTrees h hfits)

theorem beq_reread (h : Printable lattice) : (reread lattice == lattice) = true := by
  have hglobals : (lattice.globals == lattice.globals) = true := beq_self_entries h.globals
  have hcomponents : ((reread lattice).components == lattice.components) = true := by
    refine beq_map_of_forall fun c hc => ?_
    obtain ⟨d, hd, heq⟩ := h.agree c hc
    rwa [written_eq hd (name_eq_of_beq heq)]
  change (lattice.name == lattice.name && (lattice.globals == lattice.globals &&
    (reread lattice).components == lattice.components)) = true
  rw [beq_self_eq_true, hglobals, hcomponents]
  rfl

/-- A lattice whose line is too long is refused where the line grows too long. -/
theorem read_source_overflow (h : Printable lattice)
    (hlong : maxElements < lattice.components.length) :
    ∃ pos, read (bytesOf (source lattice)) = .error (.overflow pos .expansion) := by
  obtain ⟨c, others, hcs⟩ := List.exists_cons_of_ne_nil h.components_ne_nil
  have htokens : (sourceTrees lattice).tokens = (definitionTrees lattice).tokens ++
      (lineTree lattice.name c.name (others.map (·.name))).tokens := by
    rw [sourceTrees, hcs]
    simp [Program.tokens]
  have hnames : c.name :: others.map (·.name) = lattice.components.map (·.name) := by
    rw [hcs, List.map_cons]
  have helements : AreElements (sourceEnvironment lattice) (c.name :: others.map (·.name)) := by
    intro n hn
    rw [hnames] at hn
    obtain ⟨d, hd, rfl⟩ := List.mem_map.1 hn
    exact ⟨_, lookup_sourceEnvironment h hd⟩
  have hlength : maxElements < (c.name :: others.map (·.name)).length := by
    rwa [hnames, List.length_map]
  obtain ⟨pos, hs⟩ := lexes_source h {}
  rw [ofBytes_nil, htokens] at hs
  exact read_overflow hs (nestsWithin_of_definitions (definitions_definitionTrees h)) (foldlM_definitionTrees h) helements
    hlength

/-- What is printed is read back as an equal lattice, unless its line is too long to be read. -/
theorem read_print (h : print lattice = .ok text) :
    (lattice.components.length ≤ maxElements →
      ∃ back, read (bytesOf text) = .ok back ∧ (back == lattice) = true) ∧
    (maxElements < lattice.components.length →
      ∃ pos, read (bytesOf text) = .error (.overflow pos .expansion)) := by
  obtain ⟨hprintable, rfl⟩ := print_eq_ok.1 h
  constructor
  · exact fun hfits => ⟨reread lattice, read_source hprintable hfits, beq_reread hprintable⟩
  · exact fun hlong => read_source_overflow hprintable hlong

/-- Two drifts of one name whose lengths are equal only as numbers. -/
def zeroDrifts : Lattice where
  name := "cell"
  globals := .ofList [("offset", .vector [-0.0, 0.0])]
  components := [{ name := "d", kind := "line", params := .ofList [("L", .scalar 0.0)] },
    { name := "d", kind := "line", params := .ofList [("L", .scalar (-0.0))] }]

def zeroDriftsText : String :=
  "offset = [-0, 0];\n\nd: line, L = 0;\n\ncell: LINE = (\n  d, d\n);\n"

/-- A component may follow itself any number of times. -/
theorem printable_replicate {name : String} (hname : isIdentifier name = true)
    (hc : c.IsPrintable) (hself : (c == c) = true) (hne : c.name ≠ name) (n : Nat) :
    Printable { name, components := .replicate (n + 1) c } where
  name := hname
  globals _ h := absurd h List.not_mem_nil
  definitions d hd := by
    obtain rfl := List.eq_of_mem_replicate (mem_of_mem_firsts hd)
    exact ⟨hc, rfl⟩
  agree d hd := by
    obtain ⟨e, he, -⟩ := exists_mem_definitions hd
    obtain rfl := List.eq_of_mem_replicate hd
    obtain rfl := List.eq_of_mem_replicate (mem_of_mem_firsts he)
    exact ⟨e, he, hself⟩
  components_ne_nil := List.cons_ne_nil _ _
  name_not_global := rfl
  name_not_component d hd := by rwa [List.eq_of_mem_replicate hd]

/-- One drift more than a line can hold. -/
def longCell : Lattice where
  name := "cell"
  components := .replicate (maxElements + 1) { name := "d", kind := "drift" }

theorem printable_longCell : Printable longCell :=
  have printable : Component.IsPrintable { name := "d", kind := "drift" } :=
    ⟨by decide, by decide, fun _ h => absurd h List.not_mem_nil⟩
  printable_replicate (by decide) printable (by decide) (by decide) maxElements

theorem zeroDrifts_read_print : (print zeroDrifts = .ok zeroDriftsText ∧
      ∃ back, read (bytesOf zeroDriftsText) = .ok back ∧ (back == zeroDrifts) = true) ∧
    ∃ text, print longCell = .ok text ∧
      ∃ pos, read (bytesOf text) = .error (.overflow pos .expansion) := by
  have printed : print zeroDrifts = .ok zeroDriftsText := by decide +kernel
  have long_printed := print_eq_ok.2 ⟨printable_longCell, rfl⟩
  have too_long : maxElements < longCell.components.length := by
    rw [longCell, List.length_replicate]
    exact Nat.lt_succ_self maxElements
  exact ⟨⟨printed, (read_print printed).1 (by decide)⟩,
    _, long_printed, (read_print long_printed).2 too_long⟩

end BeamEnvelope.Glps
