import BeamEnvelope.Proofs.Toml.Tables

/-!
# Lattices survive TOML

The document of a lattice without NaN is read back as the same lattice, whatever its keys and texts
are and down to the signs of zeros. The one loss is a component with a parameter `name` or `type`:
its table has that key twice, and the document has no reading.
-/

namespace BeamEnvelope.Lattice

open Toml

def headEntries (lattice : Lattice) : List (String × Value) :=
  ("name", .text lattice.name) ::
    if lattice.components.isEmpty then [("elements", .vector [])] else []

def lines (lattice : Lattice) : List Line :=
  entryLines lattice.headEntries ++ .table "globals" :: entryLines lattice.globals.entries ++
    lattice.components.flatMap componentLines

theorem join_entryLines (entries : List (String × Value)) :
    String.join ((entryLines entries).map Line.text) = String.join (entries.map entryLine) := by
  simp [entryLines, Function.comp_def, Line.text]

theorem join_componentLines (c : Component) :
    String.join ((componentLines c).map Line.text) = componentText c := by
  have hheader : (Line.tables "elements").text = "\n[[elements]]\n" := by decide
  rw [componentLines, List.map_cons, String.join_cons, join_entryLines, hheader]
  delta componentText tableText
  simp [componentEntries, String.join_cons, String.append_assoc]

theorem join_headEntries (lattice : Lattice) :
    String.join (lattice.headEntries.map entryLine) = entryLine ("name", .text lattice.name) ++
      if lattice.components.isEmpty then "elements = []\n" else "" := by
  have hnone : entryLine ("elements", .vector []) = "elements = []\n" := by decide
  rw [headEntries]
  cases lattice.components <;> simp [String.join_cons, hnone]

theorem join_lines (lattice : Lattice) :
    String.join (lattice.lines.map Line.text) = lattice.toToml := by
  have hheader : (Line.table "globals").text = "\n[globals]\n" := by decide
  have hcomponents : String.join ((lattice.components.flatMap componentLines).map Line.text) =
      String.join (lattice.components.map componentText) := by
    induction lattice.components with
    | nil => rfl
    | cons c components ih =>
      rw [List.flatMap_cons, List.map_append, String.join_append, join_componentLines, ih,
        List.map_cons, String.join_cons]
  simp only [toToml, lines, tableText, List.map_append, List.map_cons, String.join_append,
    String.join_cons, join_entryLines, join_headEntries, hheader, hcomponents, String.append_assoc]

/-- What the document holds before its components. -/
def baseEntries (lattice : Lattice) : Entries :=
  nodeEntries lattice.headEntries ++
    [("globals", .table .header (nodeEntries lattice.globals.entries))]

def documentEntries (lattice : Lattice) : Entries :=
  withTables lattice.baseEntries
    (lattice.components.map componentTable).reverse

theorem lookup_headEntries (lattice : Lattice) :
    (nodeEntries lattice.headEntries).lookup "globals" = none := by
  rw [headEntries]
  cases lattice.components <;> simp [nodeEntries]

theorem lookup_baseEntries {lattice : Lattice} (h : lattice.components ≠ []) :
    lattice.baseEntries.lookup "elements" = none := by
  simp [baseEntries, headEntries, h, nodeEntries]

theorem foldlM_headEntries (lattice : Lattice) :
    (entryLines lattice.headEntries).foldlM Line.change? {} =
      some ⟨nodeEntries lattice.headEntries, []⟩ := by
  rw [headEntries]
  cases lattice.components <;>
    simp [entryLines, nodeEntries, Line.change?, Progress.insert?, Entries.descend?,
      Entries.insert?_key]

theorem foldlM_globals (lattice : Lattice) :
    (entryLines lattice.headEntries ++ .table "globals" ::
        entryLines lattice.globals.entries).foldlM Line.change? {} =
      some ⟨lattice.baseEntries, ["globals"]⟩ := by
  have hlookup := lattice.lookup_headEntries
  have hopen : (Line.table "globals").change? ⟨nodeEntries lattice.headEntries, []⟩ =
      some ⟨nodeEntries lattice.headEntries ++ [("globals", .table .header [])], ["globals"]⟩ := by
    simp [Line.change?, Progress.open?, Entries.descend?, Entries.openTable?, hlookup]
  have hempty : (([] : Entries).map (·.1)).Nodup := List.nodup_nil
  have hnames : ((nodeEntries lattice.globals.entries).map (·.1)).Nodup := by
    rw [map_fst_nodeEntries]
    exact lattice.globals.nodup_names
  have hentries := foldlM_entries .table hlookup hempty lattice.globals.entries
  rw [List.nil_append, if_pos hnames] at hentries
  simp only [List.foldlM_append, foldlM_headEntries, List.foldlM_cons, hopen,
    Option.bind_eq_bind, Option.bind_some]
  exact hentries

/-- The lines build the whole document, unless a component's parameter has a key that its table
holds already. -/
theorem foldlM_lines (lattice : Lattice) :
    (lattice.lines.foldlM Line.change? {}).map Progress.root =
      if lattice.components.any hidesOwnKey then none else some lattice.documentEntries := by
  rw [lines, List.foldlM_append, foldlM_globals, documentEntries]
  by_cases hcomponents : lattice.components = []
  · simp [hcomponents, withTables]
  · simpa [withTables] using
      foldlM_components (lookup_baseEntries hcomponents) lattice.components [] ["globals"]

theorem valueOfToml?_nodeOf (v : Value) : valueOfToml? (nodeOf v) = some v := by
  cases v with
  | scalar x => rfl
  | vector xs =>
    have hxs : (xs.map Node.float).mapM Node.number? = some xs :=
      mapM_map_eq_some fun x _ => rfl
    simp [valueOfToml?, nodeOf, Node.number?, Node.numbers?, hxs]
  | text s => rfl

theorem dictionaryOfToml?_nodeEntries (d : Dictionary Value) :
    dictionaryOfToml? (nodeEntries d.entries) = some d := by
  have hentries : ((nodeEntries d.entries).mapM fun e => do return (e.1, ← valueOfToml? e.2)) =
      some d.entries :=
    mapM_map_eq_some fun entry _ => by simp [valueOfToml?_nodeOf]
  rw [dictionaryOfToml?, hentries]
  simp [Dictionary.ofList_entries]

theorem componentOfToml?_componentTable {c : Component} (hc : hidesOwnKey c = false) :
    componentOfToml? (componentTable c) = some c := by
  have hkept : ∀ e ∈ nodeEntries c.params.entries, (e.1 != "name" && e.1 != "type") = true := by
    intro e he
    have hmem : e.1 ∈ c.params.entries.map (·.1) := by
      rw [← map_fst_nodeEntries]
      exact List.mem_map_of_mem he
    have hcontains := Dictionary.contains_iff_mem.2 hmem
    simp only [hidesOwnKey, Bool.or_eq_false_iff] at hc
    simp only [Bool.and_eq_true, bne_iff_ne]
    constructor <;> intro hname <;> simp [hname, hc] at hcontains
  have hparams : (componentTable c).filter
      (fun e => e.1 != "name" && e.1 != "type") = nodeEntries c.params.entries := by
    simpa [componentTable, componentEntries, nodeEntries] using List.filter_eq_self.2 hkept
  rw [componentOfToml?, hparams, dictionaryOfToml?_nodeEntries]
  rfl

theorem isValued_nodeOf (v : Value) : (nodeOf v).isValued = true := by
  cases v with
  | scalar x => rfl
  | vector xs =>
    rw [nodeOf, Node.isValued]
    induction xs with
    | nil => rfl
    | cons x xs ih => exact ih
  | text s => rfl

theorem areValued_nodeEntries (entries : List (String × Value)) :
    (nodeEntries entries).areValued = true := by
  induction entries with
  | nil => rfl
  | cons entry rest ih =>
    change ((nodeOf entry.2).isValued && (nodeEntries rest).areValued) = true
    rw [isValued_nodeOf, ih]
    rfl

theorem areValued_append (d e : Entries) : (d ++ e).areValued = (d.areValued && e.areValued) := by
  induction d with
  | nil => simp [Entries.areValued]
  | cons entry rest ih => simp [Entries.areValued, ih, Bool.and_assoc]

theorem tablesValued_of_forall {tables : List Entries} (h : ∀ e ∈ tables, e.areValued = true) :
    tablesValued tables = true := by
  induction tables with
  | nil => rfl
  | cons e tables ih =>
    obtain ⟨he, htables⟩ := List.forall_mem_cons.1 h
    rw [tablesValued, he, ih htables]
    rfl

/-- Every number of the document stands for one. -/
theorem areValued_documentEntries (lattice : Lattice) :
    lattice.documentEntries.areValued = true := by
  have hbase : lattice.baseEntries.areValued = true := by
    simp [baseEntries, areValued_append, areValued_nodeEntries, Entries.areValued, Node.isValued]
  have htables : ∀ e ∈ (lattice.components.map componentTable).reverse,
      e.areValued = true := by
    simp [componentTable, areValued_nodeEntries]
  rw [documentEntries]
  generalize (lattice.components.map componentTable).reverse = tables
    at htables
  cases tables with
  | nil => exact hbase
  | cons e older =>
    simp [withTables, areValued_append, hbase, Entries.areValued, Node.isValued,
      tablesValued_of_forall htables]

/-- No number in a lattice is a NaN. -/
structure WithoutNaN (lattice : Lattice) : Prop where
  globals : ∀ entry ∈ lattice.globals.entries, entry.2.WithoutNaN
  params : ∀ c ∈ lattice.components, ∀ entry ∈ c.params.entries, entry.2.WithoutNaN

theorem withoutNaN_entryLines {entries : List (String × Value)}
    (h : ∀ entry ∈ entries, entry.2.WithoutNaN) :
    ∀ line ∈ entryLines entries, line.WithoutNaN :=
  List.forall_mem_map.2 h

theorem withoutNaN_lines {lattice : Lattice} (h : lattice.WithoutNaN) :
    ∀ line ∈ lattice.lines, line.WithoutNaN := by
  have hhead : ∀ entry ∈ lattice.headEntries, entry.2.WithoutNaN := by
    rw [headEntries]
    cases lattice.components <;> simp [Value.WithoutNaN]
  have hcomponent : ∀ c ∈ lattice.components, ∀ line ∈ componentLines c, line.WithoutNaN := by
    intro c hc
    have hentries : ∀ entry ∈ componentEntries c, entry.2.WithoutNaN := by
      simpa [componentEntries, Value.WithoutNaN] using h.params c hc
    exact List.forall_mem_cons.2 ⟨trivial, withoutNaN_entryLines hentries⟩
  simp only [lines, List.forall_mem_append, List.forall_mem_cons, List.forall_mem_flatMap]
  exact ⟨⟨withoutNaN_entryLines hhead, trivial, withoutNaN_entryLines h.globals⟩, hcomponent⟩

theorem read?_toToml {lattice : Lattice} (h : lattice.WithoutNaN) :
    read? lattice.toToml =
      if lattice.components.any hidesOwnKey then none else some lattice.documentEntries := by
  have hfirst : ∃ cs, lattice.toToml.toList = 'n' :: cs := by
    have hkey : keyText "name" = "name" := by decide
    simp [toToml, entryLine, hkey]
  have hread : read? lattice.toToml =
      (lexemes? .wide lattice.toToml.toList).bind (statements {}) := by
    obtain ⟨cs, hcs⟩ := hfirst
    rw [read?, hcs]
    rfl
  rw [hread, ← join_lines, statements_lines (withoutNaN_lines h), foldlM_lines]

theorem lookup_name (lattice : Lattice) :
    lattice.documentEntries.lookup "name" = some (.text lattice.name) := by
  have hbase : lattice.baseEntries.lookup "name" = some (.text lattice.name) := by
    simp [baseEntries, headEntries, nodeEntries, nodeOf]
  rw [documentEntries, lookup_withTables (by decide), hbase]

theorem lookup_globals (lattice : Lattice) : lattice.documentEntries.lookup "globals" =
    some (.table .header (nodeEntries lattice.globals.entries)) := by
  rw [documentEntries, lookup_withTables (by decide), baseEntries,
    Entries.lookup_last lattice.lookup_headEntries]

/-- An array of no tables is written inline. -/
theorem exists_lookup_elements (lattice : Lattice) :
    ∃ node, lattice.documentEntries.lookup "elements" = some node ∧
      node.tables? = some (lattice.components.map componentTable) := by
  by_cases hcomponents : lattice.components = []
  · refine ⟨.array [], ?_, by rw [hcomponents]; rfl⟩
    simp only [documentEntries, withTables, baseEntries, headEntries, hcomponents]
    rfl
  · refine ⟨.tables _, ?_, congrArg some (List.reverse_reverse _)⟩
    rw [documentEntries, withTables_of_ne_nil (by simpa using hcomponents),
      Entries.lookup_last (lookup_baseEntries hcomponents)]

theorem mapM_componentOfToml? {components : List Component}
    (h : components.any hidesOwnKey = false) :
    (components.map componentTable).mapM componentOfToml? =
      some components :=
  mapM_map_eq_some fun c hc =>
    componentOfToml?_componentTable (by simpa using List.any_eq_false.1 h c hc)

/-- A lattice without NaN is read back from its document as it was, unless a component has a
parameter `name` or `type`; then the document has no reading. -/
theorem ofToml?_toToml (lattice : Lattice) (h : lattice.WithoutNaN) :
    ofToml? lattice.toToml =
      if lattice.components.any hidesOwnKey then none else some lattice := by
  rw [ofToml?, read?_toToml h]
  cases hclash : lattice.components.any hidesOwnKey with
  | true => rfl
  | false =>
    obtain ⟨node, helements, htables⟩ := exists_lookup_elements lattice
    simp [areValued_documentEntries, lookup_name, lookup_globals, helements, htables,
      dictionaryOfToml?_nodeEntries, mapM_componentOfToml? hclash, Node.text?, Node.entries?]

/-- A cell whose keys and texts need every form of quotes. -/
def quotedCell (key : String) : Lattice where
  name := "\n\"\"\"\x07'''"
  globals := .ofList
    [("", .vector []), ("a.b", .vector [-0.0, 1e300]), ("it's", .scalar (-1.0 / 0.0))]
  components := [{
    name := "C:\\cell"
    kind := "'''\n\""
    params := .ofList [(key, .text "say \"no\""), ("\"", .scalar 5e-324)] }]

theorem withoutNaN_quotedCell (key : String) : (quotedCell key).WithoutNaN where
  globals entry h := by
    have hmem := Dictionary.mem_of_mem_ofList h
    simp only [List.mem_cons, List.not_mem_nil, or_false] at hmem
    rcases hmem with rfl | rfl | rfl
    · exact List.forall_mem_nil _
    · have hxs : ∀ x ∈ [-0.0, (1e300 : Float)], x.isNaN = false := by decide +kernel
      exact hxs
    · have hx : (-1.0 / 0.0 : Float).isNaN = false := by decide +kernel
      exact hx
  params c hc entry h := by
    obtain rfl := List.mem_singleton.1 hc
    have hmem := Dictionary.mem_of_mem_ofList h
    simp only [List.mem_cons, List.not_mem_nil, or_false] at hmem
    rcases hmem with rfl | rfl
    · trivial
    · have hx : (5e-324 : Float).isNaN = false := by decide +kernel
      exact hx

theorem quotedCell_ofToml? : (quotedCell "length").WithoutNaN ∧
    ofToml? (quotedCell "length").toToml = some (quotedCell "length") ∧
    (quotedCell "type").WithoutNaN ∧ ofToml? (quotedCell "type").toToml = none := by
  have hread := ofToml?_toToml (quotedCell "length") (withoutNaN_quotedCell "length")
  have hrefused := ofToml?_toToml (quotedCell "type") (withoutNaN_quotedCell "type")
  rw [if_neg (by decide)] at hread
  rw [if_pos (by decide)] at hrefused
  exact ⟨withoutNaN_quotedCell _, hread, withoutNaN_quotedCell _, hrefused⟩

end BeamEnvelope.Lattice
