import BeamEnvelope.Proofs.Dictionary
import BeamEnvelope.Proofs.Toml.Lines

/-!
# The tables that lines build

An entry goes into the table that was opened last, under its header or as the latest one of an
array, and is refused there if its key is taken. So a row of entries is built if its keys are
distinct. The keys of a dictionary are, and what can clash is a component's parameter with its name
or its kind, which stand in the same table.
-/

namespace BeamEnvelope.Toml

variable {front base e : Entries} {k key : String} {a b node : Node} {put : Entries → Node}

namespace Entries

theorem lookup_last (h : front.lookup k = none) (a : Node) :
    (front ++ [(k, a)]).lookup k = some a := by
  simp [List.lookup_append, h]

theorem replace_last (h : front.lookup k = none) (a b : Node) :
    (front ++ [(k, a)]).replace k b = front ++ [(k, b)] := by
  have hfront : front.map (fun e => if e.1 = k then (k, b) else e) = front := by
    apply List.map_congr_left _ |>.trans (List.map_id _)
    intro e he
    have hne : e.1 ≠ k := by
      rintro rfl
      exact lookup_eq_none_iff_not_mem.1 h (List.mem_map_of_mem he)
    simp [hne]
  simp [replace, hfront]

/-- What a table is under its header or as the latest one of an array. -/
inductive IsOpen : (Entries → Node) → Prop
  | table : IsOpen (.table .header)
  | tables (older : List Entries) : IsOpen fun e => .tables (e :: older)

theorem descend?_open (hput : IsOpen put) (h : front.lookup k = none) (e : Entries)
    (change : Entries → Option Entries) :
    descend? [k] change (front ++ [(k, put e)]) =
      (change e).map fun e => front ++ [(k, put e)] := by
  cases hput with
  | table =>
    rw [descend?, lookup_last h]
    cases hchange : change e <;> simp [descend?, replace_last h, hchange]
  | tables older =>
    rw [descend?, lookup_last h]
    cases hchange : change e <;> simp [descend?, replace_last h, hchange]

/-- An entry is new at the end of a table, or its key is taken. -/
theorem insert?_key (key : String) (node : Node) (e : Entries) :
    insert? [key] node e = if key ∈ e.map (·.1) then none else some (e ++ [(key, node)]) := by
  by_cases hkey : key ∈ e.map (·.1)
  · have hlookup : e.lookup key ≠ none := fun h => lookup_eq_none_iff_not_mem.1 h hkey
    simp [insert?, insertUnder?, Option.isSome_iff_ne_none, hlookup, hkey]
  · have hlookup : e.lookup key = none := lookup_eq_none_iff_not_mem.2 hkey
    simp [insert?, insertUnder?, hlookup, hkey]

end Entries

def entryLines (entries : List (String × Value)) : List Line :=
  entries.map fun entry => .entry entry.1 entry.2

def nodeEntries (entries : List (String × Value)) : Entries :=
  entries.map fun entry => (entry.1, nodeOf entry.2)

theorem change?_entry (hput : Entries.IsOpen put) (hk : front.lookup k = none) (e : Entries)
    (key : String) (v : Value) :
    (Line.entry key v).change? ⟨front ++ [(k, put e)], [k]⟩ =
      if key ∈ e.map (·.1) then none
      else some ⟨front ++ [(k, put (e ++ [(key, nodeOf v)]))], [k]⟩ := by
  have hinsert := Entries.descend?_open hput hk e (Entries.insert? [key] (nodeOf v))
  rw [Entries.insert?_key] at hinsert
  by_cases hkey : key ∈ e.map (·.1)
  · simp only [if_pos hkey] at hinsert ⊢
    simp [Line.change?, Progress.insert?, hinsert]
  · simp only [if_neg hkey] at hinsert ⊢
    simp [Line.change?, Progress.insert?, hinsert]

/-- A row of entries goes into the table opened last, if their keys are new and distinct. -/
theorem foldlM_entries (hput : Entries.IsOpen put) (hk : front.lookup k = none) {e : Entries}
    (he : (e.map (·.1)).Nodup) (entries : List (String × Value)) :
    (entryLines entries).foldlM Line.change? ⟨front ++ [(k, put e)], [k]⟩ =
      if ((e ++ nodeEntries entries).map (·.1)).Nodup then
        some ⟨front ++ [(k, put (e ++ nodeEntries entries))], [k]⟩
      else none := by
  -- the table has grown by one entry when the rest of the row goes in
  induction entries generalizing e with
  | nil => simp [entryLines, nodeEntries, he]
  | cons entry rest ih =>
    rw [entryLines, List.map_cons, List.foldlM_cons, change?_entry hput hk]
    have happend : e ++ nodeEntries (entry :: rest) =
        e ++ [(entry.1, nodeOf entry.2)] ++ nodeEntries rest := by simp [nodeEntries]
    have hkeys : (e ++ [(entry.1, nodeOf entry.2)]).map (·.1) = (e.map (·.1)).concat entry.1 := by
      simp
    rw [happend]
    by_cases hkey : entry.1 ∈ e.map (·.1)
    · have hclash : ¬((e ++ [(entry.1, nodeOf entry.2)] ++ nodeEntries rest).map (·.1)).Nodup := by
        intro hnodup
        rw [List.map_append, hkeys] at hnodup
        exact ((List.nodup_concat _ _).1 hnodup.of_append_left).1 hkey
      rw [if_pos hkey, if_neg hclash]
      rfl
    · rw [if_neg hkey]
      exact ih (hkeys ▸ he.concat hkey)

def componentEntries (c : Component) : List (String × Value) :=
  ("name", .text c.name) :: ("type", .text c.kind) :: c.params.entries

def componentTable (c : Component) : Entries := nodeEntries (componentEntries c)

/-- Whether a parameter would take the place of the component's name or kind. -/
def hidesOwnKey (c : Component) : Bool := c.params.contains "name" || c.params.contains "type"

def componentLines (c : Component) : List Line :=
  .tables "elements" :: entryLines (componentEntries c)

theorem map_fst_nodeEntries (entries : List (String × Value)) :
    (nodeEntries entries).map (·.1) = entries.map (·.1) := by
  simp [nodeEntries]

theorem nodup_componentTable (c : Component) :
    ((componentTable c).map (·.1)).Nodup ↔ hidesOwnKey c = false := by
  have hparams := c.params.nodup_names
  rw [componentTable, map_fst_nodeEntries, hidesOwnKey, Bool.or_eq_false_iff, ← Bool.not_eq_true,
    ← Bool.not_eq_true, Dictionary.contains_iff_mem, Dictionary.contains_iff_mem]
  simp only [componentEntries, List.map_cons, List.nodup_cons, hparams, and_true]
  simp

/-- The tables of the components behind the rest of the document, the latest first. -/
def withTables (base : Entries) : List Entries → Entries
  | [] => base
  | tables => base ++ [("elements", .tables tables)]

theorem withTables_of_ne_nil {tables : List Entries} (h : tables ≠ []) :
    withTables base tables = base ++ [("elements", .tables tables)] := by
  cases tables with
  | nil => exact absurd rfl h
  | cons table older => rfl

theorem lookup_withTables (hkey : key ≠ "elements") (tables : List Entries) :
    (withTables base tables).lookup key = base.lookup key := by
  have hbeq : (key == "elements") = false := beq_eq_false_iff_ne.2 hkey
  cases tables <;> simp [withTables, List.lookup_append, List.lookup_cons, hbeq]

theorem change?_tables (h : base.lookup "elements" = none) (tables : List Entries)
    (current : List String) :
    (Line.tables "elements").change? ⟨withTables base tables, current⟩ =
      some ⟨base ++ [("elements", .tables ([] :: tables))], ["elements"]⟩ := by
  cases tables with
  | nil => simp [Line.change?, Progress.open?, Entries.descend?, Entries.pushTable?, withTables, h]
  | cons table older =>
    simp [Line.change?, Progress.open?, Entries.descend?, Entries.pushTable?, withTables,
      Entries.lookup_last h, Entries.replace_last h]

theorem foldlM_component (h : base.lookup "elements" = none) (c : Component) (tables : List Entries)
    (current : List String) :
    (componentLines c).foldlM Line.change? ⟨withTables base tables, current⟩ =
      if hidesOwnKey c then none
      else some ⟨withTables base (componentTable c :: tables), ["elements"]⟩ := by
  have hempty : (([] : Entries).map (·.1)).Nodup := List.nodup_nil
  have hentries := foldlM_entries (.tables tables) h hempty (componentEntries c)
  have hnodup := nodup_componentTable c
  rw [List.nil_append] at hentries
  rw [componentLines, List.foldlM_cons, change?_tables h]
  refine hentries.trans ?_
  cases hc : hidesOwnKey c with
  | true => exact if_neg fun h => by simp [hnodup.1 h] at hc
  | false => exact if_pos (hnodup.2 hc)

/-- All components' tables are built unless one of them is refused. -/
theorem foldlM_components (h : base.lookup "elements" = none) (components : List Component)
    (tables : List Entries) (current : List String) :
    ((components.flatMap componentLines).foldlM Line.change? ⟨withTables base tables, current⟩).map
        Progress.root =
      if components.any hidesOwnKey then none
      else some (withTables base ((components.map componentTable).reverse ++ tables)) := by
  induction components generalizing tables current with
  | nil => simp
  | cons c components ih =>
    rw [List.flatMap_cons, List.foldlM_append, foldlM_component h]
    by_cases hc : hidesOwnKey c = true
    · simp [hc]
    · simp [hc, ih]

end BeamEnvelope.Toml
