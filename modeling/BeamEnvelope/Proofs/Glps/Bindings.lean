import BeamEnvelope.Proofs.Glps.Expansion

/-!
# Texts that define names

A statement whose expressions use no names defines the same symbol in every environment. A text of
such statements extends an environment by its definitions as long as all names are distinct, and no
source is read in which a name is defined twice. So a source of such statements around one line of
elements is judged by its names and by the length of the line.
-/

namespace BeamEnvelope.Glps

open Grammar Reader

variable {scope final : Scope} {env bs bs' : Environment} {b : String × Symbol} {st : Statement}
  {p : Program} {s rest : Stream} {text text' : String}

/-- Whether a statement defines a name as the same symbol in every environment. -/
structure IsDefinition (st : Statement) (b : String × Symbol) : Prop where
  name : st.name = b.1
  symbol? : ∀ env : Environment, st.symbol? env = some b.2
  nestsWithin : st.NestsWithin maxNesting

theorem IsDefinition.extend? (h : IsDefinition st b) (hnew : env.lookup b.1 = none) :
    st.extend? env = some (env ++ [b]) := by
  simp [Statement.extend?, h.symbol?, h.name, hnew]

theorem nestsWithin_of_definitions (h : p.Forall₂ IsDefinition bs) : p.NestsWithin maxNesting := by
  induction h with
  | nil => exact fun st hst => absurd hst List.not_mem_nil
  | cons hst _ ih => exact List.forall_mem_cons.2 ⟨hst.nestsWithin, ih⟩

/-- Definitions of new names extend any environment. -/
theorem foldlM_definitions (h : p.Forall₂ IsDefinition bs)
    (hnames : ((env ++ bs).map (·.1)).Nodup) :
    p.foldlM Statement.extend? env = some (env ++ bs) := by
  induction h generalizing env with
  | nil => simp
  | @cons st b p bs hst _ ih =>
    have hnew : env.lookup b.1 = none := by
      rw [lookup_eq_none_iff_not_mem]
      intro hmem
      rw [List.map_append] at hnames
      exact (List.nodup_append.1 hnames).2.2 _ hmem _ (by simp) rfl
    rw [List.foldlM_cons, hst.extend? hnew]
    change p.foldlM Statement.extend? _ = _
    rw [ih, List.append_assoc, List.singleton_append]
    simpa using hnames

theorem name_of_begins (h : s.Begins st.tokens rest) :
    ∃ pos after, s = .token (.name st.name) pos after := by
  cases st <;>
    · obtain ⟨pos, after, rfl, -⟩ := Stream.begins_cons.1 h
      exact ⟨pos, after, rfl⟩

/-- A statement is read only if its name is new. -/
theorem lookup_of_program (hs : s.Begins st.tokens rest) (h : program scope s = .ok final) :
    scope.environment.lookup st.name = none := by
  obtain ⟨pos, after, rfl⟩ := name_of_begins hs
  obtain ⟨next, mid, hread, -⟩ := (program_eq_ok_of_not_isFinish rfl).1 h
  obtain ⟨st', hs', -, hextend⟩ := derivesStatement_of_reads hread
  obtain ⟨pos', after', heq⟩ := name_of_begins hs'
  have hname : st.name = st'.name := by
    injection heq with htoken
    injection htoken
  obtain ⟨symbol, -, hnew⟩ := Option.bind_eq_some_iff.1 hextend
  simp only [Option.ite_none_left_eq_some] at hnew
  rw [hname]
  exact Option.not_isSome_iff_eq_none.1 hnew.1

theorem nodup_environment (scope : Scope) : (scope.environment.map (·.1)).Nodup := by
  rw [Scope.environment, List.map_reverse]
  exact List.nodup_reverse.2 scope.distinct

/-- Definitions are read only if their names are new and distinct. -/
theorem program_of_definitions (h : p.Forall₂ IsDefinition bs) (hs : s.Begins p.tokens rest)
    (hrest : rest.IsSound) (hread : program scope s = .ok final) :
    ∃ next, next.environment = scope.environment ++ bs ∧ program next rest = .ok final := by
  induction h generalizing scope s with
  | nil =>
    obtain rfl := Stream.begins_nil.1 hs
    exact ⟨scope, (List.append_nil _).symm, hread⟩
  | @cons st b p bs hst _ ih =>
    rw [Program.tokens, List.flatMap_cons] at hs
    obtain ⟨mid, hone, hmore⟩ := Stream.begins_append.1 hs
    have hnew := lookup_of_program hone hread
    rw [hst.name] at hnew
    have hrun : [st].foldlM Statement.extend? scope.environment = some (scope.environment ++ [b]) := by
      simp [hst.extend? hnew]
    have htokens : s.Begins (Program.tokens [st]) mid := by
      rwa [Program.tokens, List.flatMap_singleton]
    have hnest : Program.NestsWithin maxNesting [st] :=
      List.forall_mem_singleton.2 hst.nestsWithin
    obtain ⟨next, henv, hnext⟩ := program_of_begins htokens (hmore.isSound hrest) hnest hrun
    rw [hnext] at hread
    obtain ⟨behind, hbehind, hfinal⟩ := ih hmore hread
    refine ⟨behind, ?_, hfinal⟩
    rw [hbehind, henv, List.append_assoc, List.singleton_append]

/-- Whether a text consists of definitions, wherever it stands. -/
def Defines (text : String) (bs : Environment) : Prop :=
  ∃ p : Program, p.Forall₂ IsDefinition bs ∧ ∀ rest, Lexes (bytesOf text ++ rest) p.tokens rest

theorem Defines.append (h : Defines text bs) (h' : Defines text' bs') :
    Defines (text ++ text') (bs ++ bs') := by
  obtain ⟨p, hp, htext⟩ := h
  obtain ⟨q, hq, htext'⟩ := h'
  refine ⟨p ++ q, List.rel_append hp hq, fun rest => ?_⟩
  rw [bytesOf_append, List.append_assoc, Program.tokens, List.flatMap_append]
  exact (htext _).append (htext' rest)

theorem defines_layout (h : ∀ rest, Lexes (bytesOf text ++ rest) [] rest) : Defines text [] :=
  ⟨[], .nil, h⟩

theorem defines_statement (hst : IsDefinition st b)
    (h : ∀ rest, Lexes (bytesOf text ++ rest) st.tokens rest) : Defines text [b] := by
  refine ⟨[st], .cons hst .nil, fun rest => ?_⟩
  rw [Program.tokens, List.flatMap_singleton]
  exact h rest

theorem defines_comment {cs : List Char} (h : '\n' ∉ cs) :
    Defines (String.ofList ('#' :: cs) ++ "\n") [] := by
  refine defines_layout fun rest => ?_
  have hhash : bytesOf (String.ofList ('#' :: cs)) = Bytes.hash :: bytesOf (String.ofList cs) := by
    rw [bytesOf_eq_flatMap, bytesOf_eq_flatMap, String.toList_ofList, String.toList_ofList]
    rfl
  have hbytes : Position.newline ∉ bytesOf (String.ofList cs) := by
    rw [← String.toList_ofList (l := cs)] at h
    exact fun hmem => h ((mem_bytesOf (by decide)).1 hmem)
  rw [bytesOf_append, hhash, List.append_assoc]
  exact lexes_comment hbytes

/-- Whether a text is read as an expression that has the value `x` in every environment. -/
def Denotes (text : String) (x : Float) : Prop :=
  ∃ e : Expression, e.nesting ≤ maxNesting ∧ (∀ env, e.value? env = some (.scalar x)) ∧ Spells text e

variable {α : Type} {key source : α → String} {value : α → Float} {xs : List α} {name kind : String}

theorem defines_element (hname : isIdentifier name = true) (hkind : isIdentifier kind = true)
    (hkeys : (xs.map key).Nodup) (hkey : ∀ x ∈ xs, isIdentifier (key x) = true)
    (h : ∀ x ∈ xs, Denotes (source x) (value x)) :
    Defines (name ++ ": " ++ kind ++ String.join (xs.map fun x => assignment (key x) (source x)) ++
        ";\n")
      [(name, .element { name, kind, params := .ofList (xs.map fun x => (key x, .scalar (value x))) })]
    := by
  classical
  have : Nonempty Expression := ⟨numberTree 0⟩
  choose! tree hnest hvalue hspells using h
  have hparams (env : Environment) : (xs.map fun x => (key x, tree x)).mapM (parameterValue? env) =
      some (xs.map fun x => (key x, .scalar (value x))) := by
    rw [mapM_eq_some, List.forall₂_map_left_iff, List.forall₂_map_right_iff, List.forall₂_same]
    intro x hx
    simp [parameterValue?, hvalue x hx env]
  refine @defines_statement _ (.element name kind (xs.map fun x => (key x, tree x))) _
    ⟨rfl, fun env => ?_, ?_⟩ fun rest => ?_
  · simpa [Statement.symbol?, hparams, Function.comp_def] using hkeys
  · intro p hp
    obtain ⟨x, hx, rfl⟩ := List.mem_map.1 hp
    exact hnest x hx
  · exact lexes_element hname hkind fun x hx => ⟨hkey x hx, hspells x hx⟩

theorem isDefinition_globalTree {entry : String × Value} (h : IsPrintableEntry entry) :
    IsDefinition (globalTree entry) (entry.1, .value entry.2) := by
  refine ⟨rfl, fun env => ?_, (nesting_valueTree entry.2).trans (by decide)⟩
  simp [globalTree, Statement.symbol?, value?_valueTree h.2]

theorem defines_global {entry : String × Value} (h : IsPrintableEntry entry) :
    Defines (globalSource entry) [(entry.1, .value entry.2)] :=
  defines_statement (isDefinition_globalTree h) fun _ => lexes_global h

variable {front behind : String} {first : String} {others : List String} {cs : List Component}
  {us : Environment} {lattice : Lattice}

theorem symbol?_line (hnames : cs.map (·.name) = first :: others)
    (hcs : ∀ c ∈ cs, env.lookup c.name = some (.element c)) (hfits : cs.length ≤ maxElements) :
    (lineTree name first others).symbol? env = some (.line cs) := by
  have hitems : (Item.once first :: others.map .once).mapM (Item.components? env) =
      some (cs.map fun c => [c]) := by
    rw [← List.map_cons, ← hnames, List.map_map, mapM_eq_some, List.forall₂_map_left_iff,
      List.forall₂_map_right_iff, List.forall₂_same]
    intro c hc
    simp [Item.components?, hcs c hc, Grammar.components?]
  have hflatten : (cs.map fun c => [c]).flatten = cs := by
    rw [← List.flatMap_def, ← List.map_eq_flatMap, List.map_id']
  simp only [lineTree, Statement.symbol?, hitems, Option.bind_eq_bind, Option.bind_some, hflatten]
  rw [if_pos hfits]
  rfl

theorem nestsWithin_lineTree (name first : String) (others : List String) :
    (lineTree name first others).NestsWithin maxNesting := by
  intro i hi
  rcases List.mem_cons.1 hi with rfl | hi
  · trivial
  · obtain ⟨n, -, rfl⟩ := List.mem_map.1 hi
    trivial

theorem extend?_line (hnames : cs.map (·.name) = first :: others)
    (hnodup : (env.map (·.1)).Nodup) (hcs : ∀ c ∈ cs, (c.name, Symbol.element c) ∈ env)
    (hfits : cs.length ≤ maxElements) (hnew : env.lookup name = none) :
    (lineTree name first others).extend? env = some (env ++ [(name, .line cs)]) := by
  have hlookup : ∀ c ∈ cs, env.lookup c.name = some (.element c) :=
    fun c hc => (lookup_eq_some_iff_mem hnodup).2 (hcs c hc)
  have hsymbol : (lineTree name first others).symbol? env = some (.line cs) :=
    symbol?_line hnames hlookup hfits
  rw [Statement.extend?, hsymbol]
  simp [lineTree, Statement.name, hnew]

/-- A line of elements is read only if its name is new and it is not too long. -/
theorem program_of_line (hnames : cs.map (·.name) = first :: others)
    (hcs : ∀ c ∈ cs, (c.name, Symbol.element c) ∈ scope.environment)
    (hs : s.Begins (lineTree name first others).tokens rest) (hrest : rest.IsSound)
    (hread : program scope s = .ok final) : cs.length ≤ maxElements ∧
      ∃ next, next.environment = scope.environment ++ [(name, .line cs)] ∧
        program next rest = .ok final := by
  have hnodup := nodup_environment scope
  have hfits : cs.length ≤ maxElements := by
    by_contra hlong
    have helements : AreElements scope.environment (first :: others) := by
      rw [← hnames]
      exact List.forall_mem_map.2 fun c hc => ⟨c, (lookup_eq_some_iff_mem hnodup).2 (hcs c hc)⟩
    obtain ⟨refused, hrefused⟩ := statement_overflow hs helements
      (by rwa [← hnames, List.length_map, ← Nat.not_le])
    obtain ⟨_, _, rfl⟩ := name_of_begins hs
    rw [program_eq_error rfl hrefused] at hread
    cases hread
  have hnew : scope.environment.lookup name = none := lookup_of_program hs hread
  have hrun : [lineTree name first others].foldlM Statement.extend? scope.environment =
      some (scope.environment ++ [(name, .line cs)]) := by
    rw [List.foldlM_cons, extend?_line hnames hnodup hcs hfits hnew]
    rfl
  have htokens : s.Begins (Program.tokens [lineTree name first others]) rest := by
    rwa [Program.tokens, List.flatMap_singleton]
  obtain ⟨next, henv, hnext⟩ := program_of_begins htokens hrest
    (List.forall_mem_singleton.2 (nestsWithin_lineTree name first others)) hrun
  exact ⟨hfits, next, henv, hnext ▸ hread⟩

section

variable {q : Program} {bytes : List UInt8} {pos : Position} (hp : p.Forall₂ IsDefinition bs)
  (hq : q.Forall₂ IsDefinition us) (hnames : cs.map (·.name) = first :: others)
  (hcs : ∀ c ∈ cs, (c.name, Symbol.element c) ∈ bs)
  (hs : (Stream.ofBytes {} bytes).Begins
    (p.tokens ++ ((lineTree name first others).tokens ++ q.tokens)) (.finish pos))

include hp hq hnames hcs hs

/-- A source that is read passes through the environments of its parts. -/
theorem lattice?_of_read (hread : read bytes = .ok lattice) :
    ((bs ++ [(name, Symbol.line cs)] ++ us).map (·.1)).Nodup ∧ cs.length ≤ maxElements ∧
      Environment.lattice? (bs ++ [(name, Symbol.line cs)] ++ us) = some lattice := by
  obtain ⟨final, hfinal, hlattice⟩ := bind_eq_ok.1 hread
  obtain ⟨mid, hdefinitions, hrest⟩ := Stream.begins_append.1 hs
  obtain ⟨last, hline, hlast⟩ := Stream.begins_append.1 hrest
  have hsound : last.IsSound := hlast.isSound trivial
  obtain ⟨next, henv, hnext⟩ := program_of_definitions hp hdefinitions (hline.isSound hsound) hfinal
  obtain rfl : next.environment = bs := henv
  obtain ⟨hfits, after, hafter, hbehind⟩ := program_of_line hnames hcs hline hsound hnext
  obtain ⟨_, hend, hfinal⟩ := program_of_definitions hq hlast trivial hbehind
  rw [program_of_isFinish rfl] at hfinal
  obtain rfl := Except.ok.inj hfinal
  rw [← hafter, ← hend]
  exact ⟨nodup_environment _, hfits, lattice_eq_ok.1 hlattice⟩

theorem read_of_lattice? (hnodup : ((bs ++ [(name, Symbol.line cs)] ++ us).map (·.1)).Nodup)
    (hfits : cs.length ≤ maxElements)
    (hlattice : Environment.lattice? (bs ++ [(name, Symbol.line cs)] ++ us) = some lattice) :
    read bytes = .ok lattice := by
  have hfresh : (bs.map (·.1)).Nodup ∧ bs.lookup name = none := by
    rw [List.map_append, List.map_append] at hnodup
    obtain ⟨hbs, -, hdisjoint⟩ := List.nodup_append.1 hnodup.of_append_left
    refine ⟨hbs, lookup_eq_none_iff_not_mem.2 fun hmem => ?_⟩
    exact hdisjoint _ hmem _ (by simp) rfl
  have hrun : (p ++ lineTree name first others :: q).foldlM Statement.extend?
      ([] : Environment) = some (bs ++ [(name, Symbol.line cs)] ++ us) := by
    rw [List.foldlM_append, @foldlM_definitions [] _ _ hp hfresh.1]
    change (lineTree name first others :: q).foldlM Statement.extend? bs = _
    rw [List.foldlM_cons, extend?_line hnames hfresh.1 hcs hfits hfresh.2]
    exact foldlM_definitions hq hnodup
  have htokens : p.tokens ++ ((lineTree name first others).tokens ++ q.tokens) =
      Program.tokens (p ++ lineTree name first others :: q) := by
    simp [Program.tokens]
  rw [htokens] at hs
  refine read_of_program hs ?_ (Option.bind_eq_some_iff.2 ⟨_, hrun, hlattice⟩)
  rw [Program.NestsWithin, List.forall_mem_append, List.forall_mem_cons]
  exact ⟨nestsWithin_of_definitions hp, nestsWithin_lineTree name first others,
    nestsWithin_of_definitions hq⟩

end

/-- Definitions with a line of elements between them are read exactly if all names are distinct and
the line is not too long. -/
theorem read_line_eq_ok (hfront : Defines front bs) (hbehind : Defines behind us)
    (hname : isIdentifier name = true) (hnames : ∀ c ∈ cs, isIdentifier c.name = true)
    (hcs : ∀ c ∈ cs, (c.name, Symbol.element c) ∈ bs) (hne : cs ≠ []) :
    read (bytesOf (front ++ lineStatement name (cs.map (·.name)) ++ behind)) = .ok lattice ↔
      ((bs ++ [(name, Symbol.line cs)] ++ us).map (·.1)).Nodup ∧ cs.length ≤ maxElements ∧
        Environment.lattice? (bs ++ [(name, Symbol.line cs)] ++ us) = some lattice := by
  obtain ⟨p, hp, hfront⟩ := hfront
  obtain ⟨q, hq, hbehind⟩ := hbehind
  obtain ⟨first, others, hitems⟩ := List.exists_cons_of_ne_nil (List.map_eq_nil_iff.not.2 hne)
  have hidentifiers : ∀ m ∈ first :: others, isIdentifier m = true := by
    rw [← hitems]
    exact List.forall_mem_map.2 hnames
  have hlexes := (hfront _).append ((@lexes_line _ name first others hname hidentifiers).append
    (hbehind []))
  rw [← hitems, List.append_nil, ← bytesOf_append, ← bytesOf_append, ← String.append_assoc] at hlexes
  obtain ⟨pos, hs⟩ := hlexes {}
  rw [ofBytes_nil] at hs
  constructor
  · exact lattice?_of_read hp hq hitems hcs hs
  · rintro ⟨hnodup, hfits, hlattice⟩
    exact read_of_lattice? hp hq hitems hcs hs hnodup hfits hlattice

def valueBindings (entries : List (String × Value)) : Environment :=
  entries.map fun entry => (entry.1, .value entry.2)

def elementBindings (cs : List Component) : Environment := cs.map fun c => (c.name, .element c)

theorem map_fst_valueBindings (entries : List (String × Value)) :
    (valueBindings entries).map (·.1) = entries.map (·.1) := List.map_map

theorem map_fst_elementBindings (cs : List Component) :
    (elementBindings cs).map (·.1) = cs.map (·.name) := List.map_map

theorem lattice?_line (entries : List (String × Value)) (name : String) (ds cs us : List Component) :
    Environment.lattice? (valueBindings entries ++ elementBindings ds ++ [(name, Symbol.line cs)] ++
      elementBindings us) = some { name, globals := .ofList entries, components := cs } := by
  have hvalues : (valueBindings entries).filterMap (fun b => b.2.value?.map (b.1, ·)) = entries := by
    simp [valueBindings, List.filterMap_map, Symbol.value?]
  have hlines : (valueBindings entries).filterMap (fun b => b.2.line?.map (b.1, ·)) = [] := by
    simp [valueBindings, List.filterMap_map, Symbol.line?]
  have helements (ds : List Component) :
      (elementBindings ds).filterMap (fun b => b.2.value?.map (b.1, ·)) = [] ∧
        (elementBindings ds).filterMap (fun b => b.2.line?.map (b.1, ·)) = [] := by
    simp [elementBindings, List.filterMap_map, Symbol.value?, Symbol.line?]
  simp only [Environment.lattice?, List.filterMap_append, hvalues, hlines, helements]
  simp [Symbol.value?, Symbol.line?]

/-- Values and elements with a line of these elements behind them, and further elements at the end. -/
theorem read_elements_eq_ok {entries : List (String × Value)} {ds us : List Component}
    (hfront : Defines front (valueBindings entries ++ elementBindings ds))
    (hbehind : Defines behind (elementBindings us)) (hname : isIdentifier name = true)
    (hnames : ∀ c ∈ cs, isIdentifier c.name = true) (hcs : cs ⊆ ds) (hne : cs ≠ []) :
    read (bytesOf (front ++ lineStatement name (cs.map (·.name)) ++ behind)) = .ok lattice ↔
      (entries.map (·.1) ++ ds.map (·.name) ++ [name] ++ us.map (·.name)).Nodup ∧
        cs.length ≤ maxElements ∧
        lattice = { name, globals := .ofList entries, components := cs } := by
  have hmem : ∀ c ∈ cs, (c.name, Symbol.element c) ∈ valueBindings entries ++ elementBindings ds :=
    fun c hc => List.mem_append_right _ (List.mem_map.2 ⟨c, hcs hc, rfl⟩)
  rw [read_line_eq_ok hfront hbehind hname hnames hmem hne, lattice?_line, Option.some_inj,
    @eq_comm _ lattice]
  simp only [List.map_append, map_fst_valueBindings, map_fst_elementBindings, List.map_singleton]

end BeamEnvelope.Glps
