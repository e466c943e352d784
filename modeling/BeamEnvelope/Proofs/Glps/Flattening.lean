import BeamEnvelope.Proofs.Glps.TwoPhases
import BeamEnvelope.Text.Bytes

/-!
# Stored lines are the expansions of their definitions

A line is stored flat, although it is defined by elements and other lines. Here every definition is
kept as it was made, a line as its counts and targets, and a line is expanded by recursion through
the definitions. Wherever the reading of a source has come to, both give the same components. The
length of a line is computed on machine integers before anything is copied, and a line that would
grow beyond `maxElements` is left as it was.
-/

namespace BeamEnvelope.Glps

open Grammar Reader

structure Entry where
  count : Nat
  target : String

inductive Definition where
  | value (v : Value)
  | element (c : Component)
  | line (entries : List Entry)

variable {expand : String → Option (List Component)} {n m : String} {d : Definition} {e : Entry}
  {entries : List Entry} {cs : List Component}

/-- What an entry contributes to a line: the expansion of its target, as often as it counts. -/
def Entry.part? (expand : String → Option (List Component)) (e : Entry) :
    Option (List Component) :=
  (expand e.target).map fun target => (List.replicate e.count target).flatten

def flatten? (expand : String → Option (List Component)) (entries : List Entry) :
    Option (List Component) :=
  (entries.mapM (Entry.part? expand)).map List.flatten

/-- A line has the length of its entries' targets, each as often as it counts. -/
theorem length_of_flatten? (h : flatten? expand entries = some cs) :
    cs.length = (entries.map fun e => e.count * ((expand e.target).getD []).length).sum := by
  obtain ⟨parts, hparts, rfl⟩ := Option.map_eq_some_iff.1 h
  rw [mapM_eq_some] at hparts
  clear h
  induction hparts with
  | nil => rfl
  | cons hpart _ ih =>
    obtain ⟨part, hexpand, rfl⟩ := Option.map_eq_some_iff.1 hpart
    rw [List.flatten_cons, List.length_append, ih]
    simp [hexpand]

/-- Definitions by name, the latest one first. -/
abbrev Definitions := List (String × Definition)

def Definition.expand? (expand : String → Option (List Component)) :
    Definition → Option (List Component)
  | value _ => none
  | element c => some [c]
  | line entries => flatten? expand entries

namespace Definitions

/-- What a name expands to inside a line: an element to itself, and a line to its entries. Their
targets are defined before the line. -/
def expand? : Definitions → String → Option (List Component)
  | [], _ => none
  | (m, d) :: older, n => if n = m then d.expand? (expand? older) else expand? older n

variable {defs : Definitions}

theorem expand?_cons_self : expand? ((n, d) :: defs) n = d.expand? defs.expand? := by
  rw [expand?, if_pos rfl]

theorem expand?_cons_of_ne (h : m ≠ n) : expand? ((n, d) :: defs) m = defs.expand? m := by
  rw [expand?, if_neg h]

theorem mem_of_expand? (h : defs.expand? n = some cs) : n ∈ defs.map (·.1) := by
  induction defs with
  | nil => cases h
  | cons latest older ih =>
    obtain ⟨m, d⟩ := latest
    by_cases hn : n = m
    · exact hn ▸ List.mem_cons_self
    · rw [expand?_cons_of_ne hn] at h
      exact List.mem_cons_of_mem _ (ih h)

/-- A definition under a new name leaves the expansions as they are. -/
theorem expand?_cons (hnew : n ∉ defs.map (·.1)) (h : defs.expand? m = some cs) :
    expand? ((n, d) :: defs) m = some cs := by
  rwa [expand?_cons_of_ne]
  rintro rfl
  exact hnew (mem_of_expand? h)

theorem flatten?_cons (hnew : n ∉ defs.map (·.1)) (h : flatten? defs.expand? entries = some cs) :
    flatten? (expand? ((n, d) :: defs)) entries = some cs := by
  obtain ⟨parts, hparts, rfl⟩ := Option.map_eq_some_iff.1 h
  refine Option.map_eq_some_iff.2 ⟨parts, mapM_eq_some.2 ?_, rfl⟩
  refine (mapM_eq_some.1 hparts).imp fun e part hpart => ?_
  obtain ⟨target, htarget, rfl⟩ := Option.map_eq_some_iff.1 hpart
  exact Option.map_eq_some_iff.2 ⟨target, expand?_cons hnew htarget, rfl⟩

end Definitions

/-- What a definition is stored as: a line as the components of its expansion, which are at most
`maxElements`. -/
inductive Definition.Stores (expand : String → Option (List Component)) :
    Definition → Symbol → Prop
  | value (v : Value) : Stores expand (.value v) (.value v)
  | element (c : Component) : Stores expand (.element c) (.element c)
  | line {entries : List Entry} {cs : List Component} (flat : flatten? expand entries = some cs)
    (fits : cs.length ≤ maxElements) : Stores expand (.line entries) (.line cs)

theorem Definition.Stores.components?_eq {symbol : Symbol} (h : d.Stores expand symbol) :
    components? symbol = d.expand? expand := by
  cases h with
  | value v => rfl
  | element c => rfl
  | line flat fits => exact flat.symm

theorem Definition.Stores.cons {defs : Definitions} {symbol : Symbol} {latest : Definition}
    (hnew : n ∉ defs.map (·.1)) (h : d.Stores defs.expand? symbol) :
    d.Stores (Definitions.expand? ((n, latest) :: defs)) symbol := by
  cases h with
  | value v => exact .value v
  | element c => exact .element c
  | line flat fits => exact .line (Definitions.flatten?_cons hnew flat) fits

/-- A scope stores definitions under their names. -/
structure Scope.Flattens (scope : Scope) (defs : Definitions) : Prop where
  names : scope.definitions.map (·.1) = defs.map (·.1)
  stored (n : String) :
    Option.Rel (Definition.Stores defs.expand?) (defs.lookup n) (scope.get? n)
  expanded (n : String) : (scope.get? n).bind components? = defs.expand? n

namespace Scope.Flattens

variable {scope next : Scope} {defs : Definitions} {symbol : Symbol}

theorem empty : Flattens {} [] := ⟨rfl, fun _ => .none, fun _ => rfl⟩

/-- One more definition, stored as it stands behind the others. -/
theorem define (h : scope.Flattens defs) (hd : d.Stores defs.expand? symbol)
    (hnext : next.environment = scope.environment ++ [(n, symbol)]) :
    next.Flattens ((n, d) :: defs) := by
  have hdefinitions : next.definitions = (n, symbol) :: scope.definitions := by
    have hreverse := congrArg List.reverse hnext
    rwa [environment, environment, List.reverse_reverse, List.reverse_append, List.reverse_reverse,
      List.reverse_singleton, List.singleton_append] at hreverse
  have hnames : next.definitions.map (·.1) = n :: defs.map (·.1) := by
    rw [hdefinitions, List.map_cons, h.names]
  have hnew : n ∉ defs.map (·.1) := (List.nodup_cons.1 (hnames ▸ next.distinct)).1
  have hself : next.get? n = some symbol := by
    rw [get?, hdefinitions, List.lookup_cons_self]
  have hother {m : String} (hm : m ≠ n) : next.get? m = scope.get? m := by
    rw [get?, hdefinitions, List.lookup_cons, beq_false_of_ne hm]
    rfl
  refine ⟨hnames, fun m => ?_, fun m => ?_⟩
  · by_cases hm : m = n
    · subst hm
      rw [hself, List.lookup_cons_self]
      exact .some (hd.cons hnew)
    · have hstored := h.stored m
      rw [hother hm, List.lookup_cons, beq_false_of_ne hm]
      dsimp only
      generalize scope.get? m = found, defs.lookup m = kept at hstored ⊢
      cases hstored with
      | some hold => exact .some (hold.cons hnew)
      | none => exact .none
  · by_cases hm : m = n
    · subst hm
      rw [hself, Definitions.expand?_cons_self]
      exact hd.components?_eq
    · rw [hother hm, Definitions.expand?_cons_of_ne hm]
      exact h.expanded m

/-- A stored line is the expansion of its entries and fits. -/
theorem of_line (h : scope.Flattens defs) (hn : scope.get? n = some (.line cs)) :
    ∃ entries, defs.lookup n = some (.line entries) ∧ flatten? defs.expand? entries = some cs ∧
      cs.length ≤ maxElements := by
  have hstored := h.stored n
  rw [hn] at hstored
  generalize defs.lookup n = kept at hstored ⊢
  cases hstored with
  | some hline =>
    cases hline with
    | line flat fits => exact ⟨_, rfl, flat, fits⟩

theorem components_length_le (h : scope.Flattens defs) {pos : Position}
    (hn : scope.components n pos = .ok cs) : cs.length ≤ maxElements := by
  obtain ⟨symbol, hlookup, hcs⟩ := components_eq_ok.1 hn
  rw [lookup_environment] at hlookup
  cases symbol with
  | value v => cases hcs
  | element c =>
    obtain rfl := Option.some.inj hcs
    exact (by decide : 1 ≤ maxElements)
  | line stored =>
    obtain rfl := Option.some.inj hcs
    obtain ⟨-, -, -, hfits⟩ := h.of_line hlookup
    exact hfits

end Scope.Flattens

def entryOf? (env : Environment) : Item → Option Entry
  | .once target => some ⟨1, target⟩
  | .repeated u target => do return ⟨← count? (← u.value? env), target⟩

def definition? (env : Environment) : Statement → Option Definition
  | .value _ e => (e.value? env).map .value
  | .element n kind params =>
    (params.mapM (parameterValue? env)).map fun values =>
      .element { name := n, kind, params := .ofList values }
  | .line _ _ _ first others => ((first :: others).mapM (entryOf? env)).map .line

/-- One more statement, with the environment that it is evaluated in. -/
def record? (found : Environment × Definitions) (st : Statement) :
    Option (Environment × Definitions) := do
  return (← st.extend? found.1, (st.name, ← definition? found.1 st) :: found.2)

variable {env : Environment} {defs : Definitions}

theorem exists_entry_of_components? (henv : ∀ n, (env.lookup n).bind components? = defs.expand? n)
    {i : Item} (h : i.components? env = some cs) :
    ∃ e, entryOf? env i = some e ∧ e.part? defs.expand? = some cs := by
  cases i with
  | once target =>
    have htarget : defs.expand? target = some cs := (henv target).symm.trans h
    exact ⟨⟨1, target⟩, rfl, by simp [Entry.part?, htarget]⟩
  | repeated u target =>
    simp only [Item.components?, Option.bind_eq_bind, Option.bind_eq_some_iff] at h
    obtain ⟨v, hv, count, hcount, symbol, hsymbol, items, hitems, h⟩ := h
    obtain rfl := Option.some.inj h
    have htarget : defs.expand? target = some items := by
      rw [← henv, hsymbol]
      exact hitems
    exact ⟨⟨count, target⟩, by simp [entryOf?, hv, hcount], by simp [Entry.part?, htarget]⟩

theorem exists_entries_of_components?
    (henv : ∀ n, (env.lookup n).bind components? = defs.expand? n) {items : List Item}
    {parts : List (List Component)} (h : items.mapM (Item.components? env) = some parts) :
    ∃ entries, items.mapM (entryOf? env) = some entries ∧
      flatten? defs.expand? entries = some parts.flatten := by
  simp only [flatten?, Option.map_eq_some_iff, mapM_eq_some] at h ⊢
  suffices hentries : ∃ entries, items.Forall₂ (fun i e => entryOf? env i = some e) entries ∧
      entries.Forall₂ (fun e part => e.part? defs.expand? = some part) parts by
    obtain ⟨entries, hitems, hparts⟩ := hentries
    exact ⟨entries, hitems, parts, hparts, rfl⟩
  induction h with
  | nil => exact ⟨[], .nil, .nil⟩
  | cons hi _ ih =>
    obtain ⟨e, he, hpart⟩ := exists_entry_of_components? henv hi
    obtain ⟨entries, hitems, hparts⟩ := ih
    exact ⟨e :: entries, .cons he hitems, .cons hpart hparts⟩

/-- A statement is stored as it stands, if the statements before it are. -/
theorem exists_definition_of_symbol?
    (henv : ∀ n, (env.lookup n).bind components? = defs.expand? n) {st : Statement}
    {symbol : Symbol} (h : st.symbol? env = some symbol) :
    ∃ d, definition? env st = some d ∧ d.Stores defs.expand? symbol := by
  cases st with
  | value n e =>
    obtain ⟨v, hv, h⟩ := Option.bind_eq_some_iff.1 h
    obtain rfl := Option.some.inj h
    exact ⟨.value v, by simp [definition?, hv], .value v⟩
  | element n kind params =>
    obtain ⟨values, hvalues, h⟩ := Option.bind_eq_some_iff.1 h
    split at h
    · obtain rfl := Option.some.inj h
      exact ⟨_, by simp only [definition?, hvalues, Option.map_some], .element _⟩
    · cases h
  | line n keyword isLine first others =>
    obtain ⟨parts, hparts, h⟩ := Option.bind_eq_some_iff.1 h
    split at h
    · rename_i hfits
      obtain rfl := Option.some.inj h
      obtain ⟨entries, hentries, hflat⟩ := exists_entries_of_components? henv hparts
      exact ⟨.line entries, by simp only [definition?, hentries, Option.map_some],
        .line hflat hfits⟩
    · cases h

/-- The scopes that the reading of a source comes to, with the rests of the source. -/
inductive Reached (source : List UInt8) : Scope → Stream → Prop
  | start : Reached source {} (.ofSource source)
  | step {scope next : Scope} {s rest : Stream} (behind : Reached source scope s)
    (one : (statement scope).Reads s next rest) : Reached source next rest

/-- The statements read so far are derived, and what they define is what the scope stores. -/
theorem exists_definitions_of_reached {source : List UInt8} {scope : Scope} {s : Stream}
    (h : Reached source scope s) : ∃ (p : Program) (defs : Definitions),
      (Stream.ofSource source).Begins p.tokens s ∧
      p.foldlM record? ([], []) = some (scope.environment, defs) ∧ scope.Flattens defs := by
  induction h with
  | start => exact ⟨[], [], .nil _, rfl, .empty⟩
  | @step scope next s rest behind one ih =>
    obtain ⟨p, defs, htokens, hrun, hflat⟩ := ih
    obtain ⟨st, hst, -, hextend⟩ := derivesStatement_of_reads one
    obtain ⟨symbol, hsymbol, hbound⟩ := Option.bind_eq_some_iff.1 hextend
    have henv (n : String) : (scope.environment.lookup n).bind components? = defs.expand? n := by
      rw [scope.lookup_environment, hflat.expanded]
    obtain ⟨d, hd, hstores⟩ := exists_definition_of_symbol? henv hsymbol
    refine ⟨p ++ [st], (st.name, d) :: defs, ?_, ?_, ?_⟩
    · rw [Program.tokens, List.flatMap_append, List.flatMap_singleton]
      exact htokens.append hst
    · simp [List.foldlM_append, hrun, record?, hextend, hd]
    · split at hbound
      · cases hbound
      · exact hflat.define hstores (Option.some.inj hbound).symm

theorem reached_of_program {source : List UInt8} {scope final : Scope} {s : Stream}
    (h : Reached source scope s) (hfinal : program scope s = .ok final) :
    ∃ pos, Reached source final (.finish pos) := by
  induction hn : s.length using Nat.strongRecOn generalizing s scope with
  | ind size ih =>
    cases hfinish : s.isFinish with
    | true =>
      obtain ⟨pos, rfl⟩ := isFinish_eq_true.1 hfinish
      rw [program_of_isFinish hfinish] at hfinal
      cases hfinal
      exact ⟨pos, h⟩
    | false =>
      obtain ⟨next, rest, hone, hmore⟩ := (program_eq_ok_of_not_isFinish hfinish).1 hfinal
      exact ih _ (hn ▸ hone.size_lt) (h.step hone) hmore rfl

namespace LineBuilder

variable {a b total length count built : UInt64}

def checkedMul (a b : UInt64) : Option UInt64 :=
  if a.toNat * b.toNat < UInt64.size then some (a * b) else none

def checkedAdd (a b : UInt64) : Option UInt64 :=
  if a.toNat + b.toNat < UInt64.size then some (a + b) else none

theorem checkedMul_eq_some : checkedMul a b = some total ↔ total.toNat = a.toNat * b.toNat := by
  have hlt : total.toNat < UInt64.size := total.toNat_lt_size
  unfold checkedMul
  split
  · rename_i h
    rw [Option.some.injEq, ← UInt64.toNat_inj, UInt64.toNat_mul, Nat.mod_eq_of_lt h]
    exact eq_comm
  · rename_i h
    refine ⟨nofun, fun htotal => absurd (htotal ▸ hlt) h⟩

theorem checkedAdd_eq_some : checkedAdd a b = some total ↔ total.toNat = a.toNat + b.toNat := by
  have hlt : total.toNat < UInt64.size := total.toNat_lt_size
  unfold checkedAdd
  split
  · rename_i h
    rw [Option.some.injEq, ← UInt64.toNat_inj, UInt64.toNat_add, Nat.mod_eq_of_lt h]
    exact eq_comm
  · rename_i h
    refine ⟨nofun, fun htotal => absurd (htotal ▸ hlt) h⟩

/-- The length of a line of `built` components with `count` copies of `length` components behind
them, if a line may be so long. -/
def total? (length count built : UInt64) : Option UInt64 :=
  ((checkedMul length count).bind fun copied => checkedAdd copied built).filter
    fun total => total.toNat ≤ maxElements

/-- No overflow is taken for a short line, and none keeps a short line from growing. -/
theorem total?_eq_some : total? length count built = some total ↔
    total.toNat = built.toNat + count.toNat * length.toNat ∧ total.toNat ≤ maxElements := by
  simp only [total?, Option.filter_eq_some_iff, Option.bind_eq_some_iff, checkedMul_eq_some,
    checkedAdd_eq_some, decide_eq_true_iff]
  constructor
  · rintro ⟨⟨copied, hcopied, htotal⟩, hfits⟩
    refine ⟨?_, hfits⟩
    rw [htotal, hcopied, Nat.add_comm, Nat.mul_comm]
  · rintro ⟨htotal, hfits⟩
    have hlt : length.toNat * count.toNat < UInt64.size := by
      have htotalLt := total.toNat_lt_size
      rw [Nat.mul_comm]
      omega
    have hcopied : (UInt64.ofNat (length.toNat * count.toNat)).toNat = length.toNat * count.toNat :=
      UInt64.toNat_ofNat_of_lt' hlt
    refine ⟨⟨_, hcopied, ?_⟩, hfits⟩
    rw [htotal, hcopied, Nat.add_comm, Nat.mul_comm]

theorem isSome_total? : (total? length count built).isSome ↔
    built.toNat + count.toNat * length.toNat ≤ maxElements := by
  rw [Option.isSome_iff_exists]
  simp only [total?_eq_some]
  constructor
  · rintro ⟨total, htotal, hfits⟩
    exact htotal ▸ hfits
  · intro hfits
    have hlt : built.toNat + count.toNat * length.toNat < UInt64.size :=
      Nat.lt_of_le_of_lt hfits (by decide)
    have htotal := UInt64.toNat_ofNat_of_lt' hlt
    exact ⟨_, htotal, htotal.trans_le hfits⟩

/-- Appends copies to the line that is kept as state, one after another. -/
def push (scope : Scope) (name : String) (count : UInt64) (pos : Position) :
    EStateM Fault (List Component) Unit := do
  let items ← MonadExcept.ofExcept (scope.components name pos)
  let built ← get
  if (total? (.ofNat items.length) count (.ofNat built.length)).isSome then
    (List.replicate count.toNat items).forM fun part => modify (· ++ part)
  else throw (.overflow pos .expansion)

theorem run_forM_modify (parts : List (List Component)) (built : List Component) :
    (parts.forM fun part => modify (· ++ part) : EStateM Fault (List Component) Unit).run built =
      .ok () (built ++ parts.flatten) := by
  induction parts generalizing built with
  | nil => simp [EStateM.run, pure, EStateM.pure]
  | cons part parts ih =>
    rw [List.flatten_cons, ← List.append_assoc, ← ih]
    rfl

/-- Growing in place is appending: what fails has changed nothing. -/
theorem run_push {scope : Scope} {name : String} {pos : Position} {line : List Component}
    (hline : line.length < UInt64.size)
    (hitems : ∀ items, scope.components name pos = .ok items → items.length < UInt64.size) :
    (push scope name count pos).run line =
      match append scope line name count.toNat pos with
      | .ok out => .ok () out
      | .error f => .error f line := by
  cases hcomponents : scope.components name pos with
  | error f =>
    rw [append, bind_of_eq_error hcomponents, push, hcomponents]
    rfl
  | ok items =>
    have hsome : (total? (.ofNat items.length) count (.ofNat line.length)).isSome ↔
        line.length + count.toNat * items.length ≤ maxElements := by
      rw [isSome_total?, UInt64.toNat_ofNat_of_lt' hline,
        UInt64.toNat_ofNat_of_lt' (hitems items hcomponents)]
    rw [append, bind_of_eq_ok hcomponents, push, hcomponents]
    change (if _ then _ else _ : EStateM _ _ _).run line = _
    by_cases hfits : line.length + count.toNat * items.length ≤ maxElements
    · rw [if_pos (hsome.2 hfits), if_pos hfits, run_forM_modify, copies_eq_flatten]
      rfl
    · rw [if_neg (mt hsome.1 hfits), if_neg hfits]
      rfl

end LineBuilder

/-- What a scope does with the definitions it was made from. -/
structure Scope.Expands (scope : Scope) (defs : Definitions) : Prop where
  /-- An element expands to itself, a line to the expansions of its entries, and nothing else has
  one. -/
  expansion (n : String) :
    defs.expand? n = (defs.lookup n).bind (Definition.expand? defs.expand?)
  /-- A name is used as what it expands to. -/
  components {n : String} {cs : List Component} (pos : Position) :
    scope.components n pos = .ok cs ↔ defs.expand? n = some cs
  line {n : String} {cs : List Component} : scope.get? n = some (.line cs) ↔
    ∃ entries, defs.lookup n = some (.line entries) ∧ flatten? defs.expand? entries = some cs
  length {entries : List Entry} {cs : List Component} :
    flatten? defs.expand? entries = some cs → cs.length =
      (entries.map fun e => e.count * ((defs.expand? e.target).getD []).length).sum
  fits {n : String} {cs : List Component} :
    scope.get? n = some (.line cs) → cs.length ≤ maxElements
  /-- The length of a line that grows is computed without overflow, or not at all. -/
  total (length count built total : UInt64) : LineBuilder.total? length count built = some total ↔
    total.toNat = built.toNat + count.toNat * length.toNat ∧ total.toNat ≤ maxElements
  /-- Growing a line in place is what the reader does by appending. -/
  push (n : String) (count : UInt64) (pos : Position) {line : List Component} :
    line.length < UInt64.size → (LineBuilder.push scope n count pos).run line =
      match append scope line n count.toNat pos with
      | .ok out => .ok () out
      | .error f => .error f line
  /-- A line that cannot grow stays as it was. -/
  kept {n : String} {count : UInt64} {pos : Position} {line out : List Component} {f : Fault} :
    line.length < UInt64.size → (LineBuilder.push scope n count pos).run line = .error f out →
      out = line
  /-- A line cannot grow by an element or a line when it would become too long, and only then. -/
  refuses_iff {n : String} {items line : List Component} (count : UInt64) (pos : Position) :
    line.length < UInt64.size → defs.expand? n = some items →
      ((∃ f out, (LineBuilder.push scope n count pos).run line = .error f out) ↔
        maxElements < line.length + count.toNat * items.length)

theorem Scope.Flattens.expands {scope : Scope} (h : scope.Flattens defs) : scope.Expands defs := by
  have hcomponents {n : String} {cs : List Component} (pos : Position) :
      scope.components n pos = .ok cs ↔ defs.expand? n = some cs := by
    rw [components_eq_ok, ← h.expanded, Option.bind_eq_some_iff]
    simp only [lookup_environment]
  -- what a name stands for is no longer than a line, so its length is a machine integer
  have hpush (n : String) (count : UInt64) (pos : Position) {line : List Component}
      (hline : line.length < UInt64.size) := @LineBuilder.run_push count scope n pos line hline
    fun items (hitems : scope.components n pos = .ok items) =>
      Nat.lt_of_le_of_lt (h.components_length_le hitems) (by decide)
  exact {
    expansion := fun n => by
      have hstored := h.stored n
      have hexpanded := h.expanded n
      generalize scope.get? n = found, defs.lookup n = kept at hstored hexpanded ⊢
      cases hstored with
      | some hold =>
        rw [← hexpanded]
        exact hold.components?_eq
      | none => exact hexpanded.symm
    components := hcomponents
    line := fun {n cs} => by
      constructor
      · intro hn
        obtain ⟨entries, hlookup, hflat, -⟩ := h.of_line hn
        exact ⟨entries, hlookup, hflat⟩
      · rintro ⟨entries, hlookup, hflat⟩
        have hstored := h.stored n
        rw [hlookup] at hstored
        generalize scope.get? n = found at hstored ⊢
        cases hstored with
        | some hold =>
          cases hold with
          | line flat fits => rw [Option.some.inj (flat.symm.trans hflat)]
    length := length_of_flatten?
    fits := fun hn => by
      obtain ⟨-, -, -, hfits⟩ := h.of_line hn
      exact hfits
    total := fun _ _ _ _ => LineBuilder.total?_eq_some
    push := hpush
    kept := fun {n count pos line out f} hline hrun => by
      rw [hpush n count pos hline] at hrun
      split at hrun
      · cases hrun
      · cases hrun
        rfl
    refuses_iff := fun {n items line} count pos hline hitems => by
      rw [hpush n count pos hline, append, bind_of_eq_ok ((hcomponents pos).2 hitems)]
      by_cases hfits : line.length + count.toNat * items.length ≤ maxElements
      · rw [if_pos hfits]
        refine ⟨?_, fun hlong => absurd hfits (Nat.not_le.2 hlong)⟩
        rintro ⟨_, _, hrun⟩
        cases hrun
      · rw [if_neg hfits]
        exact ⟨fun _ => Nat.lt_of_not_le hfits, fun _ => ⟨_, _, rfl⟩⟩ }

/-- Wherever the reading of a source has come to, the lines defined so far are stored as what their
definitions in the source expand to, and further lines grow by just that. -/
theorem reached_expands {source : List UInt8} {scope : Scope} {s : Stream}
    (h : Reached source scope s) : ∃ (p : Program) (defs : Definitions),
      (Stream.ofSource source).Begins p.tokens s ∧
      p.foldlM record? ([], []) = some (scope.environment, defs) ∧ scope.Expands defs := by
  obtain ⟨p, defs, htokens, hrun, hflat⟩ := exists_definitions_of_reached h
  exact ⟨p, defs, htokens, hrun, hflat.expands⟩

/-- A line that uses another one, first no times and then twice. -/
def nestedSource : List UInt8 :=
  bytesOf "d: drift; q: marker; n = 0.5; cell: LINE = (2 * d, q); ring: line = (n * cell, 2 * cell, d);"

theorem nestedSource_expands : ∃ scope pos,
    Reached nestedSource scope (.finish pos) ∧
    scope.lattice.toOption.map (fun lattice => lattice.components.map Component.name) =
      some ["d", "d", "q", "d", "d", "q", "d"] ∧
    ∃ (p : Program) (defs : Definitions),
      (Stream.ofSource nestedSource).Begins p.tokens (.finish pos) ∧
      p.foldlM record? ([], []) = some (scope.environment, defs) ∧ scope.Expands defs := by
  have hnames : (read nestedSource).toOption.map
      (fun lattice => lattice.components.map Component.name) =
        some ["d", "d", "q", "d", "d", "q", "d"] := by decide +kernel
  cases hprogram : program {} (.ofSource nestedSource) with
  | error f =>
    rw [read, bind_of_eq_error hprogram] at hnames
    cases hnames
  | ok scope =>
    rw [read, bind_of_eq_ok hprogram] at hnames
    obtain ⟨pos, h⟩ := reached_of_program .start hprogram
    exact ⟨scope, pos, h, hnames, reached_expands h⟩

end BeamEnvelope.Glps
