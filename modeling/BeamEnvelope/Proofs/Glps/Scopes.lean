import BeamEnvelope.Glps.Reading
import BeamEnvelope.Proofs.Dictionary

/-!
# Scopes and the tables that mirror them

A scope lists its definitions, and its values and its last line are read off the list. A table may
keep the three side by side instead and update them in place. However many definitions are
attempted, and whichever of them fail, the table says what the scope says: a name is bound by the
first attempt that defines it and by no later one, the globals are the values among the names, and
the last line is one of them.
-/

namespace BeamEnvelope.Glps

structure Attempt where
  name : String
  symbol : Symbol
  pos : Position

namespace Scope

/-- An attempt that fails leaves the scope as it was. -/
def after (scope : Scope) (a : Attempt) : Scope :=
  match scope.define a.name a.symbol a.pos with
  | .ok next => next
  | .error _ => scope

def afterAll (scope : Scope) (attempts : List Attempt) : Scope := attempts.foldl after scope

def successes : Scope → List Attempt → List Attempt
  | _, [] => []
  | scope, a :: attempts =>
    match scope.define a.name a.symbol a.pos with
    | .ok next => a :: successes next attempts
    | .error _ => successes scope attempts

variable {scope next : Scope} {n m : String} {symbol found : Symbol} {pos : Position}

theorem get?_eq_some_iff_mem : scope.get? n = some symbol ↔ (n, symbol) ∈ scope.definitions :=
  lookup_eq_some_iff_mem scope.distinct

/-- A name that is bound cannot be defined. -/
theorem define_of_get?_eq_some (h : scope.get? n = some found) (symbol : Symbol) (pos : Position) :
    scope.define n symbol pos = .error (.redefined pos n) := by
  have hmem : n ∈ scope.definitions.map (·.1) :=
    List.mem_map.2 ⟨_, get?_eq_some_iff_mem.1 h, rfl⟩
  rw [define, dif_pos hmem]

/-- A name that is not bound can be. -/
theorem define_of_get?_eq_none (h : scope.get? n = none) (symbol : Symbol) (pos : Position) :
    ∃ next, scope.define n symbol pos = .ok next ∧
      next.definitions = (n, symbol) :: scope.definitions := by
  have hmem : n ∉ scope.definitions.map (·.1) := lookup_eq_none_iff_not_mem.1 h
  rw [define, dif_neg hmem]
  exact ⟨_, rfl, rfl⟩

theorem define_eq_error_iff {f : Fault} : scope.define n symbol pos = .error f ↔
    (scope.get? n).isSome ∧ f = .redefined pos n := by
  cases h : scope.get? n with
  | some found => simp [define_of_get?_eq_some h, eq_comm]
  | none =>
    obtain ⟨next, hnext, -⟩ := define_of_get?_eq_none h symbol pos
    simp [hnext]

section Defined

variable (h : next.definitions = (n, symbol) :: scope.definitions)
include h

theorem get?_of_definitions (m : String) :
    next.get? m = if m = n then some symbol else scope.get? m := by
  rw [get?, get?, h, List.lookup_cons]
  by_cases hm : m = n
  · rw [if_pos hm, beq_iff_eq.2 hm]
  · rw [if_neg hm, beq_eq_false_iff_ne.2 hm]

theorem lastLine?_of_definitions :
    next.lastLine? = (symbol.line?.map (n, ·)).or scope.lastLine? := by
  rw [lastLine?, h, List.findSome?_cons]
  cases symbol.line?.map (n, ·) <;> rfl

end Defined

/-- The globals are the names bound to values. -/
theorem get?_globals (scope : Scope) (n : String) :
    scope.globals.get? n = (scope.get? n).bind Symbol.value? := by
  rw [globals, Dictionary.get?_ofList, lookup_reverse (nodup_filterMap _ scope.distinct)]
  apply Option.ext
  intro v
  rw [lookup_eq_some_iff_mem (nodup_filterMap _ scope.distinct), Option.bind_eq_some_iff]
  simp only [get?_eq_some_iff_mem, List.mem_filterMap, Option.map_eq_some_iff, Prod.mk.injEq]
  constructor
  · rintro ⟨⟨_, symbol⟩, hmem, _, hv, rfl, rfl⟩
    exact ⟨symbol, hmem, hv⟩
  · rintro ⟨symbol, hmem, hv⟩
    exact ⟨(n, symbol), hmem, v, hv, rfl, rfl⟩

theorem get?_of_lastLine? {cs : List Component} (h : scope.lastLine? = some (n, cs)) :
    scope.get? n = some (.line cs) := by
  obtain ⟨⟨m, symbol⟩, hmem, hline⟩ := List.exists_of_findSome?_eq_some h
  cases symbol with
  | line ds =>
    cases hline
    exact get?_eq_some_iff_mem.2 hmem
  | value v => cases hline
  | element c => cases hline

/-- What a scope holds behind attempts is what it held and what succeeded. -/
theorem definitions_afterAll (scope : Scope) (attempts : List Attempt) :
    (scope.afterAll attempts).definitions =
      ((successes scope attempts).map fun a => (a.name, a.symbol)).reverse ++
        scope.definitions := by
  induction attempts generalizing scope with
  | nil => rfl
  | cons a attempts ih =>
    rw [afterAll, List.foldl_cons, ← afterAll, ih, successes, after]
    cases h : scope.get? a.name with
    | some found => rw [define_of_get?_eq_some h]
    | none =>
      obtain ⟨next, hnext, hdefinitions⟩ := define_of_get?_eq_none h a.symbol a.pos
      rw [hnext]
      simp [hdefinitions]

/-- A name that is bound keeps its symbol, and one that is not is bound by the first attempt to
define it. -/
theorem get?_afterAll (scope : Scope) (attempts : List Attempt) (n : String) :
    (scope.afterAll attempts).get? n =
      (scope.get? n).or ((attempts.find? (·.name == n)).map Attempt.symbol) := by
  induction attempts generalizing scope with
  | nil => exact (Option.or_none ..).symm
  | cons a attempts ih =>
    rw [afterAll, List.foldl_cons, ← afterAll, ih, after, List.find?_cons]
    cases h : scope.get? a.name with
    | some found =>
      rw [define_of_get?_eq_some h]
      by_cases hn : a.name = n
      · rw [← hn, h]
        rfl
      · rw [beq_eq_false_iff_ne.2 hn]
    | none =>
      obtain ⟨next, hnext, hdefinitions⟩ := define_of_get?_eq_none h a.symbol a.pos
      rw [hnext]
      change (next.get? n).or _ = _
      rw [get?_of_definitions hdefinitions]
      by_cases hn : a.name = n
      · rw [if_pos hn.symm, beq_iff_eq.2 hn, ← hn, h]
        rfl
      · rw [if_neg (Ne.symm hn), beq_eq_false_iff_ne.2 hn]

/-- The last line is the last attempt to define one that succeeded. -/
theorem lastLine?_afterAll (attempts : List Attempt) :
    (afterAll {} attempts).lastLine? =
      ((successes {} attempts).filterMap fun a => a.symbol.line?.map (a.name, ·)).getLast? := by
  rw [lastLine?, definitions_afterAll, List.append_nil, ← List.map_reverse, List.findSome?_map,
    ← List.head?_filterMap, List.filterMap_reverse, List.head?_reverse]
  rfl

end Scope

/-- Definitions with their values and their last line kept beside them. -/
structure Register where
  symbols : Dictionary Symbol := ∅
  globals : Dictionary Value := ∅
  lastLine : Option String := none

namespace Register

/-- The values and the last line are put down before the symbol is. -/
def define (n : String) (symbol : Symbol) (pos : Position) : EStateM Fault Register Unit := do
  if (← get).symbols.contains n then throw (.redefined pos n)
  match symbol with
  | .value v => modify fun r => { r with globals := r.globals.insert n v }
  | .line _ => modify fun r => { r with lastLine := some n }
  | .element _ => pure ()
  modify fun r => { r with symbols := r.symbols.insert n symbol }

def after (r : Register) (a : Attempt) : Register :=
  match (define a.name a.symbol a.pos).run r with
  | .ok _ behind => behind
  | .error _ behind => behind

def afterAll (attempts : List Attempt) : Register := attempts.foldl after {}

/-- A last line that is not among the symbols would be no line. -/
def lattice (r : Register) : Except Fault Lattice :=
  match r.lastLine with
  | none => .error .noBeamline
  | some name =>
    match r.symbols.get? name with
    | some (.line components) => .ok { name, globals := r.globals, components }
    | _ => .error .noBeamline

def record (r : Register) (n : String) (symbol : Symbol) : Register where
  symbols := r.symbols.insert n symbol
  globals := (symbol.value?.map fun v => r.globals.insert n v).getD r.globals
  lastLine := (symbol.line?.map fun _ => n).or r.lastLine

variable {r : Register} {n : String} {found : Symbol}

theorem run_define_of_get?_eq_some (h : r.symbols.get? n = some found) (symbol : Symbol)
    (pos : Position) : (define n symbol pos).run r = .error (.redefined pos n) r := by
  have hcontains : r.symbols.contains n = true := by rw [Dictionary.contains, h]; rfl
  simp [define, hcontains]

theorem run_define_of_get?_eq_none (h : r.symbols.get? n = none) (symbol : Symbol)
    (pos : Position) : (define n symbol pos).run r = .ok () (r.record n symbol) := by
  have hcontains : r.symbols.contains n = false := Dictionary.contains_eq_false.2 h
  cases symbol <;> simp [define, hcontains, record, Symbol.value?, Symbol.line?]

end Register

/-- A table that says what a scope says. -/
structure Scope.Mirrors (scope : Scope) (r : Register) : Prop where
  symbols (n : String) : r.symbols.get? n = scope.get? n
  globals (n : String) : r.globals.get? n = (scope.get? n).bind Symbol.value?
  lastLine : r.lastLine = scope.lastLine?.map (·.1)

namespace Scope.Mirrors

variable {scope next : Scope} {r : Register} {n : String} {symbol : Symbol}

theorem record (h : scope.Mirrors r) (hnone : scope.get? n = none)
    (hnext : next.definitions = (n, symbol) :: scope.definitions) :
    next.Mirrors (r.record n symbol) where
  symbols m := by
    rw [Register.record, Dictionary.get?_insert, get?_of_definitions hnext, h.symbols]
  globals m := by
    rw [get?_of_definitions hnext, Register.record]
    have hglobals := h.globals m
    cases symbol with
    | value v =>
      change (r.globals.insert n v).get? m = _
      rw [Dictionary.get?_insert, hglobals]
      split <;> rfl
    | element c | line cs =>
      change r.globals.get? m = _
      rw [hglobals]
      split
      · rename_i hm
        rw [hm, hnone]
        rfl
      · rfl
  lastLine := by
    rw [lastLine?_of_definitions hnext, Register.record, h.lastLine]
    cases symbol <;> rfl

/-- One attempt. -/
theorem after (h : scope.Mirrors r) (a : Attempt) : (scope.after a).Mirrors (r.after a) := by
  rw [Scope.after, Register.after]
  cases hget : scope.get? a.name with
  | some found =>
    rw [define_of_get?_eq_some hget,
      Register.run_define_of_get?_eq_some ((h.symbols _).trans hget)]
    exact h
  | none =>
    obtain ⟨next, hnext, hdefinitions⟩ := define_of_get?_eq_none hget a.symbol a.pos
    rw [hnext, Register.run_define_of_get?_eq_none ((h.symbols _).trans hget)]
    exact h.record hget hdefinitions

/-- Attempts in a row. -/
theorem afterAll (attempts : List Attempt) :
    (Scope.afterAll {} attempts).Mirrors (Register.afterAll attempts) := by
  have hstart : Scope.Mirrors {} {} := ⟨fun _ => rfl, fun _ => rfl, rfl⟩
  rw [Scope.afterAll, Register.afterAll]
  generalize ({} : Scope) = scope, ({} : Register) = r at hstart
  induction attempts generalizing scope r with
  | nil => exact hstart
  | cons a attempts ih => exact ih _ _ (hstart.after a)

theorem globals_eq (h : scope.Mirrors r) : r.globals = scope.globals :=
  Dictionary.ext_get? fun n => by rw [h.globals, get?_globals]

/-- The last line is a line. -/
theorem lattice_eq (h : scope.Mirrors r) : r.lattice = scope.lattice := by
  rw [Register.lattice, Scope.lattice, h.lastLine, h.globals_eq]
  cases hline : scope.lastLine? with
  | none => rfl
  | some line =>
    have hget : r.symbols.get? line.1 = some (.line line.2) :=
      (h.symbols line.1).trans (get?_of_lastLine? hline)
    simp only [Option.map_some, hget]

/-- The same attempts succeed. -/
theorem run_define (h : scope.Mirrors r) (n : String) (symbol : Symbol) (pos : Position) :
    (Register.define n symbol pos).run r = match scope.define n symbol pos with
      | .ok _ => .ok () (r.record n symbol)
      | .error f => .error f r := by
  cases hget : scope.get? n with
  | some found =>
    rw [define_of_get?_eq_some hget,
      Register.run_define_of_get?_eq_some ((h.symbols n).trans hget)]
  | none =>
    obtain ⟨next, hnext, -⟩ := define_of_get?_eq_none hget symbol pos
    rw [hnext, Register.run_define_of_get?_eq_none ((h.symbols n).trans hget)]

end Scope.Mirrors

/-- The lines that attempts define, the latest one last. -/
def definedLines (attempts : List Attempt) : List (String × List Component) :=
  (Scope.successes ⟨[], List.nodup_nil⟩ attempts).filterMap fun a => a.symbol.line?.map (a.name, ·)

/-- What a scope and a table hold behind attempts. -/
structure Holds (attempts : List Attempt) (scope : Scope) (r : Register) : Prop where
  /-- A name is bound by the first attempt to define it. -/
  bound (n : String) : scope.get? n = (attempts.find? (·.name == n)).map Attempt.symbol
  /-- A definition fails if its name is bound, and for nothing else. -/
  define_eq_error (n : String) (symbol : Symbol) (pos : Position) (f : Fault) :
    scope.define n symbol pos = .error f ↔ (scope.get? n).isSome ∧ f = .redefined pos n
  /-- A bound name keeps its symbol. -/
  kept {n : String} {symbol : Symbol} (more : List Attempt) :
    scope.get? n = some symbol → (scope.afterAll more).get? n = some symbol
  /-- The table can be extended where the scope can, and what fails has changed nothing. -/
  run_define (n : String) (symbol : Symbol) (pos : Position) :
    (Register.define n symbol pos).run r = match scope.define n symbol pos with
      | .ok _ => .ok () (r.record n symbol)
      | .error f => .error f r
  symbols (n : String) : r.symbols.get? n = scope.get? n
  globals (n : String) (v : Value) : r.globals.get? n = some v ↔ scope.get? n = some (.value v)
  lastLine : r.lastLine = (definedLines attempts).getLast?.map (·.1)
  /-- The last line is a line, so a table with one has a lattice. -/
  lastLine_isLine {n : String} : r.lastLine = some n → ∃ cs, r.symbols.get? n = some (.line cs)
  lattice_eq : r.lattice = scope.lattice
  lattice_eq_error (f : Fault) :
    r.lattice = .error f ↔ definedLines attempts = [] ∧ f = .noBeamline
  lattice_eq_ok {n : String} {cs : List Component} :
    (definedLines attempts).getLast? = some (n, cs) → r.lattice = .ok ⟨n, r.globals, cs⟩

/-- A scope and a table that start empty hold the same, whatever is attempted. -/
theorem holds_afterAll (attempts : List Attempt) :
    Holds attempts (.afterAll {} attempts) (.afterAll attempts) := by
  have hmirrors := Scope.Mirrors.afterAll attempts
  have hlast : (Scope.afterAll {} attempts).lastLine? = (definedLines attempts).getLast? :=
    Scope.lastLine?_afterAll attempts
  refine ⟨fun n => ?_, fun _ _ _ _ => Scope.define_eq_error_iff, fun {n symbol} more h => ?_,
    hmirrors.run_define, hmirrors.symbols, fun n v => ?_, ?_, fun {n} h => ?_,
    hmirrors.lattice_eq, fun f => ?_, fun {n cs} h => ?_⟩
  · rw [Scope.get?_afterAll]
    rfl
  · rw [Scope.get?_afterAll, h]
    rfl
  · rw [hmirrors.globals, Option.bind_eq_some_iff]
    constructor
    · rintro ⟨symbol, hsymbol, hv⟩
      cases symbol <;> cases hv
      exact hsymbol
    · exact fun h => ⟨_, h, rfl⟩
  · rw [hmirrors.lastLine, hlast]
  · rw [hmirrors.lastLine, Option.map_eq_some_iff] at h
    obtain ⟨⟨_, cs⟩, hline, rfl⟩ := h
    exact ⟨cs, (hmirrors.symbols _).trans (Scope.get?_of_lastLine? hline)⟩
  · rw [hmirrors.lattice_eq, Scope.lattice, hlast, ← List.getLast?_eq_none_iff]
    cases (definedLines attempts).getLast? <;> simp [eq_comm]
  · rw [hmirrors.lattice_eq, Scope.lattice, hlast, h, hmirrors.globals_eq]

end BeamEnvelope.Glps
