import BeamEnvelope.Proofs.Glps.Routines

/-!
# Whole sources with counted nesting

A source is read statement by statement with the routines that count, on one counter for all of its
expressions. Since every routine leaves the counter as it found it, each expression starts at zero,
and the reading comes to what the reader comes to whose depth is bounded.
-/

namespace BeamEnvelope.Glps

open SourceReader

namespace Counting

open CountedReader

variable {k : Nat}

def valueDefinition (scope : Scope) (n : String) (pos : Position) : CountedReader k Scope :=
  bind (lift (mark .equals .equals)) fun _ =>
    bind (fun s _ => expression scope s) fun v =>
      check (lift (mark .semicolon .semicolon)) fun _ => scope.define n (.value v) pos

def parameter (scope : Scope) (params : Dictionary Value) : CountedReader k (Dictionary Value) :=
  bind (lift (name .parameterName)) fun p =>
    bind (lift (mark .equals .equals)) fun _ =>
      check (fun s _ => expression scope s) fun v =>
        if params.contains p.1 then .error (.redefined p.2 p.1) else .ok (params.insert p.1 v)

def parameters (scope : Scope) (params : Dictionary Value) :
    CountedReader k (Dictionary Value) := fun s h => do
  if s.mark? = some .comma then
    let comma ← MonadExcept.ofExcept (mark .comma .parameterEnd s)
    let one ← parameter (k := k) scope params comma.rest (Nat.lt_trans comma.shorter h)
    passed s one.rest
    let more ← parameters scope one.value one.rest
      (Nat.lt_trans one.shorter (Nat.lt_trans comma.shorter h))
    return ⟨more.value, more.rest,
      Nat.lt_trans more.shorter (Nat.lt_trans one.shorter comma.shorter)⟩
  else check (lift (mark .semicolon .parameterEnd)) (fun _ => .ok params) s h
termination_by s => s.length
decreasing_by exact Nat.lt_trans one.shorter comma.shorter

def elementDefinition (scope : Scope) (n : String) (pos : Position) (kind : String) :
    CountedReader k Scope :=
  check (parameters scope ∅) fun params =>
    scope.define n (.element { name := n, kind, params }) pos

def repeatedItem (scope : Scope) (built : List Component) :
    CountedReader k (List Component) := fun s h =>
  bind (fun t _ => unary scope t) (fun factor =>
    bind (lift (mark .star .star)) fun _ =>
      check (lift (name .target)) fun p => do
        append scope built p.1 (← repeatCount (s.position?.getD {}) factor) p.2) s h

def lineItem (scope : Scope) (built : List Component) : CountedReader k (List Component) :=
  fun s h =>
    match s.head?, s.second? with
    | some (.name _), some (.mark .star) => repeatedItem scope built s h
    | some (.name _), some (.mark .openParen) => repeatedItem scope built s h
    | some (.name _), _ =>
      check (lift (name .target)) (fun p => append scope built p.1 1 p.2) s h
    | _, _ => repeatedItem scope built s h

def lineDefinition (scope : Scope) (n : String) (pos : Position) : CountedReader k Scope :=
  bind (lift (mark .equals .equals)) fun _ =>
    bind (lift (mark .openParen .openParen)) fun _ =>
      bind (commaSeparated (lineItem scope) .itemEnd []) fun built =>
        bind (lift (mark .closeParen .itemEnd)) fun _ =>
          check (lift (mark .semicolon .semicolon)) fun _ => scope.define n (.line built) pos

def componentDefinition (scope : Scope) (n : String) (pos : Position) : CountedReader k Scope :=
  bind (lift (mark .colon .afterName)) fun _ =>
    bind (lift (name .elementType)) fun kind s h =>
      if isLineKeyword kind.1 && s.mark? = some .equals then lineDefinition scope n pos s h
      else elementDefinition scope n pos kind.1 s h

def statement (scope : Scope) : CountedReader k Scope :=
  bind (lift (name .statement)) fun p s h =>
    match s.mark? with
    | some .equals => valueDefinition scope p.1 p.2 s h
    | some .colon => componentDefinition scope p.1 p.2 s h
    | _ => throw (s.unexpected .afterName)

def program (scope : Scope) (s : Stream) : Counted Scope := do
  if s.isFinish then return scope
  else
    let one ← statement scope s (Nat.lt_succ_self _)
    passed s one.rest
    program one.value one.rest
termination_by s.length
decreasing_by exact one.shorter

def read (source : List UInt8) : Counted Lattice := do
  let scope ← program ⟨[], List.nodup_nil⟩ (.ofSource source)
  MonadExcept.ofExcept scope.lattice

end Counting

open CountedReader

section Follows

variable {scope : Scope} {k : Nat}

theorem orderly_nil : Orderly [] := ⟨Nat.zero_le _, .nil⟩

theorem follows_expression (scope : Scope) : CountedReader.Follows (n := k) []
    (fun s _ => Counting.expression scope s) (Glps.expression scope) :=
  fun s _ => Routine.performs scope .expression s [] orderly_nil (by simp [Admits])

theorem follows_unary (scope : Scope) : CountedReader.Follows (n := k) []
    (fun s _ => Counting.unary scope s) (Glps.unary scope maxNesting) :=
  fun s _ => Routine.performs scope .unary s [] orderly_nil (by simp [Admits])

theorem follows_valueDefinition (n : String) (pos : Position) :
    (Counting.valueDefinition (k := k) scope n pos).Follows []
      (Glps.valueDefinition scope n pos) :=
  (follows_lift _).bind fun _ => (follows_expression scope).bind fun _ => (follows_lift _).check _

theorem follows_parameter (params : Dictionary Value) :
    (Counting.parameter (k := k) scope params).Follows []
      (Glps.parameter scope params) :=
  (follows_lift _).bind fun _ => (follows_lift _).bind fun _ => (follows_expression scope).check _

theorem follows_parameters (params : Dictionary Value) :
    (Counting.parameters (k := k) scope params).Follows []
      (Glps.parameters scope params) := by
  intro s hs
  induction hn : s.length using Nat.strongRecOn generalizing params s with
  | ind size ih =>
    rw [Counting.parameters, Glps.parameters]
    by_cases hcomma : s.mark? = some .comma
    · rw [if_pos hcomma, if_pos hcomma]
      refine (follows_ofExcept _).bind fun comma =>
        (follows_parameter params comma.rest _).bind fun one => ?_
      have hlt : one.rest.length < s.length := Nat.lt_trans one.shorter comma.shorter
      exact ((ih _ (hn ▸ hlt) one.value one.rest _ rfl).bind fun _ => follows_pure _).passed hlt
    · rw [if_neg hcomma, if_neg hcomma]
      exact (follows_lift _).check _ s hs

theorem follows_elementDefinition (n : String) (pos : Position) (kind : String) :
    (Counting.elementDefinition (k := k) scope n pos kind).Follows []
      (Glps.elementDefinition scope n pos kind) :=
  (follows_parameters ∅).check _

theorem follows_repeatedItem (built : List Component) :
    (Counting.repeatedItem (k := k) scope built).Follows []
      (Glps.repeatedItem scope built) :=
  fun s hs => ((follows_unary scope).bind fun _ => (follows_lift _).bind fun _ =>
    (follows_lift _).check _) s hs

theorem follows_lineItem (built : List Component) :
    (Counting.lineItem (k := k) scope built).Follows []
      (Glps.lineItem scope built) := by
  intro s hs
  have hrepeated : Glps.Follows (Calls.At []) (Counting.repeatedItem scope built s hs)
      (Glps.repeatedItem scope built s) := follows_repeatedItem built s hs
  have honce : Glps.Follows (Calls.At [])
      (check (lift (name .target)) (fun p => append scope built p.1 1 p.2) s hs)
      ((name .target).check (fun p => append scope built p.1 1 p.2) s) :=
    (follows_lift _).check _ s hs
  unfold Counting.lineItem Glps.lineItem
  cases s.head? with
  | none => exact hrepeated
  | some t =>
    cases t with
    | number x | text x | mark m => exact hrepeated
    | name n =>
      cases s.second? with
      | none => exact honce
      | some u =>
        cases u with
        | number x | text x | name x => exact honce
        | mark m =>
          cases m with
          | star | openParen => exact hrepeated
          | _ => exact honce

theorem follows_lineDefinition (n : String) (pos : Position) :
    (Counting.lineDefinition (k := k) scope n pos).Follows []
      (Glps.lineDefinition scope n pos) :=
  (follows_lift _).bind fun _ => (follows_lift _).bind fun _ =>
    (follows_commaSeparated follows_lineItem _ _).bind fun _ => (follows_lift _).bind fun _ =>
      (follows_lift _).check _

theorem follows_componentDefinition (n : String) (pos : Position) :
    (Counting.componentDefinition (k := k) scope n pos).Follows []
      (Glps.componentDefinition scope n pos) := by
  refine (follows_lift _).bind fun _ => (follows_lift _).bind fun kind s hs => ?_
  split
  · exact follows_lineDefinition n pos s hs
  · exact follows_elementDefinition n pos kind.1 s hs

theorem follows_statement (scope : Scope) :
    (Counting.statement (k := k) scope).Follows [] (Glps.statement scope) := by
  refine (follows_lift _).bind fun p s hs => ?_
  cases s.mark? with
  | none => exact follows_throw _
  | some m =>
    cases m with
    | equals => exact follows_valueDefinition p.1 p.2 s hs
    | colon => exact follows_componentDefinition p.1 p.2 s hs
    | _ => exact follows_throw _

theorem follows_program (scope : Scope) (s : Stream) :
    Glps.Follows (Calls.At []) (Counting.program scope s) (Glps.program scope s) := by
  induction hn : s.length using Nat.strongRecOn generalizing scope s with
  | ind size ih =>
    rw [Counting.program, Glps.program]
    split
    · exact follows_pure _
    · refine (follows_statement scope s _).bind fun one => ?_
      have hlt : one.rest.length < s.length := one.shorter
      exact (ih _ (hn ▸ hlt) one.value one.rest rfl).passed hlt

/-- Reading with a counter comes to what reading comes to. -/
theorem follows_read (source : List UInt8) :
    Glps.Follows (Calls.At []) (Counting.read source) (Glps.read source) :=
  (follows_program {} _).bind fun _ => follows_ofExcept _

end Follows

end BeamEnvelope.Glps
