import BeamEnvelope.Proofs.Glps.CountedSources
import BeamEnvelope.Proofs.Glps.ExpressionReading

/-!
# How deep expressions nest

A literal inside minuses, parentheses, brackets and calls, in any mix, is refused for its nesting if
there are `maxNesting` of them or more. With fewer it is read to its end, or refused for what its
value is.
-/

namespace BeamEnvelope.Glps

open Grammar SourceReader Reader

inductive Wrapper where
  | minus | parens | brackets | call (f : Function)
deriving DecidableEq

def Wrapper.wrap : Wrapper → Unary → Unary
  | minus, u => .negative u
  | parens, u => .primary (.parens (.term (.unary u)))
  | brackets, u => .primary (.vector (.last (.term (.unary u))))
  | call f, u => .primary (.call f (.term (.unary u)))

/-- A literal inside wrappers, the outermost one first. -/
def wrapped (ws : List Wrapper) (l : Literal) : Unary :=
  ws.foldr Wrapper.wrap (.primary (.literal l))

def Fault.isNesting : Fault → Bool
  | .unexpected _ .shallower _ => true
  | _ => false

section Outcomes

variable {α β : Type} {s mid rest : Stream}

/-- The reading ends at a place, or with a fault that is no nesting. -/
def Settles (x : Except Fault (Reading α s)) (rest : Stream) : Prop :=
  match x with
  | .ok r => r.rest = rest
  | .error f => f.isNesting = false

def RefusesNesting (x : Except Fault α) : Prop := ∃ f, x = .error f ∧ f.isNesting = true

theorem Settles.of_reads {p : SourceReader α} {a : α} (h : p.Reads s a rest) :
    Settles (p s) rest := by
  obtain ⟨r, hr, -, hrest⟩ := h
  rw [hr]
  exact hrest

theorem Settles.bind {p : SourceReader α} {f : α → SourceReader β} (h : Settles (p s) mid)
    (hf : ∀ a, Settles (f a mid) rest) : Settles ((p.bind f) s) rest := by
  cases hp : p s with
  | error e =>
    rw [Reader.bind_eq_error hp]
    rw [hp] at h
    exact h
  | ok r =>
    rw [hp] at h
    cases h
    have hnext := hf r.value
    rw [Reader.bind, bind_of_eq_ok hp]
    cases hb : f r.value r.rest with
    | error e =>
      rw [hb] at hnext
      exact hnext
    | ok b =>
      rw [hb] at hnext
      exact hnext

theorem Settles.check {p : SourceReader α} {g : α → Except Fault β} (h : Settles (p s) rest)
    (hg : ∀ a f, g a = .error f → f.isNesting = false) : Settles ((p.check g) s) rest := by
  cases hp : p s with
  | error e =>
    rw [hp] at h
    rw [Reader.check, bind_of_eq_error hp]
    exact h
  | ok r =>
    rw [hp] at h
    rw [Reader.check, bind_of_eq_ok hp]
    cases hb : g r.value with
    | error e => exact hg _ _ hb
    | ok b => exact h

/-- A single operand is a chain where no operator follows. -/
theorem Settles.chain {p : SourceReader Value} {operator? : Mark → Option Operator}
    (h : Settles (p s) rest) (hstop : rest.mark?.bind operator? = none) :
    Settles (chain p operator? s) rest := by
  cases hp : p s with
  | error e =>
    rw [hp] at h
    rw [SourceReader.chain, bind_of_eq_error hp]
    exact h
  | ok r =>
    rw [hp] at h
    rw [SourceReader.chain, bind_of_eq_ok hp, chainFrom, if_pos (by rw [h, hstop]; rfl)]
    exact h

/-- A single item is a row where no comma follows. -/
theorem Settles.commaSeparated {item : α → SourceReader α} {expected : Expected} {a : α}
    (h : Settles (item a s) rest) (hstop : (rest.mark? == some .comma) = false) :
    Settles (commaSeparated item expected a s) rest := by
  rw [SourceReader.commaSeparated]
  cases hp : item a s with
  | error e =>
    rw [hp] at h
    rw [Reader.separated_eq_error hp]
    exact h
  | ok r =>
    rw [hp] at h
    have hlast : Row item ((mark .comma expected).check fun _ => .ok ())
        (·.mark? == some .comma) a s r.value rest := .last ⟨r, hp, rfl, h⟩ hstop
    exact .of_reads (reads_separated.2 hlast)

theorem Settles.expressionOf {u : SourceReader Value} (h : Settles (u s) rest)
    (hrest : rest.EndsExpression) : Settles (expressionOf u s) rest :=
  (h.chain hrest.noFactor).chain hrest.noSummand

theorem Settles.not_refusesNesting {x : Except Fault (Reading α s)} (h : Settles x rest) :
    ¬ RefusesNesting x := by
  rintro ⟨f, rfl, hnesting⟩
  exact Bool.eq_false_iff.1 h hnesting

/-- Nothing goes on behind a refusal. -/
theorem RefusesNesting.bind {x : Except Fault α} (h : RefusesNesting x)
    (f : α → Except Fault β) : RefusesNesting (x >>= f) := by
  obtain ⟨e, he, hnesting⟩ := h
  exact ⟨e, bind_of_eq_error he f, hnesting⟩

theorem RefusesNesting.behind {p : SourceReader α} {f : α → SourceReader β} {a : α}
    (hp : p.Reads s a mid) (h : RefusesNesting (f a mid)) : RefusesNesting ((p.bind f) s) := by
  obtain ⟨e, he, hnesting⟩ := h
  exact ⟨e, hp.bind_eq_error he, hnesting⟩

theorem RefusesNesting.expressionOf {u : SourceReader Value} (h : RefusesNesting (u s)) :
    RefusesNesting (expressionOf u s) :=
  (h.bind _).bind _

end Outcomes

section Values

variable {pos : Position} {v : Value} {f : Fault}

theorem isNesting_of_negate (h : negate pos v = .error f) : f.isNesting = false := by
  cases v with
  | scalar x | vector xs => cases h
  | text t =>
    cases h
    rfl

theorem isNesting_of_finite {what : String} {x : Float} (h : finite pos what x = .error f) :
    f.isNesting = false := by
  unfold finite at h
  split at h
  · cases h
  · cases h
    rfl

theorem isNesting_of_call {g : Function} (h : call pos g v = .error f) : f.isNesting = false := by
  cases v with
  | scalar x =>
    cases hx : finite pos g.name (g.apply x) with
    | ok y =>
      rw [call, bind_of_eq_ok hx] at h
      cases h
    | error e =>
      rw [call, bind_of_eq_error hx] at h
      cases h
      exact isNesting_of_finite hx
  | vector xs | text t =>
    cases h
    rfl

theorem isNesting_of_entry {xs : List Float}
    (h : (do return xs ++ [← entry pos v] : Except Fault (List Float)) = .error f) :
    f.isNesting = false := by
  cases v with
  | scalar x => cases h
  | vector ys | text t =>
    cases h
    rfl

end Values

section Wrappers

variable (scope : Scope) (depth : Nat) (pos pos' : Position) (next : Stream)

theorem unary_minus : unary scope (depth + 1) (.token (.mark .minus) pos next) =
    ((mark .minus .expression).bind fun pos => (unary scope depth).check (negate pos))
      (.token (.mark .minus) pos next) := rfl

theorem unary_openParen : unary scope (depth + 1) (.token (.mark .openParen) pos next) =
    enclosed (unary scope depth) (.token (.mark .openParen) pos next) := rfl

theorem unary_openBracket : unary scope (depth + 1) (.token (.mark .openBracket) pos next) =
    vector (unary scope depth) (.token (.mark .openBracket) pos next) := rfl

theorem unary_function (f : Function) : unary scope (depth + 1)
      (.token (.name f.name) pos (.token (.mark .openParen) pos' next)) =
    ((name .expression).bind fun t => (enclosed (unary scope depth)).check (call t.2 f))
      (.token (.name f.name) pos (.token (.mark .openParen) pos' next)) := by
  change nameOrCall scope (unary scope depth) f.name _ = _
  unfold nameOrCall
  simp only [Function.ofName?_name]
  rfl

/-- The name in front of what it is called with. -/
theorem reads_callName (f : Function) (pos pos' : Position) (next : Stream) :
    (name .expression).Reads (.token (.name f.name) pos (.token (.mark .openParen) pos' next))
      (f.name, pos) (.token (.mark .openParen) pos' next) :=
  reads_name.2 ⟨rfl, trivial⟩

end Wrappers

section Nesting

variable {scope : Scope} {depth : Nat} {s rest : Stream} {ws : List Wrapper} {l : Literal}

theorem wrapped_tokens_eq_cons (ws : List Wrapper) (l : Literal) :
    ∃ t ts, (wrapped ws l).tokens = t :: ts ∧ t ≠ .mark .closeBracket :=
  Unary.tokens_eq_cons _

theorem isSound_of_begins_wrapped (hs : s.Begins (wrapped ws l).tokens rest) : s.IsSound := by
  obtain ⟨t, ts, htokens, -⟩ := wrapped_tokens_eq_cons ws l
  rw [htokens] at hs
  obtain ⟨pos, next, rfl, -⟩ := Stream.begins_cons.1 hs
  trivial

theorem mark?_ne_of_begins_wrapped (hs : s.Begins (wrapped ws l).tokens rest) :
    s.mark? ≠ some .closeBracket := by
  obtain ⟨t, ts, htokens, ht⟩ := wrapped_tokens_eq_cons ws l
  rw [htokens] at hs
  exact hs.mark?_ne ht

/-- An expression in parentheses, if what it is made of is settled. -/
theorem settles_enclosed {u : SourceReader Value} {ts : List Token}
    (h : ∀ {s rest : Stream}, s.Begins ts rest → rest.EndsExpression → Settles (u s) rest)
    (hs : s.Begins (.mark .openParen :: (ts ++ [.mark .closeParen])) rest)
    (hrest : rest.IsSound) : Settles (enclosed u s) rest := by
  obtain ⟨pos, next, rfl, hnext⟩ := Stream.begins_cons.1 hs
  obtain ⟨mid, hinner, hmid⟩ := Stream.begins_append.1 hnext
  obtain ⟨pos', after, rfl, hafter⟩ := Stream.begins_cons.1 hmid
  obtain rfl := Stream.begins_nil.1 hafter
  have hclose := Stream.endsExpression_mark (m := .closeParen) (by decide) pos' after
  have hopen : (mark .openParen .openParen).Reads (.token (.mark .openParen) pos next) pos next :=
    reads_mark.2 ⟨rfl, hinner.isSound hclose.sound⟩
  refine (Settles.of_reads hopen).bind fun _ => ?_
  refine ((h hinner hclose).expressionOf hclose).bind fun v => ?_
  exact (Settles.of_reads (reads_mark.2 ⟨rfl, hrest⟩)).check fun _ _ hf => nomatch hf

/-- A vector of one entry. -/
theorem settles_vector {u : SourceReader Value} {ts : List Token}
    (h : ∀ {s rest : Stream}, s.Begins ts rest → rest.EndsExpression → Settles (u s) rest)
    (hts : ∃ t us, ts = t :: us ∧ t ≠ .mark .closeBracket)
    (hs : s.Begins (.mark .openBracket :: (ts ++ [.mark .closeBracket])) rest)
    (hrest : rest.IsSound) : Settles (vector u s) rest := by
  obtain ⟨pos, next, rfl, hnext⟩ := Stream.begins_cons.1 hs
  obtain ⟨mid, hinner, hmid⟩ := Stream.begins_append.1 hnext
  obtain ⟨pos', after, rfl, hafter⟩ := Stream.begins_cons.1 hmid
  obtain rfl := Stream.begins_nil.1 hafter
  have hclose := Stream.endsExpression_mark (m := .closeBracket) (by decide) pos' after
  have hopen : (mark .openBracket .expression).Reads (.token (.mark .openBracket) pos next) pos
      next := reads_mark.2 ⟨rfl, hinner.isSound hclose.sound⟩
  refine (Settles.of_reads hopen).bind fun _ => ?_
  have hnonempty : next.mark? ≠ some .closeBracket := by
    obtain ⟨t, us, rfl, ht⟩ := hts
    exact hinner.mark?_ne ht
  rw [if_neg hnonempty]
  have hentry : Settles (vectorEntry u [] next) (.token (.mark .closeBracket) pos' after) :=
    ((h hinner hclose).expressionOf hclose).check fun _ _ hf => isNesting_of_entry hf
  refine (hentry.commaSeparated rfl).bind fun xs => ?_
  exact (Settles.of_reads (reads_mark.2 ⟨rfl, hrest⟩)).check fun _ _ hf => nomatch hf

theorem settles_unary (h : ws.length < depth) (hs : s.Begins (wrapped ws l).tokens rest)
    (hrest : rest.IsSound) (hcall : rest.mark? ≠ some .openParen) :
    Settles (unary scope depth s) rest := by
  -- on the wrappers, each of which leaves one level less to those inside it
  induction ws generalizing depth s rest with
  | nil =>
    have hnest : (wrapped [] l).nesting ≤ depth := h
    exact .of_reads (readsUnary_unary scope depth hs hnest rfl hrest hcall)
  | cons w ws ih =>
    obtain ⟨depth, rfl⟩ := Nat.exists_eq_add_of_lt (Nat.zero_lt_of_lt h)
    rw [Nat.zero_add] at h ⊢
    have hinner {s rest : Stream} (hs : s.Begins (wrapped ws l).tokens rest)
        (hends : rest.EndsExpression) : Settles (unary scope depth s) rest :=
      ih (Nat.lt_of_succ_lt_succ h) hs hends.sound hends.noCall
    cases w with
    | minus =>
      obtain ⟨pos, next, rfl, hnext⟩ := Stream.begins_cons.1 hs
      rw [unary_minus]
      refine (Settles.of_reads (reads_mark.2 ⟨rfl, hnext.isSound hrest⟩)).bind fun _ => ?_
      exact (ih (Nat.lt_of_succ_lt_succ h) hnext hrest hcall).check
        fun _ _ hf => isNesting_of_negate hf
    | parens =>
      have henclosed := settles_enclosed hinner hs hrest
      obtain ⟨pos, next, rfl, -⟩ := Stream.begins_cons.1 hs
      exact henclosed
    | brackets =>
      have hvector := settles_vector hinner (wrapped_tokens_eq_cons ws l) hs hrest
      obtain ⟨pos, next, rfl, -⟩ := Stream.begins_cons.1 hs
      exact hvector
    | call f =>
      obtain ⟨pos, next, rfl, hnext⟩ := Stream.begins_cons.1 hs
      have henclosed := settles_enclosed hinner hnext hrest
      obtain ⟨pos', after, rfl, -⟩ := Stream.begins_cons.1 hnext
      rw [unary_function]
      refine (Settles.of_reads (reads_callName f pos pos' after)).bind fun _ => ?_
      exact henclosed.check fun _ _ hf => isNesting_of_call hf

theorem refuses_enclosed {u : SourceReader Value} {pos : Position} {next : Stream}
    (h : RefusesNesting (u next)) (hnext : next.IsSound) :
    RefusesNesting (enclosed u (.token (.mark .openParen) pos next)) := by
  have hopen : (mark .openParen .openParen).Reads (.token (.mark .openParen) pos next) pos next :=
    reads_mark.2 ⟨rfl, hnext⟩
  exact .behind hopen (h.expressionOf.bind _)

theorem refuses_vector {u : SourceReader Value} {pos : Position} {next : Stream}
    (h : RefusesNesting (u next)) (hnext : next.IsSound)
    (hopen : next.mark? ≠ some .closeBracket) :
    RefusesNesting (vector u (.token (.mark .openBracket) pos next)) := by
  have hbracket : (mark .openBracket .expression).Reads (.token (.mark .openBracket) pos next) pos
      next := reads_mark.2 ⟨rfl, hnext⟩
  have hentry : RefusesNesting (vectorEntry u [] next) := h.expressionOf.bind _
  obtain ⟨f, hf, hnesting⟩ := hentry
  have hentries : RefusesNesting (commaSeparated (vectorEntry u) .entryEnd [] next) :=
    ⟨f, Reader.separated_eq_error hf, hnesting⟩
  refine .behind hbracket ?_
  rw [if_neg hopen]
  exact hentries.bind _

theorem refuses_unary (h : depth ≤ ws.length) (hs : s.Begins (wrapped ws l).tokens rest) :
    RefusesNesting (unary scope depth s) := by
  -- on the depth, since every wrapper takes one away
  induction depth generalizing ws s rest with
  | zero =>
    obtain ⟨t, ts, htokens, -⟩ := wrapped_tokens_eq_cons ws l
    rw [htokens] at hs
    obtain ⟨pos, next, rfl, -⟩ := Stream.begins_cons.1 hs
    exact ⟨_, rfl, rfl⟩
  | succ depth ih =>
    cases ws with
    | nil => cases h
    | cons w ws =>
      have hdepth : depth ≤ ws.length := Nat.le_of_succ_le_succ h
      cases w with
      | minus =>
        obtain ⟨pos, next, rfl, hnext⟩ := Stream.begins_cons.1 hs
        have hminus : (mark .minus .expression).Reads (.token (.mark .minus) pos next) pos next :=
          reads_mark.2 ⟨rfl, isSound_of_begins_wrapped hnext⟩
        rw [unary_minus]
        exact .behind hminus ((ih hdepth hnext).bind _)
      | parens =>
        obtain ⟨pos, next, rfl, hnext⟩ := Stream.begins_cons.1 hs
        obtain ⟨mid, hinner, -⟩ := Stream.begins_append.1 hnext
        rw [unary_openParen]
        exact refuses_enclosed (ih hdepth hinner) (isSound_of_begins_wrapped hinner)
      | brackets =>
        obtain ⟨pos, next, rfl, hnext⟩ := Stream.begins_cons.1 hs
        obtain ⟨mid, hinner, -⟩ := Stream.begins_append.1 hnext
        rw [unary_openBracket]
        exact refuses_vector (ih hdepth hinner) (isSound_of_begins_wrapped hinner)
          (mark?_ne_of_begins_wrapped hinner)
      | call g =>
        obtain ⟨pos, next, rfl, hnext⟩ := Stream.begins_cons.1 hs
        obtain ⟨pos', after, rfl, hafter⟩ := Stream.begins_cons.1 hnext
        obtain ⟨mid, hinner, -⟩ := Stream.begins_append.1 hafter
        have hrefused : RefusesNesting
            (enclosed (unary scope depth) (.token (.mark .openParen) pos' after)) :=
          refuses_enclosed (ih hdepth hinner) (isSound_of_begins_wrapped hinner)
        rw [unary_function]
        exact .behind (reads_callName g pos pos' after) (hrefused.bind _)

theorem refusesNesting_unary_iff (hs : s.Begins (wrapped ws l).tokens rest)
    (hrest : rest.IsSound) (hcall : rest.mark? ≠ some .openParen) :
    RefusesNesting (unary scope maxNesting s) ↔ maxNesting ≤ ws.length := by
  refine ⟨fun h => ?_, fun h => refuses_unary h hs⟩
  by_contra hshort
  exact (settles_unary (Nat.lt_of_not_le hshort) hs hrest hcall).not_refusesNesting h

theorem settles_expression (h : ws.length < maxNesting) (hs : s.Begins (wrapped ws l).tokens rest)
    (hrest : rest.EndsExpression) : Settles (expression scope s) rest :=
  (settles_unary h hs hrest.sound hrest.noCall).expressionOf hrest

theorem refuses_expression (h : maxNesting ≤ ws.length)
    (hs : s.Begins (wrapped ws l).tokens rest) : RefusesNesting (expression scope s) :=
  have hunary : RefusesNesting (unary scope maxNesting s) := refuses_unary h hs
  hunary.expressionOf

theorem refusesNesting_expression_iff (hs : s.Begins (wrapped ws l).tokens rest)
    (hrest : rest.EndsExpression) :
    RefusesNesting (expression scope s) ↔ maxNesting ≤ ws.length := by
  refine ⟨fun h => ?_, fun h => refuses_expression h hs⟩
  by_contra hshort
  exact (settles_expression (Nat.lt_of_not_le hshort) hs hrest).not_refusesNesting h

end Nesting

section Sources

variable {scope : Scope} {ws : List Wrapper} {l : Literal} {n : String} {pos : Position}
  {s : Stream}

theorem isNesting_of_define {symbol : Symbol} {f : Fault}
    (h : scope.define n symbol pos = .error f) : f.isNesting = false := by
  unfold Scope.define at h
  split at h
  · cases h
    rfl
  · cases h

/-- The tokens of a statement that gives a name the value of a wrapped literal. -/
def wrappedTokens (n : String) (ws : List Wrapper) (l : Literal) : List Token :=
  .name n :: .mark .equals :: ((wrapped ws l).tokens ++ [.mark .semicolon])

/-- Where such a statement is ahead, a value definition is read behind its name. -/
theorem exists_of_begins_wrappedTokens (hs : s.Begins (wrappedTokens n ws l) (.finish pos)) :
    ∃ pos₀ pos₁ pos₂ next, s = .token (.name n) pos₀ (.token (.mark .equals) pos₁ next) ∧
      next.Begins (wrapped ws l).tokens (.token (.mark .semicolon) pos₂ (.finish pos)) ∧
      (name .statement).Reads s (n, pos₀) (.token (.mark .equals) pos₁ next) ∧
      (mark .equals .equals).Reads (.token (.mark .equals) pos₁ next) pos₁ next := by
  obtain ⟨pos₀, afterName, rfl, hname⟩ := Stream.begins_cons.1 hs
  obtain ⟨pos₁, next, rfl, hnext⟩ := Stream.begins_cons.1 hname
  obtain ⟨mid, hvalue, hmid⟩ := Stream.begins_append.1 hnext
  obtain ⟨pos₂, _, rfl, hlast⟩ := Stream.begins_cons.1 hmid
  obtain rfl := Stream.begins_nil.1 hlast
  exact ⟨pos₀, pos₁, pos₂, next, rfl, hvalue, reads_name.2 ⟨rfl, trivial⟩,
    reads_mark.2 ⟨rfl, hvalue.isSound trivial⟩⟩

theorem settles_statement (h : ws.length < maxNesting)
    (hs : s.Begins (wrappedTokens n ws l) (.finish pos)) :
    Settles (statement scope s) (.finish pos) := by
  obtain ⟨pos₀, pos₁, pos₂, next, rfl, hvalue, hname, hequals⟩ := exists_of_begins_wrappedTokens hs
  have hends := Stream.endsExpression_mark (m := .semicolon) (by decide) pos₂ (.finish pos)
  have hsemicolon : (mark .semicolon .semicolon).Reads
      (.token (.mark .semicolon) pos₂ (.finish pos)) pos₂ (.finish pos) :=
    reads_mark.2 ⟨rfl, trivial⟩
  refine (Settles.of_reads hname).bind fun p => ?_
  change Settles (valueDefinition scope p.1 p.2 (.token (.mark .equals) pos₁ next)) _
  refine (Settles.of_reads hequals).bind fun _ => ?_
  refine (settles_expression h hvalue hends).bind fun v => ?_
  exact (Settles.of_reads hsemicolon).check fun _ _ hdefine => isNesting_of_define hdefine

theorem refuses_statement (h : maxNesting ≤ ws.length)
    (hs : s.Begins (wrappedTokens n ws l) (.finish pos)) :
    RefusesNesting (statement scope s) := by
  obtain ⟨pos₀, pos₁, pos₂, next, rfl, hvalue, hname, hequals⟩ := exists_of_begins_wrappedTokens hs
  have hexpression : RefusesNesting (expression scope next) := refuses_expression h hvalue
  have hdefinition : RefusesNesting
      (valueDefinition scope n pos₀ (.token (.mark .equals) pos₁ next)) :=
    .behind hequals (hexpression.bind _)
  exact .behind hname hdefinition

theorem refusesNesting_program_iff (hs : s.Begins (wrappedTokens n ws l) (.finish pos)) :
    RefusesNesting (program scope s) ↔ maxNesting ≤ ws.length := by
  have hfinish : s.isFinish = false := by
    obtain ⟨_, _, _, _, rfl, -⟩ := exists_of_begins_wrappedTokens hs
    rfl
  rw [program, if_neg (by simp [hfinish])]
  constructor
  · rintro ⟨f, hf, hnesting⟩
    by_contra hshort
    have hstatement : Settles (statement scope s) (.finish pos) :=
      settles_statement (Nat.lt_of_not_le hshort) hs
    cases hone : statement scope s with
    | error e =>
      rw [bind_of_eq_error hone] at hf
      rw [hone] at hstatement
      cases hf
      exact Bool.eq_false_iff.1 hstatement hnesting
    | ok one =>
      rw [hone] at hstatement
      have hrest : one.rest = .finish pos := hstatement
      have hlast : (Stream.finish pos).isFinish = true := rfl
      rw [bind_of_eq_ok hone, hrest, program, if_pos hlast] at hf
      cases hf
  · intro h
    have hstatement : RefusesNesting (statement scope s) := refuses_statement h hs
    exact hstatement.bind _

theorem isNesting_of_lattice {f : Fault} (h : scope.lattice = .error f) : f.isNesting = false := by
  rw [Scope.lattice] at h
  split at h
  · cases h
  · cases h
    rfl

theorem refusesNesting_read_iff {source : List UInt8}
    (hs : (Stream.ofSource source).Begins (wrappedTokens n ws l) (.finish pos)) :
    RefusesNesting (read source) ↔ maxNesting ≤ ws.length := by
  rw [← refusesNesting_program_iff hs]
  constructor
  · rintro ⟨f, hf, hnesting⟩
    cases hprogram : program {} (.ofSource source) with
    | error e =>
      rw [read, bind_of_eq_error hprogram] at hf
      cases hf
      exact ⟨f, rfl, hnesting⟩
    | ok final =>
      rw [read, bind_of_eq_ok hprogram] at hf
      exact absurd hnesting (Bool.eq_false_iff.1 (isNesting_of_lattice hf))
  · exact fun h => h.bind _

/-- A text in parentheses behind a minus. -/
example : (Stream.ofSource "x=-(\"a\");".toUTF8.toList).Begins
    (wrappedTokens "x" [.minus, .parens] (.text "a")) (.finish ⟨1, 10⟩) := by
  have h : Stream.ofSource "x=-(\"a\");".toUTF8.toList =
      .token (.name "x") ⟨1, 1⟩ (.token (.mark .equals) ⟨1, 2⟩ (.token (.mark .minus) ⟨1, 3⟩
        (.token (.mark .openParen) ⟨1, 4⟩ (.token (.text "a") ⟨1, 5⟩
          (.token (.mark .closeParen) ⟨1, 8⟩ (.token (.mark .semicolon) ⟨1, 9⟩
            (.finish ⟨1, 10⟩))))))) := by cbv
  rw [h]
  repeat constructor

end Sources

/-- Calls that are active together, the innermost one first. -/
structure IsBoundedRow (row : List Routine) : Prop where
  unary : row.count .unary ≤ maxNesting
  length : row.length ≤ 6 * maxNesting + 5
  /-- A routine comes to call itself through unary expressions only. -/
  cycle {front mid back : List Routine} {r : Routine} :
    row = front ++ r :: (mid ++ r :: back) → r = .unary ∨ .unary ∈ mid

theorem Orderly.isBoundedRow {row : List Routine} (h : Orderly row) : IsBoundedRow row where
  unary := h.bounded
  length := h.length_le
  cycle := by
    rintro front mid back r rfl
    exact (eq_or_ne r .unary).imp id fun hr => h.unary_between hr

/-- What bounds the reading of a source. -/
structure IsBoundedReading (source : List UInt8) : Prop where
  /-- With one counter and no bound on the calls but what it says, the reading ends as it does
  without. The counter is at zero then, no call is left, all calls that were ever active together
  are a bounded row, and every pass of a loop has taken a token. -/
  counted : ∃ after, (Counting.read source).run {} = returned after (read source) ∧
    after.depth = 0 ∧ after.active = [] ∧ (∀ row ∈ after.seen, IsBoundedRow row) ∧
    ∀ pass ∈ after.passes, pass.2.length < pass.1.length
  /-- Every routine leaves the counter and the calls as it found them, with a value or a fault. -/
  restored (scope : Scope) (r : Routine) (s : Stream) {active : List Routine} {calls : Calls} :
    Orderly active → Admits active r → calls.At active →
      ∃ after, (Counting.routine scope r s).run calls =
          returned after (r.reader scope (maxNesting - calls.depth) s) ∧
        after.depth = calls.depth ∧ after.active = calls.active
  /-- A literal wrapped in minuses, parentheses, brackets and calls is refused for its nesting
  exactly if there are `maxNesting` of them or more: as an expression, as a factor in a line, -/
  expression (scope : Scope) {s rest : Stream} {ws : List Wrapper} {l : Literal} :
    s.Begins (wrapped ws l).tokens rest → rest.EndsExpression →
      (RefusesNesting (expression scope s) ↔ maxNesting ≤ ws.length)
  factor (scope : Scope) {s rest : Stream} {ws : List Wrapper} {l : Literal} :
    s.Begins (wrapped ws l).tokens rest → rest.mark? = some .star →
      (RefusesNesting (unary scope maxNesting s) ↔ maxNesting ≤ ws.length)
  /-- and as all that a source defines. -/
  value {n : String} {ws : List Wrapper} {l : Literal} {pos : Position} :
    (Stream.ofSource source).Begins (wrappedTokens n ws l) (.finish pos) →
      (RefusesNesting (read source) ↔ maxNesting ≤ ws.length)

theorem isBoundedReading (source : List UInt8) : IsBoundedReading source where
  counted := by
    have hstart : Calls.At [] {} := ⟨rfl, rfl, by simp, by simp⟩
    obtain ⟨after, hafter, hrun⟩ := follows_read source {} hstart
    exact ⟨after, hrun, hafter.depth_eq, hafter.active_eq,
      fun row hrow => (hafter.orderly row hrow).isBoundedRow, hafter.consuming⟩
  restored scope r s active calls hactive hadmits hcalls := by
    obtain ⟨after, hafter, hrun⟩ := Routine.performs scope r s active hactive hadmits calls hcalls
    rw [hcalls.depth_eq, hcalls.active_eq]
    exact ⟨after, hrun, hafter.depth_eq, hafter.active_eq⟩
  expression scope _ _ _ _ hs hrest := refusesNesting_expression_iff hs hrest
  factor scope _ _ _ _ hs hstar :=
    refusesNesting_unary_iff hs (Stream.isSound_of_mark? hstar) (by simp [hstar])
  value hs := refusesNesting_read_iff hs

end BeamEnvelope.Glps
