import BeamEnvelope.Proofs.Glps.Expressions

/-!
# Derived expressions are read

A tree whose tokens are ahead is read to its value if it nests within the depth that is left and the
token behind it does not continue it. The left operand of an operator is read first, so a tree is
taken apart at its last operator and its right operand joins what continues the left one.
-/

namespace BeamEnvelope.Glps

open Grammar SourceReader Reader

structure Stream.EndsExpression (s : Stream) : Prop where
  sound : s.IsSound
  noCall : s.mark? ≠ some .openParen
  noFactor : s.mark?.bind multiplicative? = none
  noSummand : s.mark?.bind additive? = none

theorem Stream.endsExpression_mark {m : Mark}
    (h : m ∈ [Mark.closeParen, .closeBracket, .comma, .semicolon]) (pos : Position)
    (rest : Stream) : (Stream.token (.mark m) pos rest).EndsExpression := by
  simp only [List.mem_cons, List.not_mem_nil, or_false] at h
  rcases h with rfl | rfl | rfl | rfl <;> exact ⟨trivial, by simp [Token.mark?], rfl, rfl⟩

theorem Primary.tokens_eq_cons (p : Primary) :
    ∃ t ts, p.tokens = t :: ts ∧ t ≠ .mark .closeBracket ∧ t ≠ .mark .minus := by
  cases p with
  | literal l => cases l <;> exact ⟨_, _, rfl, by simp [Literal.token]⟩
  | name n => exact ⟨_, _, rfl, by simp⟩
  | call f e => exact ⟨_, _, rfl, by simp⟩
  | parens e => exact ⟨_, _, rfl, by decide⟩
  | emptyVector => exact ⟨_, _, rfl, by decide⟩
  | vector es => exact ⟨_, _, rfl, by decide⟩

theorem Unary.tokens_eq_cons (u : Unary) :
    ∃ t ts, u.tokens = t :: ts ∧ t ≠ .mark .closeBracket := by
  cases u with
  | negative u => exact ⟨_, _, rfl, by decide⟩
  | primary p =>
    obtain ⟨t, ts, hp, ht, -⟩ := Primary.tokens_eq_cons p
    exact ⟨t, ts, hp, ht⟩

theorem Term.tokens_eq_cons : (t : Term) → ∃ u us, t.tokens = u :: us ∧ u ≠ .mark .closeBracket
  | .unary u => Unary.tokens_eq_cons u
  | .product l op r => by
    obtain ⟨u, us, hl, hu⟩ := Term.tokens_eq_cons l
    exact ⟨u, us ++ .mark op.operator.mark :: r.tokens, by rw [Term.tokens, hl, List.cons_append], hu⟩

theorem Expression.tokens_eq_cons :
    (e : Expression) → ∃ u us, e.tokens = u :: us ∧ u ≠ .mark .closeBracket
  | .term t => Term.tokens_eq_cons t
  | .sum l op r => by
    obtain ⟨u, us, hl, hu⟩ := Expression.tokens_eq_cons l
    exact ⟨u, us ++ .mark op.operator.mark :: r.tokens,
      by rw [Expression.tokens, hl, List.cons_append], hu⟩

theorem Entries.tokens_eq_cons (es : Entries) :
    ∃ u us, es.tokens = u :: us ∧ u ≠ .mark .closeBracket := by
  cases es with
  | last e => exact Expression.tokens_eq_cons e
  | cons e es =>
    obtain ⟨u, us, he, hu⟩ := Expression.tokens_eq_cons e
    exact ⟨u, us ++ .mark .comma :: es.tokens, by rw [Entries.tokens, he, List.cons_append], hu⟩

/-- The reader reads every unary expression that nests within the depth. -/
def ReadsUnary (env : Environment) (depth : Nat) (u : SourceReader Value) : Prop :=
  ∀ {t : Unary} {s rest : Stream} {v : Value}, s.Begins t.tokens rest → t.nesting ≤ depth →
    t.value? env = some v → rest.IsSound → rest.mark? ≠ some .openParen → u.Reads s v rest

section Trees

variable {env : Environment} {depth : Nat} {u : SourceReader Value}

theorem reads_term (hu : ReadsUnary env depth u) (t : Term) {s mid rest : Stream} {a v : Value}
    (hs : s.Begins t.tokens mid) (hnest : t.nesting ≤ depth) (hval : t.value? env = some a)
    (hmid : mid.IsSound) (hcall : mid.mark? ≠ some .openParen)
    (more : Continued u multiplicative? a mid v rest) :
    (chain u multiplicative?).Reads s v rest := by
  cases t with
  | unary t => exact reads_chain.2 ⟨a, mid, hu hs hnest hval hmid hcall, more⟩
  | product l op r =>
    obtain ⟨left, hl, hmore⟩ := Stream.begins_append.1 hs
    obtain ⟨pos, next, rfl, hr⟩ := Stream.begins_cons.1 hmore
    obtain ⟨hln, hrn⟩ := Nat.max_le.1 hnest
    simp only [Term.value?, Option.bind_eq_bind, Option.bind_eq_some_iff] at hval
    obtain ⟨b, hb, c, hc, hval⟩ := hval
    have hop : multiplicative? op.operator.mark = some op.operator :=
      multiplicative?_eq_some.2 ⟨op, rfl, rfl⟩
    refine reads_term hu l hl hln hb trivial (by cases op <;> rintro ⟨⟩) ?_
    exact .step hop (hr.isSound hmid) (hu hr hrn hc hmid hcall) hval more

theorem reads_expression_from (hu : ReadsUnary env depth u) (e : Expression)
    {s mid rest : Stream} {a v : Value} (hs : s.Begins e.tokens mid) (hnest : e.nesting ≤ depth)
    (hval : e.value? env = some a) (hmid : mid.IsSound) (hcall : mid.mark? ≠ some .openParen)
    (hfactor : mid.mark?.bind multiplicative? = none)
    (more : Continued (chain u multiplicative?) additive? a mid v rest) :
    (expressionOf u).Reads s v rest := by
  cases e with
  | term t =>
    exact reads_chain.2 ⟨a, mid, reads_term hu t hs hnest hval hmid hcall (.stop hfactor), more⟩
  | sum l op r =>
    obtain ⟨left, hl, hmore⟩ := Stream.begins_append.1 hs
    obtain ⟨pos, next, rfl, hr⟩ := Stream.begins_cons.1 hmore
    obtain ⟨hln, hrn⟩ := Nat.max_le.1 hnest
    simp only [Expression.value?, Option.bind_eq_bind, Option.bind_eq_some_iff] at hval
    obtain ⟨b, hb, c, hc, hval⟩ := hval
    have hop : additive? op.operator.mark = some op.operator :=
      additive?_eq_some.2 ⟨op, rfl, rfl⟩
    refine reads_expression_from hu l hl hln hb trivial (by cases op <;> rintro ⟨⟩)
      (by cases op <;> rfl) ?_
    exact .step hop (hr.isSound hmid) (reads_term hu r hr hrn hc hmid hcall (.stop hfactor)) hval
      more

theorem reads_expression (hu : ReadsUnary env depth u) {e : Expression} {s rest : Stream}
    {v : Value} (hs : s.Begins e.tokens rest) (hnest : e.nesting ≤ depth)
    (hval : e.value? env = some v) (hrest : rest.EndsExpression) :
    (expressionOf u).Reads s v rest :=
  reads_expression_from hu e hs hnest hval hrest.sound hrest.noCall hrest.noFactor
    (.stop hrest.noSummand)

theorem reads_enclosed_expression (hu : ReadsUnary env depth u) {e : Expression}
    {s rest : Stream} {v : Value}
    (hs : s.Begins (.mark .openParen :: (e.tokens ++ [.mark .closeParen])) rest)
    (hnest : e.nesting ≤ depth) (hval : e.value? env = some v) (hrest : rest.IsSound) :
    (enclosed u).Reads s v rest := by
  obtain ⟨pos, next, rfl, hnext⟩ := Stream.begins_cons.1 hs
  obtain ⟨mid, he, hmid⟩ := Stream.begins_append.1 hnext
  obtain ⟨pos', after, rfl, hafter⟩ := Stream.begins_cons.1 hmid
  obtain rfl := Stream.begins_nil.1 hafter
  have hclose := Stream.endsExpression_mark (m := .closeParen) (by decide) pos' after
  exact reads_enclosed.2 ⟨pos, next, _, pos', rfl, he.isSound hclose.sound,
    reads_expression hu he hnest hval hclose, rfl, hrest⟩

theorem entryRow_of_begins (hu : ReadsUnary env depth u) :
    (es : Entries) → ∀ {s rest : Stream} {xs ys : List Float}, s.Begins es.tokens rest →
      es.nesting ≤ depth → es.values? env = some ys → rest.mark? = some .closeBracket →
      EntryRow u xs s (xs ++ ys) rest
  | .last e, s, rest, xs, ys, hs, hnest, hval, hrest => by
    obtain ⟨pos, after, rfl⟩ := Stream.mark?_eq_some.1 hrest
    simp only [Entries.values?, Option.bind_eq_bind, Option.bind_eq_some_iff] at hval
    obtain ⟨v, hv, x, hx, hys⟩ := hval
    cases hys
    exact .last (reads_vectorEntry.2 ⟨v, x, reads_expression hu hs hnest hv
      (Stream.endsExpression_mark (by decide) pos after), hx, rfl⟩) rfl
  | .cons e es, s, rest, xs, ys, hs, hnest, hval, hrest => by
    obtain ⟨mid, he, hmid⟩ := Stream.begins_append.1 hs
    obtain ⟨pos, next, rfl, hes⟩ := Stream.begins_cons.1 hmid
    obtain ⟨hen, hesn⟩ := Nat.max_le.1 hnest
    simp only [Entries.values?, Option.bind_eq_bind, Option.bind_eq_some_iff] at hval
    obtain ⟨v, hv, x, hx, zs, hzs, hys⟩ := hval
    cases hys
    have hcomma := Stream.endsExpression_mark (m := .comma) (by decide) pos next
    have one : (vectorEntry u xs).Reads s (xs ++ [x]) (.token (.mark .comma) pos next) :=
      reads_vectorEntry.2 ⟨v, x, reads_expression hu he hen hv hcomma, hx, rfl⟩
    have hnext : next.IsSound := hes.isSound (Stream.isSound_of_mark? hrest)
    have others : EntryRow u (xs ++ [x]) next (xs ++ [x] ++ zs) rest :=
      entryRow_of_begins hu es hes hesn hzs hrest
    rw [List.append_assoc] at others
    exact .more one rfl (reads_comma.2 ⟨pos, rfl, hnext⟩) others

end Trees

section Scopes

variable {scope : Scope} {depth : Nat} {u : SourceReader Value} {s rest : Stream} {v : Value}

theorem second?_token (t : Token) (pos : Position) (next : Stream) :
    (Stream.token t pos next).second? = some (.mark .openParen) ↔
      next.mark? = some .openParen := by
  cases next with
  | token t' pos' after => cases t' <;> simp [Stream.second?, Stream.head?, Token.mark?]
  | finish pos' => simp [Stream.second?, Stream.head?]
  | fault f => simp [Stream.second?, Stream.head?, Stream.mark?]

theorem reads_nameOrCall_variable {n : String} {pos : Position} {symbol : Symbol}
    (hlookup : scope.environment.lookup n = some symbol) (hval : symbol.value? = some v)
    (hrest : rest.IsSound) (hcall : rest.mark? ≠ some .openParen) :
    (nameOrCall scope u n).Reads (.token (.name n) pos rest) v rest := by
  have hread : ((name .expression).check fun t => scope.value n t.2).Reads
      (.token (.name n) pos rest) v rest :=
    reads_variable.2 ⟨n, pos, rfl, hrest, symbol, hlookup, hval⟩
  have hsecond := mt (second?_token (.name n) pos rest).1 hcall
  unfold nameOrCall
  cases hf : Function.ofName? n with
  | none => simpa only [Reads, hf] using hread
  | some f => simpa only [Reads, hf, hsecond, if_neg, not_false_eq_true] using hread

theorem reads_nameOrCall_call (hu : ReadsUnary scope.environment depth u) {f : Function}
    {e : Expression} {a : Value} {pos : Position} {next : Stream}
    (hs : next.Begins (.mark .openParen :: (e.tokens ++ [.mark .closeParen])) rest)
    (hnest : e.nesting ≤ depth) (hval : e.value? scope.environment = some a)
    (hv : result? f a = some v) (hrest : rest.IsSound) :
    (nameOrCall scope u f.name).Reads (.token (.name f.name) pos next) v rest := by
  have hargument := reads_enclosed_expression hu hs hnest hval hrest
  have hread : ((name .expression).bind fun t => (enclosed u).check (call t.2 f)).Reads
      (.token (.name f.name) pos next) v rest :=
    reads_call.2 ⟨f.name, pos, next, a, rfl, hs.isSound hrest, hargument, hv⟩
  obtain ⟨pos', after, rfl, -⟩ := Stream.begins_cons.1 hs
  have hsecond := (second?_token (.name f.name) pos (.token (.mark .openParen) pos' after)).2 rfl
  unfold nameOrCall
  simpa only [Reads, Function.ofName?_name, hsecond, if_pos] using hread

theorem reads_vector_entries (hu : ReadsUnary scope.environment depth u) {es : Entries}
    {ys : List Float}
    (hs : s.Begins (.mark .openBracket :: (es.tokens ++ [.mark .closeBracket])) rest)
    (hnest : es.nesting ≤ depth) (hval : es.values? scope.environment = some ys)
    (hrest : rest.IsSound) : (vector u).Reads s (.vector ys) rest := by
  obtain ⟨pos, next, rfl, hnext⟩ := Stream.begins_cons.1 hs
  obtain ⟨mid, hes, hmid⟩ := Stream.begins_append.1 hnext
  obtain ⟨pos', after, rfl, hafter⟩ := Stream.begins_cons.1 hmid
  obtain rfl := Stream.begins_nil.1 hafter
  have hrow : EntryRow u [] next ys (.token (.mark .closeBracket) pos' after) :=
    entryRow_of_begins hu es hes hnest hval rfl
  have hopen : next.mark? ≠ some .closeBracket := by
    obtain ⟨t, ts, ht, hne⟩ := Entries.tokens_eq_cons es
    rw [ht] at hes
    exact hes.mark?_ne hne
  refine reads_vector.2 ⟨pos, next, rfl, hes.isSound trivial, ?_⟩
  rw [if_neg hopen]
  exact ⟨ys, _, pos', rfl, hrow, rfl, hrest⟩

theorem reads_primary (hu : ReadsUnary scope.environment depth u) {p : Primary}
    (hs : s.Begins p.tokens rest) (hnest : p.nesting ≤ depth)
    (hval : p.value? scope.environment = some v) (hrest : rest.IsSound)
    (hcall : rest.mark? ≠ some .openParen) : (primary scope u).Reads s v rest := by
  cases p with
  | literal l =>
    obtain ⟨pos, next, rfl, hnext⟩ := Stream.begins_cons.1 hs
    obtain rfl := Stream.begins_nil.1 hnext
    obtain rfl := Option.some.inj hval
    have hl := reads_literal.2 ⟨l, pos, rfl, hrest, rfl⟩
    cases l <;> exact hl
  | name n =>
    obtain ⟨pos, next, rfl, hnext⟩ := Stream.begins_cons.1 hs
    obtain rfl := Stream.begins_nil.1 hnext
    obtain ⟨symbol, hlookup, hval⟩ := Option.bind_eq_some_iff.1 hval
    exact reads_nameOrCall_variable hlookup hval hrest hcall
  | call f e =>
    obtain ⟨pos, next, rfl, hnext⟩ := Stream.begins_cons.1 hs
    obtain ⟨a, ha, hval⟩ := Option.bind_eq_some_iff.1 hval
    exact reads_nameOrCall_call hu hnext hnest ha hval hrest
  | parens e =>
    have hread := reads_enclosed_expression hu hs hnest hval hrest
    obtain ⟨pos, next, rfl, -⟩ := Stream.begins_cons.1 hs
    exact hread
  | emptyVector =>
    obtain ⟨pos, next, rfl, hnext⟩ := Stream.begins_cons.1 hs
    obtain ⟨pos', after, rfl, hafter⟩ := Stream.begins_cons.1 hnext
    obtain rfl := Stream.begins_nil.1 hafter
    exact reads_vector.2 ⟨pos, _, rfl, trivial, (Option.some.inj hval).symm, pos', rfl, hrest⟩
  | vector es =>
    obtain ⟨ys, hys, hval⟩ := Option.bind_eq_some_iff.1 hval
    obtain rfl := Option.some.inj hval
    have hread := reads_vector_entries hu hs hnest hys hrest
    obtain ⟨pos, next, rfl, -⟩ := Stream.begins_cons.1 hs
    exact hread

theorem readsUnary_unary (scope : Scope) (depth : Nat) :
    ReadsUnary scope.environment depth (unary scope depth) := by
  induction depth with
  | zero =>
    intro t s rest v _ hnest
    cases t <;> exact absurd hnest (Nat.not_succ_le_zero _)
  | succ depth ih =>
    intro t s rest v hs hnest hval hrest hcall
    unfold unary
    cases t with
    | negative t =>
      obtain ⟨pos, next, rfl, hnext⟩ := Stream.begins_cons.1 hs
      obtain ⟨a, ha, hval⟩ := Option.bind_eq_some_iff.1 hval
      have hread := ih hnext (Nat.le_of_succ_le_succ hnest) ha hrest hcall
      simp only [Reads, Stream.mark?_token, Token.mark?, if_pos]
      exact reads_bind.2 ⟨pos, next, reads_mark.2 ⟨rfl, hnext.isSound hrest⟩,
        reads_check.2 ⟨a, hread, negate_eq_ok.2 hval⟩⟩
    | primary p =>
      have hread := reads_primary ih hs (Nat.le_of_succ_le_succ hnest) hval hrest hcall
      have hminus : s.mark? ≠ some .minus := by
        obtain ⟨t, ts, hp, -, ht⟩ := Primary.tokens_eq_cons p
        rw [Unary.tokens, hp] at hs
        exact hs.mark?_ne ht
      simpa only [Reads, hminus, if_neg, not_false_eq_true] using hread

end Scopes

end BeamEnvelope.Glps
