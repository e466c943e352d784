import BeamEnvelope.Proofs.Glps.Evaluation
import BeamEnvelope.Proofs.Glps.Tokens

/-!
# Expressions are read as they are derived and evaluated

What a reader of expressions takes from a stream is the row of tokens of a tree, and the value it
returns is that of the tree. Conversely a tree whose tokens are ahead is read to its value, unless
the token behind it could continue the tree.
-/

namespace BeamEnvelope.Glps

open Grammar SourceReader Reader

/-- How a value grows over operators and operands until no operator is ahead. -/
inductive Continued (operand : SourceReader Value) (operator? : Mark → Option Operator) :
    Value → Stream → Value → Stream → Prop
  | stop {v : Value} {s : Stream} (h : s.mark?.bind operator? = none) :
    Continued operand operator? v s v s
  | step {a b c v : Value} {m : Mark} {op : Operator} {pos : Position} {next after rest : Stream}
    (hop : operator? m = some op) (hnext : next.IsSound) (right : operand.Reads next b after)
    (value : combine? op a b = some c) (more : Continued operand operator? c after v rest) :
    Continued operand operator? a (.token (.mark m) pos next) v rest

section Chain

variable {operand : SourceReader Value} {operator? : Mark → Option Operator} {s rest : Stream}
  {v : Value}

theorem chainFrom_eq_ok {left r : Reading Value s} :
    chainFrom operand operator? left = .ok r →
      Continued operand operator? left.value left.rest r.value r.rest := by
  induction hn : left.rest.length using Nat.strongRecOn generalizing left with
  | ind n ih =>
    intro h
    rw [chainFrom] at h
    split at h
    · rename_i hstop
      cases h
      exact .stop (by simpa using hstop)
    · obtain ⟨op, hop, h⟩ := bind_eq_ok.1 h
      obtain ⟨right, hright, h⟩ := bind_eq_ok.1 h
      obtain ⟨w, hw, h⟩ := bind_eq_ok.1 h
      obtain ⟨t, ht, hmark, hsound⟩ := reads_accept.1 (reads_of_eq hop)
      obtain ⟨m, hm, hop'⟩ := Option.bind_eq_some_iff.1 hmark
      have hlt := Nat.lt_trans right.shorter op.shorter
      have more := ih _ (hn ▸ hlt) rfl h
      cases t with
      | mark m' =>
        cases hm
        rw [ht]
        exact .step hop' hsound (reads_of_eq hright) (binary_eq_ok.1 hw) more
      | name n => cases hm
      | number x => cases hm
      | text x => cases hm

theorem chainFrom_of_continued {left : Reading Value s}
    (h : Continued operand operator? left.value left.rest v rest) :
    ∃ r, chainFrom operand operator? left = .ok r ∧ r.value = v ∧ r.rest = rest := by
  generalize ha : left.value = a at h
  generalize hs : left.rest = s' at h
  induction h generalizing left with
  | stop hstop =>
    refine ⟨left, ?_, ha, hs⟩
    rw [chainFrom, if_pos (by simp [hs, hstop])]
  | @step a b c v m op pos next after rest hop hnext right value more ih =>
    obtain ⟨right, hright, rfl, rfl⟩ := right
    have hgo : ¬ (left.rest.mark?.bind operator?).isNone := by simp [hs, Token.mark?, hop]
    have hread : (accept (fun t => t.mark?.bind operator?) .expression).Reads left.rest (op, pos)
        next := reads_accept.2 ⟨_, hs, by simp [Token.mark?, hop], hnext⟩
    obtain ⟨o, ho, hval, rfl⟩ := hread
    have hw : binary o.value.2 o.value.1 left.value right.value = .ok c := by
      rw [hval, ha]
      exact binary_eq_ok.2 value
    have hlt : right.rest.length < s.length :=
      Nat.lt_trans right.shorter (Nat.lt_trans o.shorter left.shorter)
    obtain ⟨r, hr, hv, hrest⟩ := @ih ⟨c, right.rest, hlt⟩ rfl rfl
    refine ⟨r, ?_, hv, hrest⟩
    rw [chainFrom, if_neg hgo, bind_of_eq_ok ho, bind_of_eq_ok hright, bind_of_eq_ok hw]
    exact hr

theorem reads_chain :
    (chain operand operator?).Reads s v rest ↔
      ∃ a mid, operand.Reads s a mid ∧ Continued operand operator? a mid v rest := by
  constructor
  · rintro ⟨r, hr, rfl, rfl⟩
    obtain ⟨left, hl, hr⟩ := bind_eq_ok.1 hr
    exact ⟨_, _, reads_of_eq hl, chainFrom_eq_ok hr⟩
  · rintro ⟨_, _, ⟨left, hl, rfl, rfl⟩, h⟩
    obtain ⟨r, hr, hv, hrest⟩ := chainFrom_of_continued h
    exact ⟨r, by rw [chain, bind_of_eq_ok hl, hr], hv, hrest⟩

/-- What holds of the first operand and is kept by every further one holds of the whole chain. -/
theorem Continued.elim {P : Value → Stream → Prop} {a : Value}
    (h : Continued operand operator? a s v rest) (first : P a s)
    (step : ∀ {a b c m op pos next after}, P a (.token (.mark m) pos next) →
      operator? m = some op → operand.Reads next b after → combine? op a b = some c → P c after) :
    P v rest := by
  induction h with
  | stop => exact first
  | step hop _ right value _ ih => exact ih (step first hop right value)

end Chain

theorem multiplicative?_eq_some {m : Mark} {op : Operator} :
    multiplicative? m = some op ↔ ∃ o : Multiplicative, o.operator = op ∧ op.mark = m := by
  constructor
  · intro h
    cases m <;> cases h
    · exact ⟨.mul, rfl, rfl⟩
    · exact ⟨.div, rfl, rfl⟩
  · rintro ⟨o, rfl, rfl⟩
    cases o <;> rfl

theorem additive?_eq_some {m : Mark} {op : Operator} :
    additive? m = some op ↔ ∃ o : Additive, o.operator = op ∧ op.mark = m := by
  constructor
  · intro h
    cases m <;> cases h
    · exact ⟨.add, rfl, rfl⟩
    · exact ⟨.sub, rfl, rfl⟩
  · rintro ⟨o, rfl, rfl⟩
    cases o <;> rfl

section Derivation

/-- The tokens from `s` to `rest` are those of a tree of value `v` that nests within `depth`. -/
def DerivesUnary (env : Environment) (depth : Nat) (s : Stream) (v : Value) (rest : Stream) : Prop :=
  ∃ u : Unary, s.Begins u.tokens rest ∧ u.nesting ≤ depth ∧ u.value? env = some v

def DerivesTerm (env : Environment) (depth : Nat) (s : Stream) (v : Value) (rest : Stream) : Prop :=
  ∃ t : Term, s.Begins t.tokens rest ∧ t.nesting ≤ depth ∧ t.value? env = some v

def DerivesExpression (env : Environment) (depth : Nat) (s : Stream) (v : Value) (rest : Stream) :
    Prop :=
  ∃ e : Expression, s.Begins e.tokens rest ∧ e.nesting ≤ depth ∧ e.value? env = some v

def DerivesPrimary (env : Environment) (depth : Nat) (s : Stream) (v : Value) (rest : Stream) :
    Prop :=
  ∃ p : Primary, s.Begins p.tokens rest ∧ p.nesting ≤ depth ∧ p.value? env = some v

variable {scope : Scope} {depth : Nat} {u : SourceReader Value} {s rest : Stream} {v : Value}

theorem derivesTerm_of_reads {env : Environment}
    (hu : ∀ {s v rest}, u.Reads s v rest → DerivesUnary env depth s v rest)
    (h : (chain u multiplicative?).Reads s v rest) : DerivesTerm env depth s v rest := by
  obtain ⟨a, mid, ha, hmore⟩ := reads_chain.1 h
  obtain ⟨t, htokens, hnest, hval⟩ := hu ha
  have first : DerivesTerm env depth s a mid := ⟨.unary t, htokens, hnest, hval⟩
  refine hmore.elim first fun {a b c m op pos next after} left hop right value => ?_
  obtain ⟨l, hl, hln, hlv⟩ := left
  obtain ⟨r, hr, hrn, hrv⟩ := hu right
  obtain ⟨o, rfl, rfl⟩ := multiplicative?_eq_some.1 hop
  exact ⟨.product l o r, hl.append (.cons _ pos hr), Nat.max_le.2 ⟨hln, hrn⟩,
    by simp [Term.value?, hlv, hrv, value]⟩

theorem derivesExpression_of_reads {env : Environment}
    (hu : ∀ {s v rest}, u.Reads s v rest → DerivesUnary env depth s v rest)
    (h : (expressionOf u).Reads s v rest) : DerivesExpression env depth s v rest := by
  obtain ⟨a, mid, ha, hmore⟩ := reads_chain.1 h
  obtain ⟨t, htokens, hnest, hval⟩ := derivesTerm_of_reads hu ha
  have first : DerivesExpression env depth s a mid := ⟨.term t, htokens, hnest, hval⟩
  refine hmore.elim first fun {a b c m op pos next after} left hop right value => ?_
  obtain ⟨l, hl, hln, hlv⟩ := left
  obtain ⟨r, hr, hrn, hrv⟩ := derivesTerm_of_reads hu right
  obtain ⟨o, rfl, rfl⟩ := additive?_eq_some.1 hop
  exact ⟨.sum l o r, hl.append (.cons _ pos hr), Nat.max_le.2 ⟨hln, hrn⟩,
    by simp [Expression.value?, hlv, hrv, value]⟩

theorem reads_enclosed : (enclosed u).Reads s v rest ↔ ∃ pos next mid pos',
    s = .token (.mark .openParen) pos next ∧ next.IsSound ∧ (expressionOf u).Reads next v mid ∧
      mid = .token (.mark .closeParen) pos' rest ∧ rest.IsSound := by
  simp only [enclosed, reads_bind, reads_check, reads_mark]
  constructor
  · rintro ⟨pos, next, ⟨rfl, hnext⟩, a, mid, ha, pos', ⟨rfl, hrest⟩, h⟩
    cases h
    exact ⟨pos, next, _, pos', rfl, hnext, ha, rfl, hrest⟩
  · rintro ⟨pos, next, mid, pos', rfl, hnext, ha, rfl, hrest⟩
    exact ⟨pos, next, ⟨rfl, hnext⟩, v, _, ha, pos', ⟨rfl, hrest⟩, rfl⟩

theorem begins_of_reads_enclosed {env : Environment}
    (hu : ∀ {s v rest}, u.Reads s v rest → DerivesUnary env depth s v rest)
    (h : (enclosed u).Reads s v rest) : ∃ e : Expression,
      s.Begins (.mark .openParen :: (e.tokens ++ [.mark .closeParen])) rest ∧
        e.nesting ≤ depth ∧ e.value? env = some v := by
  obtain ⟨pos, next, mid, pos', rfl, -, he, rfl, -⟩ := reads_enclosed.1 h
  obtain ⟨e, htokens, hnest, hval⟩ := derivesExpression_of_reads hu he
  exact ⟨e, .cons _ pos (htokens.append (.cons _ pos' (.nil _))), hnest, hval⟩

theorem reads_vectorEntry {xs ys : List Float} : (vectorEntry u xs).Reads s ys rest ↔
    ∃ v x, (expressionOf u).Reads s v rest ∧ v.scalar? = some x ∧ ys = xs ++ [x] := by
  change ((expressionOf u).check _).Reads s ys rest ↔ _
  simp only [reads_check, bind_eq_ok, entry_eq_ok]
  constructor
  · rintro ⟨v, hv, x, hx, h⟩
    cases h
    exact ⟨v, x, hv, hx, rfl⟩
  · rintro ⟨v, x, hv, hx, rfl⟩
    exact ⟨v, hv, x, hx, rfl⟩

/-- The rows of entries that a vector is made of. -/
abbrev EntryRow (u : SourceReader Value) : List Float → Stream → List Float → Stream → Prop :=
  Row (vectorEntry u) ((mark .comma .entryEnd).check fun _ => .ok ()) (·.mark? == some .comma)

theorem begins_of_entryRow {env : Environment}
    (hu : ∀ {s v rest}, u.Reads s v rest → DerivesUnary env depth s v rest) {xs ys : List Float}
    (h : EntryRow u xs s ys rest) : ∃ es : Entries, s.Begins es.tokens rest ∧
      es.nesting ≤ depth ∧ ∃ zs, es.values? env = some zs ∧ ys = xs ++ zs := by
  induction h with
  | last one stop =>
    obtain ⟨v, x, he, hx, rfl⟩ := reads_vectorEntry.1 one
    obtain ⟨e, htokens, hnest, hval⟩ := derivesExpression_of_reads hu he
    exact ⟨.last e, htokens, hnest, [x], by simp [Entries.values?, hval, hx], rfl⟩
  | more one go gap _ ih =>
    obtain ⟨v, x, he, hx, rfl⟩ := reads_vectorEntry.1 one
    obtain ⟨e, htokens, hnest, hval⟩ := derivesExpression_of_reads hu he
    obtain ⟨es, hes, hesn, zs, hzs, rfl⟩ := ih
    obtain ⟨pos, rfl, -⟩ := reads_comma.1 gap
    exact ⟨.cons e es, htokens.append (.cons _ pos hes), Nat.max_le.2 ⟨hnest, hesn⟩, x :: zs,
      by simp [Entries.values?, hval, hx, hzs], by simp⟩

theorem reads_vector : (vector u).Reads s v rest ↔ ∃ pos next,
    s = .token (.mark .openBracket) pos next ∧ next.IsSound ∧
      if next.mark? = some .closeBracket then
        v = .vector [] ∧ ∃ pos', next = .token (.mark .closeBracket) pos' rest ∧ rest.IsSound
      else ∃ xs mid pos', v = .vector xs ∧ EntryRow u [] next xs mid ∧
        mid = .token (.mark .closeBracket) pos' rest ∧ rest.IsSound := by
  simp only [vector, reads_bind, reads_mark]
  constructor
  · rintro ⟨pos, next, ⟨rfl, hnext⟩, h⟩
    refine ⟨pos, next, rfl, hnext, ?_⟩
    split
    · rename_i hm
      simp only [Reads, hm, if_pos] at h
      obtain ⟨pos', ⟨hr, hrest⟩, hv⟩ := reads_check.1 h |>.imp fun _ => And.imp_left reads_mark.1
      cases hv
      exact ⟨rfl, pos', hr, hrest⟩
    · rename_i hm
      simp only [Reads, hm, if_neg, not_false_eq_true] at h
      obtain ⟨xs, mid, hrow, h⟩ := reads_bind.1 h
      obtain ⟨pos', ⟨hr, hrest⟩, hv⟩ := reads_check.1 h |>.imp fun _ => And.imp_left reads_mark.1
      cases hv
      exact ⟨xs, mid, pos', rfl, reads_separated.1 hrow, hr, hrest⟩
  · rintro ⟨pos, next, rfl, hnext, h⟩
    refine ⟨pos, next, ⟨rfl, hnext⟩, ?_⟩
    split at h
    · rename_i hm
      obtain ⟨rfl, pos', hr, hrest⟩ := h
      simp only [Reads, hm, if_pos]
      exact reads_check.2 ⟨pos', reads_mark.2 ⟨hr, hrest⟩, rfl⟩
    · rename_i hm
      obtain ⟨xs, mid, pos', rfl, hrow, hr, hrest⟩ := h
      simp only [Reads, hm, if_neg, not_false_eq_true]
      exact reads_bind.2 ⟨xs, mid, reads_separated.2 hrow,
        reads_check.2 ⟨pos', reads_mark.2 ⟨hr, hrest⟩, rfl⟩⟩

/-- A name that is read as a value. -/
theorem reads_variable {n : String} :
    ((name .expression).check fun t => scope.value n t.2).Reads s v rest ↔ ∃ m pos,
      s = .token (.name m) pos rest ∧ rest.IsSound ∧
        ∃ symbol, scope.environment.lookup n = some symbol ∧ symbol.value? = some v := by
  simp only [reads_check, reads_name, Scope.value_eq_ok]
  constructor
  · rintro ⟨⟨m, pos⟩, ⟨hs, hrest⟩, h⟩
    exact ⟨m, pos, hs, hrest, h⟩
  · rintro ⟨m, pos, hs, hrest, h⟩
    exact ⟨(m, pos), ⟨hs, hrest⟩, h⟩

/-- A name that is read as a call. -/
theorem reads_call {f : Function} :
    ((name .expression).bind fun t => (enclosed u).check (call t.2 f)).Reads s v rest ↔
      ∃ m pos next a, s = .token (.name m) pos next ∧ next.IsSound ∧
        (enclosed u).Reads next a rest ∧ result? f a = some v := by
  simp only [reads_bind, reads_check, reads_name, call_eq_ok]
  constructor
  · rintro ⟨⟨m, pos⟩, next, ⟨hs, hnext⟩, a, ha, h⟩
    exact ⟨m, pos, next, a, hs, hnext, ha, h⟩
  · rintro ⟨m, pos, next, a, hs, hnext, ha, h⟩
    exact ⟨(m, pos), next, ⟨hs, hnext⟩, a, ha, h⟩

theorem derivesPrimary_of_reads_variable {n : String} {pos : Position} {next : Stream}
    (h : ((name .expression).check fun t => scope.value n t.2).Reads (.token (.name n) pos next)
      v rest) : DerivesPrimary scope.environment depth (.token (.name n) pos next) v rest := by
  obtain ⟨m, pos', hs, -, symbol, hlookup, hv⟩ := reads_variable.1 h
  cases hs
  exact ⟨.name n, .cons _ _ (.nil _), Nat.zero_le _, by simp [Primary.value?, hlookup, hv]⟩

theorem derivesPrimary_of_reads_nameOrCall {n : String} {pos : Position} {next : Stream}
    (hu : ∀ {s v rest}, u.Reads s v rest → DerivesUnary scope.environment depth s v rest)
    (h : (nameOrCall scope u n).Reads (.token (.name n) pos next) v rest) :
    DerivesPrimary scope.environment depth (.token (.name n) pos next) v rest := by
  unfold nameOrCall at h
  cases hf : Function.ofName? n with
  | none =>
    simp only [Reads, hf] at h
    exact derivesPrimary_of_reads_variable h
  | some f =>
    by_cases hsecond : (Stream.token (.name n) pos next).second? = some (.mark .openParen)
    · simp only [Reads, hf, hsecond, if_pos] at h
      obtain ⟨m, pos', after, a, hs, -, ha, hv⟩ := reads_call.1 h
      cases hs
      obtain ⟨e, htokens, hnest, hval⟩ := begins_of_reads_enclosed hu ha
      refine ⟨.call f e, ?_, hnest, by simp [Primary.value?, hval, hv]⟩
      rw [Primary.tokens, Function.name_of_ofName? hf]
      exact .cons _ pos htokens
    · simp only [Reads, hf, hsecond, if_neg, not_false_eq_true] at h
      exact derivesPrimary_of_reads_variable h

theorem reads_literal : literal.Reads s v rest ↔
    ∃ (l : Literal) (pos : Position), s = .token l.token pos rest ∧ rest.IsSound ∧ v = l.value := by
  simp only [literal, reads_check, reads_accept]
  constructor
  · rintro ⟨⟨a, pos⟩, ⟨t, rfl, ht, hrest⟩, h⟩
    cases h
    cases t with
    | number x => cases ht; exact ⟨.number x, pos, rfl, hrest, rfl⟩
    | text x => cases ht; exact ⟨.text x, pos, rfl, hrest, rfl⟩
    | name x => cases ht
    | mark x => cases ht
  · rintro ⟨l, pos, rfl, hrest, rfl⟩
    cases l with
    | number x => exact ⟨(.scalar x, pos), ⟨_, rfl, rfl, hrest⟩, rfl⟩
    | text x => exact ⟨(.text x, pos), ⟨_, rfl, rfl, hrest⟩, rfl⟩

theorem derivesPrimary_of_reads_vector {env : Environment}
    (hu : ∀ {s v rest}, u.Reads s v rest → DerivesUnary env depth s v rest)
    (h : (vector u).Reads s v rest) : DerivesPrimary env depth s v rest := by
  obtain ⟨pos, next, rfl, -, h⟩ := reads_vector.1 h
  split at h
  · obtain ⟨rfl, pos', rfl, -⟩ := h
    exact ⟨.emptyVector, .cons _ pos (.cons _ pos' (.nil _)), Nat.zero_le _, rfl⟩
  · obtain ⟨xs, mid, pos', rfl, hrow, rfl, -⟩ := h
    obtain ⟨es, htokens, hnest, zs, hval, rfl⟩ := begins_of_entryRow hu hrow
    exact ⟨.vector es, .cons _ pos (htokens.append (.cons _ pos' (.nil _))), hnest,
      by simp [Primary.value?, hval]⟩

theorem derivesPrimary_of_reads
    (hu : ∀ {s v rest}, u.Reads s v rest → DerivesUnary scope.environment depth s v rest)
    (h : (primary scope u).Reads s v rest) : DerivesPrimary scope.environment depth s v rest := by
  unfold primary at h
  cases s with
  | finish pos => exact absurd (reads_literal.1 h) (by simp)
  | fault f => exact absurd (reads_literal.1 h) (by simp)
  | token t pos next =>
    cases t with
    | name n => exact derivesPrimary_of_reads_nameOrCall hu h
    | number x =>
      obtain ⟨l, pos', hs, -, rfl⟩ := reads_literal.1 h
      exact ⟨.literal l, hs ▸ .cons _ pos' (.nil _), Nat.zero_le _, rfl⟩
    | text x =>
      obtain ⟨l, pos', hs, -, rfl⟩ := reads_literal.1 h
      exact ⟨.literal l, hs ▸ .cons _ pos' (.nil _), Nat.zero_le _, rfl⟩
    | mark m =>
      by_cases hparen : m = .openParen
      · subst hparen
        obtain ⟨e, htokens, hnest, hval⟩ := begins_of_reads_enclosed hu h
        exact ⟨.parens e, htokens, hnest, hval⟩
      · by_cases hbracket : m = .openBracket
        · subst hbracket
          exact derivesPrimary_of_reads_vector hu h
        · have hl : literal.Reads (.token (.mark m) pos next) v rest := by
            cases m <;> first | exact h | contradiction
          obtain ⟨l, pos', hs, -⟩ := reads_literal.1 hl
          cases l <;> cases hs

theorem derivesUnary_of_reads (h : (unary scope depth).Reads s v rest) :
    DerivesUnary scope.environment depth s v rest := by
  induction depth generalizing s v rest with
  | zero =>
    obtain ⟨r, hr, -⟩ := h
    cases hr
  | succ depth ih =>
    unfold unary at h
    by_cases hminus : s.mark? = some .minus
    · simp only [Reads, hminus, if_pos] at h
      obtain ⟨pos, next, hmark, h⟩ := reads_bind.1 h
      obtain ⟨a, ha, hv⟩ := reads_check.1 h
      obtain ⟨rfl, -⟩ := reads_mark.1 hmark
      obtain ⟨t, htokens, hnest, hval⟩ := ih ha
      exact ⟨.negative t, .cons _ pos htokens, Nat.succ_le_succ hnest,
        by simp [Unary.value?, hval, negate_eq_ok.1 hv]⟩
    · simp only [Reads, hminus, if_neg, not_false_eq_true] at h
      obtain ⟨p, htokens, hnest, hval⟩ := derivesPrimary_of_reads ih h
      exact ⟨.primary p, htokens, Nat.succ_le_succ hnest, hval⟩

end Derivation

end BeamEnvelope.Glps
