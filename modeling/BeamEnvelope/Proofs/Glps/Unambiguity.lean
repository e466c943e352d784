import BeamEnvelope.Proofs.Glps.TwoPhases

/-!
# Each row of tokens has one derivation

A tree is determined by its tokens and what stands behind them, if that does not continue the tree.
Rows of operands, entries, parameters, items and statements are determined part by part, as each
part is followed by the first token of the next one or by what ends the row. So no two programs
have the same tokens.
-/

namespace BeamEnvelope.Glps.Grammar

variable {β γ : Type} {P : β → Prop} {Q : γ → Prop} {stops ends : List Token → Prop}

/-- The trees that meet `P` can be told from their tokens and where they end, if what is behind
them stops them. -/
def Determined (tokens : β → List Token) (P : β → Prop) (stops : List Token → Prop) : Prop :=
  ∀ ⦃b c : β⦄ ⦃r r' : List Token⦄, P b → tokens b ++ r = tokens c ++ r' → stops r → stops r' →
    b = c ∧ r = r'

/-- What is behind does not begin with one of the marks. -/
def Excludes (ms : List Mark) (r : List Token) : Prop := ∀ m ∈ ms, r.head? ≠ some (.mark m)

theorem excludes_cons {ms : List Mark} {m : Mark} {r : List Token} (h : m ∉ ms) :
    Excludes ms (.mark m :: r) := by
  rintro m' hm' heq
  cases heq
  exact h hm'

theorem Excludes.subset {ms ms' : List Mark} {r : List Token} (h : Excludes ms r)
    (hsub : ms' ⊆ ms) : Excludes ms' r := fun m hm => h m (hsub hm)

namespace Determined

variable {tokens : β → List Token} {tokens' : γ → List Token}

theorem weaken {P' : β → Prop} {stops' : List Token → Prop} (h : Determined tokens P stops)
    (hP : ∀ b, P' b → P b) (hstops : ∀ r, stops' r → stops r) : Determined tokens P' stops' :=
  fun _ _ _ _ hb heq hr hr' => h (hP _ hb) heq (hstops _ hr) (hstops _ hr')

/-- Trees that are made of determined ones. -/
theorem comap {f : γ → β} (h : Determined tokens P stops) (hf : Function.Injective f)
    (htokens : ∀ c, tokens' c = tokens (f c)) : Determined tokens' (fun c => P (f c)) stops := by
  intro b c r r' hb heq hr hr'
  rw [htokens, htokens] at heq
  obtain ⟨hbc, hrr⟩ := h hb heq hr hr'
  exact ⟨hf hbc, hrr⟩

/-- One tree behind another. -/
theorem append (h : Determined tokens P stops) (h' : Determined tokens' Q ends)
    (hstops : ∀ c r, ends r → stops (tokens' c ++ r)) :
    Determined (fun b : β × γ => tokens b.1 ++ tokens' b.2) (fun b => P b.1 ∧ Q b.2) ends := by
  rintro ⟨b, c⟩ ⟨b', c'⟩ r r' ⟨hb, hc⟩ heq hr hr'
  simp only [List.append_assoc] at heq
  obtain ⟨rfl, hbehind⟩ := h hb heq (hstops c r hr) (hstops c' r' hr')
  obtain ⟨rfl, hrr⟩ := h' hc hbehind hr hr'
  exact ⟨rfl, hrr⟩

/-- A row of trees, each of which starts with a token that ends the one in front of it. -/
theorem flatMap (h : Determined tokens P stops) (leads : Token → Prop)
    (hleads : ∀ b, ∃ t ts, tokens b = t :: ts ∧ leads t)
    (hstops : ∀ t r, leads t → stops (t :: r)) :
    Determined (List.flatMap tokens) (fun bs => ∀ b ∈ bs, P b)
      (fun r => stops r ∧ ∀ t, r.head? = some t → ¬ leads t) := by
  -- a row is followed by the start of its next tree, or by what is behind the row
  have hnext (bs : List β) (r : List Token) (hr : stops r) : stops (bs.flatMap tokens ++ r) := by
    cases bs with
    | nil => exact hr
    | cons b bs =>
      obtain ⟨t, ts, ht, hlead⟩ := hleads b
      rw [List.flatMap_cons, ht]
      exact hstops t _ hlead
  intro bs cs r r' hbs heq hr hr'
  induction bs generalizing cs with
  | nil =>
    cases cs with
    | nil => exact ⟨rfl, heq⟩
    | cons c cs =>
      obtain ⟨t, ts, ht, hlead⟩ := hleads c
      rw [List.flatMap_cons, ht] at heq
      exact absurd hlead (hr.2 t (congrArg List.head? heq))
  | cons b bs ih =>
    cases cs with
    | nil =>
      obtain ⟨t, ts, ht, hlead⟩ := hleads b
      rw [List.flatMap_cons, ht] at heq
      exact absurd hlead (hr'.2 t (congrArg List.head? heq).symm)
    | cons c cs =>
      simp only [List.flatMap_cons, List.append_assoc] at heq
      obtain ⟨rfl, hbehind⟩ := h (hbs b (by simp)) heq (hnext bs r hr.1) (hnext cs r' hr'.1)
      obtain ⟨rfl, hrr⟩ := ih (fun b hb => hbs b (by simp [hb])) hbehind
      exact ⟨rfl, hrr⟩

/-- Operands with operators between them, none of which belongs to an operand. -/
theorem chain {ω : Type} {mark : ω → Mark} {ms : List Mark} (h : Determined tokens P (Excludes ms))
    (hmark : Function.Injective mark) (hms : ∀ o, mark o ∉ ms) :
    Determined
      (fun c : β × List (ω × β) =>
        tokens c.1 ++ c.2.flatMap fun f => .mark (mark f.1) :: tokens f.2)
      (fun c => P c.1 ∧ ∀ f ∈ c.2, P f.2)
      (fun r => Excludes ms r ∧ ∀ t, r.head? = some t → ¬ ∃ o, t = .mark (mark o)) := by
  have hoperand : Determined (fun f : ω × β => .mark (mark f.1) :: tokens f.2) (fun f => P f.2)
      (Excludes ms) := by
    rintro ⟨o, b⟩ ⟨o', c⟩ r r' hb heq hr hr'
    simp only [List.cons_append, List.cons.injEq, Token.mark.injEq] at heq
    obtain ⟨rfl, hrr⟩ := h hb heq.2 hr hr'
    rw [hmark heq.1]
    exact ⟨rfl, hrr⟩
  have hrow := hoperand.flatMap (fun t => ∃ o, t = .mark (mark o))
    (fun f => ⟨_, _, rfl, f.1, rfl⟩) (by
      rintro _ r ⟨o, rfl⟩
      exact excludes_cons (hms o))
  refine h.append hrow fun fs r hr => ?_
  cases fs with
  | nil => exact hr.1
  | cons f fs => exact excludes_cons (hms f.1)

end Determined

theorem Additive.mark_injective : Function.Injective fun o : Additive => o.operator.mark := by
  rintro (_ | _) (_ | _) h <;> first | rfl | cases h

theorem Multiplicative.mark_injective :
    Function.Injective fun o : Multiplicative => o.operator.mark := by
  rintro (_ | _) (_ | _) h <;> first | rfl | cases h

/-- The first factor of a term, and the others with the operators in front of them. -/
def Term.factors : Term → Unary × List (Multiplicative × Unary)
  | .unary u => (u, [])
  | .product l op r => (l.factors.1, l.factors.2 ++ [(op, r)])

theorem Term.tokens_eq_factors : (t : Term) →
    t.tokens = t.factors.1.tokens ++
      t.factors.2.flatMap fun f => .mark f.1.operator.mark :: f.2.tokens
  | .unary u => by simp [Term.tokens, Term.factors]
  | .product l op r => by simp [Term.tokens, Term.factors, Term.tokens_eq_factors l]

theorem Term.eq_of_factors_eq : (t t' : Term) → t.factors = t'.factors → t = t'
  | .unary u, .unary u', h => congrArg (Term.unary ·.1) h
  | .unary u, .product l op r, h => by simp [Term.factors] at h
  | .product l op r, .unary u, h => by simp [Term.factors] at h
  | .product l op r, .product l' op' r', h => by
    obtain ⟨hfirst, hothers⟩ := Prod.mk.inj h
    obtain ⟨hinit, hlast⟩ := List.append_inj' hothers rfl
    obtain ⟨rfl, rfl⟩ := Prod.mk.inj (List.singleton_inj.1 hlast)
    rw [Term.eq_of_factors_eq l l' (Prod.ext hfirst hinit)]

theorem Term.nesting_factors : (t : Term) → (depth : Nat) → t.nesting ≤ depth →
    t.factors.1.nesting ≤ depth ∧ ∀ f ∈ t.factors.2, f.2.nesting ≤ depth
  | .unary u, depth, h => ⟨h, by simp [Term.factors]⟩
  | .product l op r, depth, h => by
    obtain ⟨hl, hr⟩ := Nat.max_le.1 h
    obtain ⟨hfirst, hothers⟩ := Term.nesting_factors l depth hl
    refine ⟨hfirst, fun f hf => ?_⟩
    rcases List.mem_append.1 hf with hf | hf
    · exact hothers f hf
    · rw [List.mem_singleton.1 hf]
      exact hr

/-- The first term of an expression, and the others with the operators in front of them. -/
def Expression.summands : Expression → Term × List (Additive × Term)
  | .term t => (t, [])
  | .sum l op r => (l.summands.1, l.summands.2 ++ [(op, r)])

theorem Expression.tokens_eq_summands : (e : Expression) →
    e.tokens = e.summands.1.tokens ++
      e.summands.2.flatMap fun s => .mark s.1.operator.mark :: s.2.tokens
  | .term t => by simp [Expression.tokens, Expression.summands]
  | .sum l op r => by
    simp [Expression.tokens, Expression.summands, Expression.tokens_eq_summands l]

theorem Expression.eq_of_summands_eq : (e e' : Expression) → e.summands = e'.summands → e = e'
  | .term t, .term t', h => congrArg (Expression.term ·.1) h
  | .term t, .sum l op r, h => by simp [Expression.summands] at h
  | .sum l op r, .term t, h => by simp [Expression.summands] at h
  | .sum l op r, .sum l' op' r', h => by
    obtain ⟨hfirst, hothers⟩ := Prod.mk.inj h
    obtain ⟨hinit, hlast⟩ := List.append_inj' hothers rfl
    obtain ⟨rfl, rfl⟩ := Prod.mk.inj (List.singleton_inj.1 hlast)
    rw [Expression.eq_of_summands_eq l l' (Prod.ext hfirst hinit)]

theorem Expression.nesting_summands : (e : Expression) → (depth : Nat) → e.nesting ≤ depth →
    e.summands.1.nesting ≤ depth ∧ ∀ s ∈ e.summands.2, s.2.nesting ≤ depth
  | .term t, depth, h => ⟨h, by simp [Expression.summands]⟩
  | .sum l op r, depth, h => by
    obtain ⟨hl, hr⟩ := Nat.max_le.1 h
    obtain ⟨hfirst, hothers⟩ := Expression.nesting_summands l depth hl
    refine ⟨hfirst, fun s hs => ?_⟩
    rcases List.mem_append.1 hs with hs | hs
    · exact hothers s hs
    · rw [List.mem_singleton.1 hs]
      exact hr

/-- The marks that go on with a unary expression, of which a name may become a call. -/
def callMarks : List Mark := [.openParen]

/-- The marks that go on with a term. -/
def termMarks : List Mark := [.openParen, .star, .slash]

/-- The marks that go on with an expression. -/
def expressionMarks : List Mark := [.openParen, .star, .slash, .plus, .minus]

section Expressions

variable {depth : Nat}
  (h : Determined Unary.tokens (·.nesting ≤ depth) (Excludes callMarks))
include h

theorem determined_term : Determined Term.tokens (·.nesting ≤ depth) (Excludes termMarks) := by
  have hchain := h.chain Multiplicative.mark_injective (by rintro (_ | _) <;> decide)
  refine (hchain.comap Term.eq_of_factors_eq Term.tokens_eq_factors).weaken
    (fun t ht => Term.nesting_factors t depth ht) fun r hr => ⟨hr.subset (by decide), ?_⟩
  rintro _ hhead ⟨o, rfl⟩
  exact hr _ (by cases o <;> decide) hhead

theorem determined_expression :
    Determined Expression.tokens (·.nesting ≤ depth) (Excludes expressionMarks) := by
  have hchain := (determined_term h).chain Additive.mark_injective (by rintro (_ | _) <;> decide)
  refine (hchain.comap Expression.eq_of_summands_eq Expression.tokens_eq_summands).weaken
    (fun e he => Expression.nesting_summands e depth he) fun r hr => ⟨hr.subset (by decide), ?_⟩
  rintro _ hhead ⟨o, rfl⟩
  exact hr _ (by cases o <;> decide) hhead

/-- An expression up to the mark that ends it. -/
theorem determined_enclosed {m : Mark} (hm : m ∉ expressionMarks) :
    Determined (fun e : Expression => e.tokens ++ [.mark m]) (·.nesting ≤ depth) fun _ => True := by
  intro e e' r r' he heq _ _
  simp only [List.append_assoc, List.singleton_append] at heq
  obtain ⟨rfl, hbehind⟩ := determined_expression h he heq (excludes_cons hm) (excludes_cons hm)
  exact ⟨rfl, (List.cons.inj hbehind).2⟩

theorem determined_entries : (es es' : Entries) → ∀ {r r' : List Token}, es.nesting ≤ depth →
    es.tokens ++ .mark .closeBracket :: r = es'.tokens ++ .mark .closeBracket :: r' →
      es = es' ∧ r = r'
  | .last e, .last e', r, r', he, heq => by
    obtain ⟨rfl, hbehind⟩ := determined_expression h he heq (excludes_cons (by decide))
      (excludes_cons (by decide))
    exact ⟨rfl, (List.cons.inj hbehind).2⟩
  | .last e, .cons e' es', r, r', he, heq => by
    simp only [Entries.tokens, List.append_assoc, List.cons_append] at heq
    obtain ⟨-, hbehind⟩ := determined_expression h he heq (excludes_cons (by decide))
      (excludes_cons (by decide))
    cases hbehind
  | .cons e es, .last e', r, r', he, heq => by
    simp only [Entries.tokens, List.append_assoc, List.cons_append] at heq
    obtain ⟨-, hbehind⟩ := determined_expression h (Nat.max_le.1 he).1 heq
      (excludes_cons (by decide)) (excludes_cons (by decide))
    cases hbehind
  | .cons e es, .cons e' es', r, r', he, heq => by
    simp only [Entries.tokens, List.append_assoc, List.cons_append] at heq
    obtain ⟨hen, hesn⟩ := Nat.max_le.1 he
    obtain ⟨rfl, hbehind⟩ := determined_expression h hen heq (excludes_cons (by decide))
      (excludes_cons (by decide))
    obtain ⟨rfl, hrr⟩ := determined_entries es es' hesn (List.cons.inj hbehind).2
    exact ⟨rfl, hrr⟩

theorem determined_primary :
    Determined Primary.tokens (·.nesting ≤ depth) (Excludes callMarks) := by
  intro p p' r r' hp heq hr hr'
  cases p with
  | literal l =>
    cases p' with
    | literal l' =>
      obtain ⟨htoken, hrr⟩ := List.cons.inj heq
      cases l <;> cases l' <;> cases htoken <;> exact ⟨rfl, hrr⟩
    | _ => cases l <;> cases heq
  | name n =>
    cases p' with
    | literal l => cases l <;> cases heq
    | name n' =>
      cases heq
      exact ⟨rfl, rfl⟩
    | call f e =>
      cases (List.cons.inj heq).2
      -- a call is a name with a parenthesis behind it, and none follows
      exact absurd rfl (hr .openParen (by decide))
    | _ => cases heq
  | call f e =>
    cases p' with
    | literal l => cases l <;> cases heq
    | name n =>
      cases (List.cons.inj heq).2
      exact absurd rfl (hr' .openParen (by decide))
    | call f' e' =>
      obtain ⟨hname, hargument⟩ := List.cons.inj heq
      have hf := Function.ofName?_name f
      rw [Token.name.inj hname, Function.ofName?_name] at hf
      obtain ⟨rfl, hrr⟩ := determined_enclosed h (m := .closeParen) (by decide) hp
        (List.cons.inj hargument).2 trivial trivial
      exact ⟨by rw [Option.some.inj hf], hrr⟩
    | _ => cases heq
  | parens e =>
    cases p' with
    | literal l => cases l <;> cases heq
    | parens e' =>
      obtain ⟨rfl, hrr⟩ := determined_enclosed h (m := .closeParen) (by decide) hp
        (List.cons.inj heq).2 trivial trivial
      exact ⟨rfl, hrr⟩
    | _ => cases heq
  | emptyVector =>
    cases p' with
    | literal l => cases l <;> cases heq
    | emptyVector =>
      cases heq
      exact ⟨rfl, rfl⟩
    | vector es =>
      -- no entry starts with the closing bracket
      obtain ⟨t, ts, ht, hne⟩ := Entries.tokens_eq_cons es
      simp only [Primary.tokens, ht, List.cons_append, List.cons.injEq] at heq
      exact absurd heq.2.1.symm hne
    | _ => cases heq
  | vector es =>
    cases p' with
    | literal l => cases l <;> cases heq
    | emptyVector =>
      obtain ⟨t, ts, ht, hne⟩ := Entries.tokens_eq_cons es
      simp only [Primary.tokens, ht, List.cons_append, List.cons.injEq] at heq
      exact absurd heq.2.1 hne
    | vector es' =>
      simp only [Primary.tokens, List.cons_append, List.append_assoc, List.cons.injEq,
        true_and] at heq
      obtain ⟨rfl, hrr⟩ := determined_entries h es es' hp heq
      exact ⟨rfl, hrr⟩
    | _ => cases heq

end Expressions

theorem determined_unary (depth : Nat) :
    Determined Unary.tokens (·.nesting ≤ depth) (Excludes callMarks) := by
  induction depth with
  | zero =>
    intro u u' r r' hu
    cases u <;> exact absurd hu (Nat.not_succ_le_zero _)
  | succ depth ih =>
    intro u u' r r' hu heq hr hr'
    -- no primary begins with the sign that makes an expression negative
    have hminus (p : Primary) (ts ts' : List Token) : p.tokens ++ ts ≠ .mark .minus :: ts' := by
      obtain ⟨t, more, ht, -, hne⟩ := Primary.tokens_eq_cons p
      rw [ht]
      exact fun h => hne (List.cons.inj h).1
    cases u with
    | negative u =>
      cases u' with
      | negative u' =>
        obtain ⟨rfl, hrr⟩ := ih (Nat.le_of_succ_le_succ hu) (List.cons.inj heq).2 hr hr'
        exact ⟨rfl, hrr⟩
      | primary p => exact absurd heq.symm (hminus p _ _)
    | primary p =>
      cases u' with
      | negative u => exact absurd heq (hminus p _ _)
      | primary p' =>
        obtain ⟨rfl, hrr⟩ := determined_primary ih (Nat.le_of_succ_le_succ hu) heq hr hr'
        exact ⟨rfl, hrr⟩

theorem determined_item :
    Determined Item.tokens (fun _ => True) (Excludes [.openParen, .star]) := by
  have hunary (u u' : Unary) {r r' : List Token} (heq : u.tokens ++ r = u'.tokens ++ r')
      (hr : Excludes callMarks r) (hr' : Excludes callMarks r') : u = u' ∧ r = r' :=
    determined_unary u.nesting (Nat.le_refl _) heq hr hr'
  have hstar (n : String) (r : List Token) : Excludes callMarks (.mark .star :: .name n :: r) :=
    excludes_cons (by decide)
  intro i i' r r' _ heq hr hr'
  have hcall : Excludes callMarks r := hr.subset (by decide)
  have hcall' : Excludes callMarks r' := hr'.subset (by decide)
  cases i with
  | once n =>
    cases i' with
    | once n' =>
      cases heq
      exact ⟨rfl, rfl⟩
    | repeated u n' =>
      simp only [Item.tokens, List.append_assoc, List.cons_append, List.nil_append] at heq
      obtain ⟨-, rfl⟩ := hunary (.primary (.name n)) u heq hcall (hstar _ _)
      exact absurd rfl (hr .star (by decide))
  | repeated u n =>
    simp only [Item.tokens, List.append_assoc, List.cons_append, List.nil_append] at heq
    cases i' with
    | once n' =>
      obtain ⟨-, rfl⟩ := hunary u (.primary (.name n')) heq (hstar _ _) hcall'
      exact absurd rfl (hr' .star (by decide))
    | repeated u' n' =>
      simp only [List.append_assoc, List.cons_append, List.nil_append] at heq
      obtain ⟨rfl, hbehind⟩ := hunary u u' heq (hstar _ _) (hstar _ _)
      cases hbehind
      exact ⟨rfl, rfl⟩

theorem determined_parameter :
    Determined parameterTokens (fun _ => True) (Excludes expressionMarks) := by
  rintro ⟨n, e⟩ ⟨n', e'⟩ r r' _ heq hr hr'
  simp only [parameterTokens, List.cons_append, List.cons.injEq, Token.name.injEq, true_and] at heq
  obtain ⟨rfl, heq⟩ := heq
  obtain ⟨rfl, hrr⟩ := determined_expression (determined_unary e.nesting) (Nat.le_refl _) heq hr hr'
  exact ⟨rfl, hrr⟩

/-- Rows whose parts start with a comma, up to another mark. -/
theorem determined_commas {tokens : β → List Token} {ms : List Mark} {m : Mark}
    (h : Determined tokens (fun _ => True) (Excludes ms))
    (hcomma : ∀ b, ∃ ts, tokens b = .mark .comma :: ts) (hms : .comma ∉ ms) (hm : m ∉ ms)
    (hne : m ≠ .comma) {bs cs : List β} {r r' : List Token}
    (heq : bs.flatMap tokens ++ .mark m :: r = cs.flatMap tokens ++ .mark m :: r') :
    bs = cs ∧ r = r' := by
  have hrow := h.flatMap (· = .mark .comma)
    (fun b => (hcomma b).elim fun ts hts => ⟨_, ts, hts, rfl⟩) (by
      rintro _ r rfl
      exact excludes_cons hms)
  have hstop (r : List Token) : Excludes ms (.mark m :: r) ∧
      ∀ t, (Token.mark m :: r).head? = some t → ¬ t = .mark .comma := by
    refine ⟨excludes_cons hm, ?_⟩
    rintro t ht rfl
    exact hne (Token.mark.inj (Option.some.inj ht))
  obtain ⟨rfl, hbehind⟩ := hrow (by simp) heq (hstop r) (hstop r')
  exact ⟨rfl, (List.cons.inj hbehind).2⟩

theorem determined_statement : Determined Statement.tokens (fun _ => True) fun _ => True := by
  intro st st' r r' _ heq _ _
  cases st with
  | value n e =>
    cases st' with
    | value n' e' =>
      simp only [Statement.tokens, List.cons_append, List.cons.injEq, Token.name.injEq,
        true_and] at heq
      obtain ⟨rfl, heq⟩ := heq
      obtain ⟨rfl, hrr⟩ := determined_enclosed (determined_unary e.nesting) (m := .semicolon)
        (by decide) (Nat.le_refl _) heq trivial trivial
      exact ⟨rfl, hrr⟩
    | element n' kind params => cases (List.cons.inj heq).2
    | line n' keyword hline first others => cases (List.cons.inj heq).2
  | element n kind params =>
    cases st' with
    | value n' e' => cases (List.cons.inj heq).2
    | element n' kind' params' =>
      simp only [Statement.tokens, List.cons_append, List.append_assoc, List.nil_append,
        List.cons.injEq, Token.name.injEq, true_and] at heq
      obtain ⟨rfl, rfl, heq⟩ := heq
      obtain ⟨rfl, hrr⟩ := determined_commas determined_parameter (fun _ => ⟨_, rfl⟩) (by decide)
        (by decide) (by decide) heq
      exact ⟨rfl, hrr⟩
    | line n' keyword hline first others =>
      simp only [Statement.tokens, List.cons_append, List.append_assoc, List.nil_append,
        List.cons.injEq, Token.name.injEq, true_and] at heq
      cases params <;> cases heq.2.2
  | line n keyword hline first others =>
    cases st' with
    | value n' e' => cases (List.cons.inj heq).2
    | element n' kind params =>
      simp only [Statement.tokens, List.cons_append, List.append_assoc, List.nil_append,
        List.cons.injEq, Token.name.injEq, true_and] at heq
      cases params <;> cases heq.2.2
    | line n' keyword' hline' first' others' =>
      simp only [Statement.tokens, List.cons_append, List.append_assoc, List.nil_append,
        List.cons.injEq, Token.name.injEq, true_and] at heq
      obtain ⟨rfl, rfl, heq⟩ := heq
      have hitems (others : List Item) (r : List Token) : Excludes [.openParen, .star]
          (others.flatMap otherItemTokens ++ .mark .closeParen :: .mark .semicolon :: r) := by
        cases others <;> exact excludes_cons (by decide)
      have hother : Determined otherItemTokens (fun _ => True) (Excludes [.openParen, .star]) := by
        intro i i' r r' _ heq hr hr'
        exact determined_item trivial (List.cons.inj heq).2 hr hr'
      obtain ⟨rfl, hbehind⟩ := determined_item trivial heq (hitems _ _) (hitems _ _)
      obtain ⟨rfl, hrr⟩ := determined_commas hother (fun _ => ⟨_, rfl⟩) (by decide) (by decide)
        (by decide) hbehind
      exact ⟨rfl, (List.cons.inj hrr).2⟩

/-- No two programs have the same tokens. -/
theorem Program.eq_of_tokens_eq {p p' : Program} (h : p.tokens = p'.tokens) : p = p' := by
  have hrow := determined_statement.flatMap (fun _ => True)
    (fun st => (Statement.tokens_eq_cons st).elim fun t h => h.elim fun ts h => ⟨t, ts, h, trivial⟩)
    fun _ _ _ => trivial
  have htokens : p.flatMap Statement.tokens ++ [] = p'.flatMap Statement.tokens ++ [] := by
    simpa [Program.tokens] using h
  exact (hrow (by simp) htokens ⟨trivial, by simp⟩ ⟨trivial, by simp⟩).1

end BeamEnvelope.Glps.Grammar
