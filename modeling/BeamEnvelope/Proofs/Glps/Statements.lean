import BeamEnvelope.Proofs.Glps.Lines

/-!
# Statements are read as they are derived and evaluated

A statement is read when its tokens are ahead and its name and its parts allow the definition it
makes. What it leaves behind is the environment extended by that definition.
-/

namespace BeamEnvelope.Glps

open Grammar SourceReader Reader

variable {scope next : Scope} {s rest : Stream} {n kind : String} {pos : Position}

theorem reads_parameter {d e : Dictionary Value} : (parameter scope d).Reads s e rest ↔
    ∃ key pos pos' mid v, s = .token (.name key) pos (.token (.mark .equals) pos' mid) ∧
      mid.IsSound ∧ (expression scope).Reads mid v rest ∧ d.get? key = none ∧
      e = d.insert key v := by
  simp only [parameter, reads_bind, reads_check, reads_name, reads_mark]
  constructor
  · rintro ⟨⟨key, pos⟩, _, ⟨rfl, -⟩, pos', mid, ⟨rfl, hmid⟩, v, hv, h⟩
    split at h
    · cases h
    · rename_i hnew
      cases h
      have hnone := Dictionary.contains_eq_false.1 (by simpa using hnew)
      exact ⟨key, pos, pos', mid, v, rfl, hmid, hv, hnone, rfl⟩
  · rintro ⟨key, pos, pos', mid, v, rfl, hmid, hv, hnone, rfl⟩
    refine ⟨(key, pos), _, ⟨rfl, trivial⟩, pos', mid, ⟨rfl, hmid⟩, v, hv, ?_⟩
    rw [if_neg (by simp [Dictionary.contains_eq_false.2 hnone])]

theorem reads_parameters {d e : Dictionary Value} : (parameters scope d).Reads s e rest ↔
    (∃ pos next mid d', s = .token (.mark .comma) pos next ∧ next.IsSound ∧
      (parameter scope d).Reads next d' mid ∧ (parameters scope d').Reads mid e rest) ∨
    (∃ pos, s = .token (.mark .semicolon) pos rest ∧ rest.IsSound ∧ e = d) := by
  by_cases hcomma : s.mark? = some .comma
  · obtain ⟨pos, next, rfl⟩ := Stream.mark?_eq_some.1 hcomma
    constructor
    · rintro ⟨r, hr, rfl, rfl⟩
      rw [parameters, if_pos hcomma] at hr
      obtain ⟨comma, hc, hr⟩ := bind_eq_ok.1 hr
      obtain ⟨one, ho, hr⟩ := bind_eq_ok.1 hr
      obtain ⟨more, hm, hr⟩ := bind_eq_ok.1 hr
      cases hr
      obtain ⟨hs, hsound⟩ := reads_mark.1 (reads_of_eq hc)
      exact .inl ⟨_, _, _, _, hs, hsound, reads_of_eq ho, reads_of_eq hm⟩
    · rintro (⟨pos', next', mid, d', hs, hnext, hone, hmore⟩ | ⟨pos', hs, -⟩)
      · have hread : (SourceReader.mark .comma .parameterEnd).Reads _ pos' next' :=
          reads_mark.2 ⟨hs, hnext⟩
        obtain ⟨comma, hc, -, rfl⟩ := hread
        obtain ⟨one, ho, rfl, rfl⟩ := hone
        obtain ⟨more, hm, rfl, rfl⟩ := hmore
        refine ⟨⟨more.value, more.rest, Nat.lt_trans more.shorter
          (Nat.lt_trans one.shorter comma.shorter)⟩, ?_, rfl, rfl⟩
        rw [parameters, if_pos hcomma, bind_of_eq_ok hc, bind_of_eq_ok ho, bind_of_eq_ok hm]
        rfl
      · cases hs
  · have hread : (parameters scope d).Reads s e rest ↔
        ((mark .semicolon .parameterEnd).check fun _ => .ok d).Reads s e rest := by
      unfold Reads
      rw [parameters, if_neg hcomma]
    rw [hread, reads_check]
    simp only [reads_mark]
    constructor
    · rintro ⟨pos, ⟨hs, hrest⟩, h⟩
      cases h
      exact .inr ⟨pos, hs, hrest, rfl⟩
    · rintro (⟨pos, next, mid, d', rfl, -⟩ | ⟨pos, hs, hrest, rfl⟩)
      · exact absurd rfl hcomma
      · exact ⟨pos, ⟨hs, hrest⟩, rfl⟩

theorem begins_of_reads_parameters {d e : Dictionary Value}
    (h : (parameters scope d).Reads s e rest) : ∃ params : List (String × Expression),
      s.Begins (params.flatMap parameterTokens ++ [.mark .semicolon]) rest ∧
      (∀ p ∈ params, p.2.nesting ≤ maxNesting) ∧ (params.map (·.1)).Nodup ∧
      (∀ p ∈ params, d.get? p.1 = none) ∧
      ∃ values, params.mapM (parameterValue? scope.environment) = some values ∧
        e = values.foldl (fun d entry => d.insert entry.1 entry.2) d := by
  induction hn : s.length using Nat.strongRecOn generalizing s d with
  | ind size ih =>
    rcases reads_parameters.1 h with ⟨pos, next, mid, d', rfl, -, hone, hmore⟩ | ⟨pos, rfl, -, rfl⟩
    · have hlt : mid.length < (Stream.token (.mark .comma) pos next).length :=
        Nat.lt_trans hone.size_lt (Nat.lt_succ_self _)
      obtain ⟨key, pos₁, pos₂, after, v, rfl, -, hv, hnone, rfl⟩ := reads_parameter.1 hone
      obtain ⟨ex, htokens, hnest, hval⟩ := derivesExpression_of_reads derivesUnary_of_reads hv
      obtain ⟨params, hparams, hnests, hnodup, hnew, values, hvalues, rfl⟩ :=
        ih _ (hn ▸ hlt) hmore rfl
      have hfresh (p : String × Expression) (hp : p ∈ params) : p.1 ≠ key ∧ d.get? p.1 = none := by
        have hget := hnew p hp
        rw [Dictionary.get?_insert] at hget
        split at hget
        · cases hget
        · rename_i hne
          exact ⟨hne, hget⟩
      refine ⟨(key, ex) :: params, ?_, ?_, ?_, ?_, (key, v) :: values, ?_, rfl⟩
      · rw [List.flatMap_cons, List.append_assoc]
        exact .append (.cons _ pos (.cons _ pos₁ (.cons _ pos₂ htokens))) hparams
      · exact fun p hp => (List.mem_cons.1 hp).elim (fun h => h ▸ hnest) (hnests p)
      · refine List.nodup_cons.2 ⟨fun hmem => ?_, hnodup⟩
        obtain ⟨p, hp, heq⟩ := List.mem_map.1 hmem
        exact (hfresh p hp).1 heq
      · exact fun p hp => (List.mem_cons.1 hp).elim (fun h => h ▸ hnone) fun hp => (hfresh p hp).2
      · rw [List.mapM_cons, hvalues]
        simp [parameterValue?, hval]
    · exact ⟨[], .cons _ pos (.nil _), by simp, by simp, by simp, [], rfl, rfl⟩

theorem reads_parameters_of_begins {params : List (String × Expression)} {d : Dictionary Value}
    {values : List (String × Value)}
    (hs : s.Begins (params.flatMap parameterTokens ++ [.mark .semicolon]) rest)
    (hnest : ∀ p ∈ params, p.2.nesting ≤ maxNesting) (hnodup : (params.map (·.1)).Nodup)
    (hnew : ∀ p ∈ params, d.get? p.1 = none)
    (hvalues : params.mapM (parameterValue? scope.environment) = some values)
    (hrest : rest.IsSound) : (parameters scope d).Reads s
      (values.foldl (fun d entry => d.insert entry.1 entry.2) d) rest := by
  induction params generalizing s d values with
  | nil =>
    cases hvalues
    obtain ⟨pos, _, rfl, hnil⟩ := Stream.begins_cons.1 hs
    obtain rfl := Stream.begins_nil.1 hnil
    exact reads_parameters.2 (.inr ⟨pos, rfl, hrest, rfl⟩)
  | cons p params ih =>
    obtain ⟨key, ex⟩ := p
    simp only [List.mapM_cons, parameterValue?, Option.bind_eq_bind, Option.bind_eq_some_iff]
      at hvalues
    obtain ⟨_, ⟨v, hv, hpair⟩, others, hothers, hcons⟩ := hvalues
    obtain rfl := Option.some.inj hpair
    obtain rfl := Option.some.inj hcons
    obtain ⟨hkey, hnodup⟩ := List.nodup_cons.1 hnodup
    rw [List.flatMap_cons, List.append_assoc] at hs
    obtain ⟨mid, hone, hmore⟩ := Stream.begins_append.1 hs
    obtain ⟨pos, _, rfl, h₁⟩ := Stream.begins_cons.1 hone
    obtain ⟨pos₁, _, rfl, h₂⟩ := Stream.begins_cons.1 h₁
    obtain ⟨pos₂, next, rfl, hex⟩ := Stream.begins_cons.1 h₂
    -- behind the value stands the next comma, or the semicolon
    have hmid : mid.EndsExpression := by
      cases params with
      | nil =>
        obtain ⟨pos', after, rfl, -⟩ := Stream.begins_cons.1 hmore
        exact Stream.endsExpression_mark (by decide) pos' after
      | cons q params =>
        obtain ⟨pos', after, rfl, -⟩ := Stream.begins_cons.1 hmore
        exact Stream.endsExpression_mark (by decide) pos' after
    have hread : (expression scope).Reads next v mid :=
      reads_expression (readsUnary_unary scope maxNesting) hex (hnest _ (by simp)) hv hmid
    have hparameter : (parameter scope d).Reads
        (.token (.name key) pos₁ (.token (.mark .equals) pos₂ next)) (d.insert key v) mid :=
      reads_parameter.2 ⟨key, pos₁, pos₂, next, v, rfl, hex.isSound hmid.sound, hread,
        hnew (key, ex) (by simp), rfl⟩
    have hothersNew (q : String × Expression) (hq : q ∈ params) :
        (d.insert key v).get? q.1 = none := by
      have hne : q.1 ≠ key := fun h => hkey (List.mem_map.2 ⟨q, hq, h⟩)
      rw [Dictionary.get?_insert, if_neg hne]
      exact hnew q (List.mem_cons_of_mem _ hq)
    have hparameters := ih hmore (fun q hq => hnest q (List.mem_cons_of_mem _ hq)) hnodup
      hothersNew hothers
    exact reads_parameters.2 (.inl ⟨pos, _, mid, _, rfl, trivial, hparameter, hparameters⟩)

theorem isLineKeyword_iff : isLineKeyword kind = true ↔ kind.toLower = "line" := by
  simp [isLineKeyword, String.toLower]

/-- The statement whose tokens lead from `s` to `rest`, and the definition it adds to a scope. -/
def DerivesStatement (scope : Scope) (s : Stream) (next : Scope) (rest : Stream) : Prop :=
  ∃ st : Statement, s.Begins st.tokens rest ∧ st.NestsWithin maxNesting ∧
    st.extend? scope.environment = some next.environment

theorem extend?_of_define {st : Statement} {symbol : Symbol}
    (hsymbol : st.symbol? scope.environment = some symbol)
    (h : scope.define st.name symbol pos = .ok next) :
    st.extend? scope.environment = some next.environment := by
  obtain ⟨hnone, hnext⟩ := Scope.define_eq_ok.1 h
  simp [Statement.extend?, hsymbol, hnone, hnext]

theorem derivesStatement_of_reads_valueDefinition
    (h : (valueDefinition scope n pos).Reads s next rest) :
    DerivesStatement scope (.token (.name n) pos s) next rest := by
  simp only [valueDefinition, reads_bind, reads_check, reads_mark] at h
  obtain ⟨pos₁, mid, ⟨rfl, -⟩, v, after, hv, pos₂, ⟨rfl, -⟩, hdefine⟩ := h
  obtain ⟨e, htokens, hnest, hval⟩ := derivesExpression_of_reads derivesUnary_of_reads hv
  refine ⟨.value n e, .cons _ pos (.cons _ pos₁ (htokens.append (.cons _ pos₂ (.nil _)))), hnest, ?_⟩
  exact extend?_of_define (by simp [Statement.symbol?, hval]) hdefine

theorem derivesStatement_of_reads_elementDefinition {pos₁ pos₂ : Position}
    (h : (elementDefinition scope n pos kind).Reads s next rest) :
    DerivesStatement scope
      (.token (.name n) pos (.token (.mark .colon) pos₁ (.token (.name kind) pos₂ s))) next rest := by
  obtain ⟨d, hd, hdefine⟩ := reads_check.1 h
  obtain ⟨params, htokens, hnest, hnodup, -, values, hvalues, rfl⟩ :=
    begins_of_reads_parameters hd
  refine ⟨.element n kind params, .cons _ pos (.cons _ pos₁ (.cons _ pos₂ htokens)), hnest, ?_⟩
  exact extend?_of_define (by simp [Statement.symbol?, hvalues, hnodup, Dictionary.ofList]) hdefine

theorem derivesStatement_of_reads_lineDefinition {pos₁ pos₂ : Position}
    (hline : isLineKeyword kind = true) (h : (lineDefinition scope n pos).Reads s next rest) :
    DerivesStatement scope
      (.token (.name n) pos (.token (.mark .colon) pos₁ (.token (.name kind) pos₂ s))) next rest := by
  simp only [lineDefinition, reads_bind, reads_check, reads_mark] at h
  obtain ⟨pos₃, mid, ⟨rfl, -⟩, pos₄, items, ⟨rfl, -⟩, built, close, hrow, pos₅, semi, ⟨rfl, -⟩,
    pos₆, ⟨rfl, -⟩, hdefine⟩ := h
  obtain ⟨first, others, htokens, hnest, parts, hparts, hbuilt, hfits⟩ :=
    begins_of_itemRow (reads_separated.1 hrow)
  rw [List.nil_append] at hbuilt
  subst hbuilt
  refine ⟨.line n kind (isLineKeyword_iff.1 hline) first others, ?_, hnest, ?_⟩
  · exact .cons _ pos (.cons _ pos₁ (.cons _ pos₂ (.cons _ pos₃ (.cons _ pos₄
      (htokens.append (.cons _ pos₅ (.cons _ pos₆ (.nil _))))))))
  · refine extend?_of_define ?_ hdefine
    simp only [Statement.symbol?, hparts, Option.bind_eq_bind, Option.bind_some, if_pos hfits]
    rfl

theorem derivesStatement_of_reads (h : (statement scope).Reads s next rest) :
    DerivesStatement scope s next rest := by
  obtain ⟨⟨n, pos⟩, mid, hname, hdefinition⟩ := reads_bind.1 h
  obtain ⟨rfl, -⟩ := reads_name.1 hname
  obtain ⟨r, hr, hval, hrest⟩ := hdefinition
  rw [← hval, ← hrest]
  dsimp only at hr
  split at hr
  · exact derivesStatement_of_reads_valueDefinition (reads_of_eq hr)
  · obtain ⟨pos₁, after, hcolon, hcomponent⟩ := reads_bind.1 (reads_of_eq hr)
    obtain ⟨⟨kind, pos₂⟩, behind, hkind, hbody⟩ := reads_bind.1 hcomponent
    obtain ⟨rfl, -⟩ := reads_mark.1 hcolon
    obtain ⟨rfl, -⟩ := reads_name.1 hkind
    obtain ⟨q, hq, hval', hrest'⟩ := hbody
    rw [← hval', ← hrest']
    dsimp only at hq
    split at hq
    · rename_i hline
      obtain ⟨hkeyword, -⟩ := Bool.and_eq_true_iff.1 hline
      exact derivesStatement_of_reads_lineDefinition hkeyword (reads_of_eq hq)
    · exact derivesStatement_of_reads_elementDefinition (reads_of_eq hq)
  · cases hr

theorem define_of_extend? {st : Statement} {env : Environment} (pos : Position)
    (h : st.extend? scope.environment = some env) : ∃ symbol next,
      st.symbol? scope.environment = some symbol ∧ scope.define st.name symbol pos = .ok next ∧
        next.environment = env := by
  simp only [Statement.extend?, Option.bind_eq_bind, Option.bind_eq_some_iff] at h
  obtain ⟨symbol, hsymbol, h⟩ := h
  split at h
  · cases h
  · rename_i hnew
    cases h
    have hdefined : ∃ next, scope.define st.name symbol pos = .ok next ∧
        next.environment = scope.environment ++ [(st.name, symbol)] :=
      Scope.define_of_lookup_eq_none (Option.not_isSome_iff_eq_none.1 hnew)
    obtain ⟨next, hdefine, hnext⟩ := hdefined
    exact ⟨symbol, next, hsymbol, hdefine, hnext⟩

theorem reads_valueDefinition {e : Expression} {symbol : Symbol}
    (hs : s.Begins (.mark .equals :: (e.tokens ++ [.mark .semicolon])) rest)
    (hnest : e.nesting ≤ maxNesting)
    (hsymbol : (Statement.value n e).symbol? scope.environment = some symbol)
    (hdefine : scope.define n symbol pos = .ok next) (hrest : rest.IsSound) :
    (valueDefinition scope n pos).Reads s next rest := by
  obtain ⟨v, hv, hvalue⟩ := Option.bind_eq_some_iff.1 hsymbol
  obtain rfl := Option.some.inj hvalue
  obtain ⟨pos₁, mid, rfl, hmid⟩ := Stream.begins_cons.1 hs
  obtain ⟨after, he, hafter⟩ := Stream.begins_append.1 hmid
  obtain ⟨pos₂, behind, rfl, hnil⟩ := Stream.begins_cons.1 hafter
  obtain rfl := Stream.begins_nil.1 hnil
  have hsemi := Stream.endsExpression_mark (m := .semicolon) (by decide) pos₂ behind
  have hread : (expression scope).Reads mid v (.token (.mark .semicolon) pos₂ behind) :=
    reads_expression (readsUnary_unary scope maxNesting) he hnest hv hsemi
  simp only [valueDefinition, reads_bind, reads_check, reads_mark]
  exact ⟨pos₁, mid, ⟨rfl, he.isSound hsemi.sound⟩, v, _, hread, pos₂, ⟨rfl, hrest⟩, hdefine⟩

theorem reads_elementDefinition {params : List (String × Expression)} {symbol : Symbol}
    (hs : s.Begins (params.flatMap parameterTokens ++ [.mark .semicolon]) rest)
    (hnest : ∀ p ∈ params, p.2.nesting ≤ maxNesting)
    (hsymbol : (Statement.element n kind params).symbol? scope.environment = some symbol)
    (hdefine : scope.define n symbol pos = .ok next) (hrest : rest.IsSound) :
    (elementDefinition scope n pos kind).Reads s next rest := by
  obtain ⟨values, hvalues, h⟩ := Option.bind_eq_some_iff.1 hsymbol
  split at h
  · rename_i hnodup
    obtain rfl := Option.some.inj h
    exact reads_check.2 ⟨_, reads_parameters_of_begins hs hnest hnodup (by simp) hvalues hrest,
      hdefine⟩
  · cases h

theorem reads_lineDefinition {hline : kind.toLower = "line"} {first : Item} {others : List Item}
    {symbol : Symbol}
    (hs : s.Begins (.mark .equals :: .mark .openParen :: (first.tokens ++
      others.flatMap otherItemTokens ++ [.mark .closeParen, .mark .semicolon])) rest)
    (hnest : ∀ i ∈ first :: others, i.NestsWithin maxNesting)
    (hsymbol : (Statement.line n kind hline first others).symbol? scope.environment = some symbol)
    (hdefine : scope.define n symbol pos = .ok next) (hrest : rest.IsSound) :
    (lineDefinition scope n pos).Reads s next rest := by
  obtain ⟨parts, hparts, h⟩ := Option.bind_eq_some_iff.1 hsymbol
  split at h
  · rename_i hfits
    obtain rfl := Option.some.inj h
    obtain ⟨pos₁, _, rfl, h₁⟩ := Stream.begins_cons.1 hs
    obtain ⟨pos₂, items, rfl, hitems⟩ := Stream.begins_cons.1 h₁
    obtain ⟨close, hrow, hclose⟩ := Stream.begins_append.1 hitems
    obtain ⟨pos₃, _, rfl, h₃⟩ := Stream.begins_cons.1 hclose
    obtain ⟨pos₄, _, rfl, h₄⟩ := Stream.begins_cons.1 h₃
    obtain rfl := Stream.begins_nil.1 h₄
    have hread : ItemRow scope [] items ([] ++ parts.flatten) _ :=
      itemRow_of_begins hrow hnest hparts hfits rfl
    rw [List.nil_append] at hread
    simp only [lineDefinition, reads_bind, reads_check, reads_mark]
    exact ⟨pos₁, _, ⟨rfl, trivial⟩, pos₂, items, ⟨rfl, hrow.isSound trivial⟩, _, _,
      reads_separated.2 hread, pos₃, _, ⟨rfl, trivial⟩, pos₄, ⟨rfl, hrest⟩, hdefine⟩
  · cases h

theorem reads_statement {st : Statement} {env : Environment} (hs : s.Begins st.tokens rest)
    (hnest : st.NestsWithin maxNesting) (henv : st.extend? scope.environment = some env)
    (hrest : rest.IsSound) :
    ∃ next, (statement scope).Reads s next rest ∧ next.environment = env := by
  cases st with
  | value n e =>
    obtain ⟨pos, mid, rfl, hmid⟩ := Stream.begins_cons.1 hs
    obtain ⟨symbol, next, hsymbol, hdefine, hnext⟩ := define_of_extend? pos henv
    have hread := reads_valueDefinition hmid hnest hsymbol hdefine hrest
    obtain ⟨pos₁, after, rfl, -⟩ := Stream.begins_cons.1 hmid
    exact ⟨next, reads_bind.2 ⟨(n, pos), _, reads_name.2 ⟨rfl, trivial⟩, hread⟩, hnext⟩
  | element n kind params =>
    obtain ⟨pos, _, rfl, h₁⟩ := Stream.begins_cons.1 hs
    obtain ⟨pos₁, _, rfl, h₂⟩ := Stream.begins_cons.1 h₁
    obtain ⟨pos₂, mid, rfl, hmid⟩ := Stream.begins_cons.1 h₂
    obtain ⟨symbol, next, hsymbol, hdefine, hnext⟩ := define_of_extend? pos henv
    have hread := reads_elementDefinition hmid hnest hsymbol hdefine hrest
    have hequals : mid.mark? ≠ some .equals := by
      cases params with
      | nil => exact hmid.mark?_ne (by decide)
      | cons p params => exact hmid.mark?_ne (by decide)
    have hbody : (componentDefinition scope n pos).Reads
        (.token (.mark .colon) pos₁ (.token (.name kind) pos₂ mid)) next rest := by
      refine reads_bind.2 ⟨pos₁, _, reads_mark.2 ⟨rfl, trivial⟩, reads_bind.2 ⟨(kind, pos₂), mid,
        reads_name.2 ⟨rfl, hmid.isSound hrest⟩, ?_⟩⟩
      simpa [Reads, hequals] using hread
    exact ⟨next, reads_bind.2 ⟨(n, pos), _, reads_name.2 ⟨rfl, trivial⟩, hbody⟩, hnext⟩
  | line n keyword isLine first others =>
    obtain ⟨pos, _, rfl, h₁⟩ := Stream.begins_cons.1 hs
    obtain ⟨pos₁, _, rfl, h₂⟩ := Stream.begins_cons.1 h₁
    obtain ⟨pos₂, mid, rfl, hmid⟩ := Stream.begins_cons.1 h₂
    obtain ⟨symbol, next, hsymbol, hdefine, hnext⟩ := define_of_extend? pos henv
    have hread := reads_lineDefinition hmid hnest hsymbol hdefine hrest
    have hkeyword := isLineKeyword_iff.2 isLine
    obtain ⟨pos₃, after, rfl, -⟩ := Stream.begins_cons.1 hmid
    have hbody : (componentDefinition scope n pos).Reads
        (.token (.mark .colon) pos₁
          (.token (.name keyword) pos₂ (.token (.mark .equals) pos₃ after))) next rest := by
      refine reads_bind.2 ⟨pos₁, _, reads_mark.2 ⟨rfl, trivial⟩, reads_bind.2 ⟨(keyword, pos₂), _,
        reads_name.2 ⟨rfl, trivial⟩, ?_⟩⟩
      simpa [Reads, hkeyword, Token.mark?] using hread
    exact ⟨next, reads_bind.2 ⟨(n, pos), _, reads_name.2 ⟨rfl, trivial⟩, hbody⟩, hnext⟩

end BeamEnvelope.Glps
