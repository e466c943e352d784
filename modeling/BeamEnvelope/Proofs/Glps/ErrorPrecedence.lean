import BeamEnvelope.Proofs.Glps.ClosedSources
import BeamEnvelope.Proofs.Glps.TwoPhases

/-!
# Errors and what stands behind them

A reader that takes no semicolon stays in front of the last one, so it meets the same tokens
whatever is appended behind it and finds the same values and the same faults. Only the semicolon of
the last statement is followed by appended bytes, and all that is judged after it is taken is
whether the name of its statement is new. So an error of a source that ends with a semicolon stays
the error of every source that begins with it, unless it is that redefinition and the appended bytes
begin with a byte at which no token can be formed.
-/

namespace BeamEnvelope.Glps

open SourceReader Reader

variable {α β γ : Type} {start mid s s' t t' behind : Stream}

/-- Two readers' results, one of them on an extended stream: the same fault, or the same value with
the extension behind the rest, which is reached from `start` over no semicolon. -/
inductive SameOutcome (start behind : Stream) :
    Except Fault (Reading α s) → Except Fault (Reading α s') → Prop
  | error (f : Fault) : SameOutcome start behind (.error f) (.error f)
  | ok (a : Reading α s) (shorter : Input.size (a.rest.extend behind) < Input.size s')
    (reaches : start.Reaches a.rest) :
    SameOutcome start behind (.ok a) (.ok ⟨a.value, a.rest.extend behind, shorter⟩)

namespace SameOutcome

variable {x : Except Fault (Reading α s)} {y : Except Fault (Reading α s')}

theorem bind {f : Reading α s → Except Fault (Reading β t)}
    {g : Reading α s' → Except Fault (Reading β t')} (h : SameOutcome start behind x y)
    (hfg : ∀ a shorter, start.Reaches a.rest →
      SameOutcome start behind (f a) (g ⟨a.value, a.rest.extend behind, shorter⟩)) :
    SameOutcome start behind (x >>= f) (y >>= g) := by
  cases h with
  | error f => exact .error f
  | ok a shorter reaches => exact hfg a shorter reaches

theorem bind_value {v : Except Fault γ} {f : γ → Except Fault (Reading α s)}
    {g : γ → Except Fault (Reading α s')} (h : ∀ c, SameOutcome start behind (f c) (g c)) :
    SameOutcome start behind (v >>= f) (v >>= g) := by
  cases v with
  | error f => exact .error f
  | ok c => exact h c

theorem after (h : SameOutcome mid behind x y) (hmid : start.Reaches mid) :
    SameOutcome start behind x y := by
  cases h with
  | error f => exact .error f
  | ok a shorter reaches => exact .ok a shorter (hmid.trans reaches)

end SameOutcome

/-- The reader stays in front of the last semicolon and does not see what is behind it. -/
def SourceReader.IsLocal (p : SourceReader α) : Prop :=
  ∀ (s behind : Stream), s.IsClosed → SameOutcome s behind (p s) (p (s.extend behind))

namespace SourceReader

section Tokens

variable {accepts : Token → Option α} {expected : Expected} {tok : Token} {pos : Position}
  {rest : Stream} {m : Mark}

theorem accept_token {a : α} (h : accepts tok = some a) (hrest : rest.IsSound) :
    accept accepts expected (.token tok pos rest) = .ok ⟨(a, pos), rest, Nat.lt_succ_self _⟩ := by
  cases rest with
  | fault g => exact hrest.elim
  | token u here next => simp [accept, h]
  | finish here => simp [accept, h]

theorem accept_of_eq_none (h : accepts tok = none) :
    accept accepts expected (.token tok pos rest) =
      .error (.unexpected pos expected tok.describe) := by
  simp [accept, h, Stream.unexpected]

theorem accept_fault {a : α} (h : accepts tok = some a) (g : Fault) :
    accept accepts expected (.token tok pos (.fault g)) = .error g := by
  simp [accept, h]

theorem name_token {n : String} (hrest : rest.IsSound) :
    name expected (.token (.name n) pos rest) = .ok ⟨(n, pos), rest, Nat.lt_succ_self _⟩ :=
  accept_token rfl hrest

theorem name_of_ne (h : ∀ n, tok ≠ .name n) :
    name expected (.token tok pos rest) = .error (.unexpected pos expected tok.describe) := by
  refine accept_of_eq_none ?_
  cases tok with
  | name n => exact absurd rfl (h n)
  | number x => rfl
  | text x => rfl
  | mark m => rfl

theorem mark_token (hrest : rest.IsSound) :
    mark m expected (.token (.mark m) pos rest) = .ok ⟨pos, rest, Nat.lt_succ_self _⟩ := by
  rw [mark, check, accept_token (if_pos rfl) hrest]
  rfl

theorem mark_fault (g : Fault) :
    mark m expected (.token (.mark m) pos (.fault g)) = .error g := by
  rw [mark, check, accept_fault (if_pos rfl)]
  rfl

theorem mark_of_ne (h : tok ≠ .mark m) :
    mark m expected (.token tok pos rest) = .error (.unexpected pos expected tok.describe) := by
  rw [mark, check, accept_of_eq_none (if_neg h)]
  rfl

theorem isLocal_accept (h : accepts (.mark .semicolon) = none) :
    IsLocal (accept accepts expected) := by
  intro s behind hs
  obtain ⟨t, pos, rest, rfl⟩ := hs.exists_token
  rw [Stream.extend]
  cases ht : accepts t with
  | none =>
    rw [accept_of_eq_none ht, accept_of_eq_none ht]
    exact .error _
  | some a =>
    have hne : t ≠ .mark .semicolon := fun heq => by rw [heq, h] at ht; cases ht
    have hrest : rest.IsClosed := (Stream.isClosed_token hs).resolve_right fun hmark => hne hmark.1
    rw [accept_token ht hrest.isSound, accept_token ht hrest.isSound_extend]
    exact .ok _ _ ((Stream.Reaches.refl _).token hne)

end Tokens

theorem isLocal_bind {p : SourceReader α} {f : α → SourceReader β} (hp : IsLocal p)
    (hf : ∀ a, IsLocal (f a)) : IsLocal (p.bind f) := by
  intro s behind hs
  refine (hp s behind hs).bind fun a _ ha => ?_
  exact ((hf a.value _ _ (ha.isClosed hs)).after ha).bind fun b _ hb => .ok _ _ hb

theorem isLocal_check {p : SourceReader α} {f : α → Except Fault β} (hp : IsLocal p) :
    IsLocal (p.check f) := by
  intro s behind hs
  refine (hp s behind hs).bind fun a _ ha => ?_
  exact .bind_value fun b => .ok _ _ ha

theorem isLocal_name (expected : Expected) : IsLocal (name expected) := isLocal_accept rfl

theorem isLocal_mark {m : Mark} (h : m ≠ .semicolon) (expected : Expected) :
    IsLocal (mark m expected) :=
  isLocal_check (isLocal_accept (if_neg fun heq => h (Token.mark.inj heq).symm))

theorem isLocal_literal : IsLocal literal := isLocal_check (isLocal_accept rfl)

theorem isLocal_commaSeparated {item : α → SourceReader α} (h : ∀ a, IsLocal (item a))
    (expected : Expected) (a : α) : IsLocal (commaSeparated item expected a) := by
  have hcomma : IsLocal ((mark .comma expected).check fun _ => .ok ()) :=
    isLocal_check (isLocal_mark (by decide) expected)
  intro s behind hs
  induction hn : s.length using Nat.strongRecOn generalizing s a with
  | ind n ih =>
    rw [commaSeparated, separated, separated]
    refine (h a s behind hs).bind fun one _ hone => ?_
    dsimp only
    rw [(hone.isClosed hs).mark?_extend]
    split
    · refine ((hcomma _ _ (hone.isClosed hs)).after hone).bind fun gap _ hgap => ?_
      have hlt : gap.rest.length < n := hn ▸ Nat.lt_trans gap.shorter one.shorter
      have hmore := ih _ hlt one.value gap.rest (hgap.isClosed hs) rfl
      exact (hmore.after hgap).bind fun more _ hmore => .ok _ _ hmore
    · exact .ok _ _ hone

section Chain

variable {operand : SourceReader Value} {operator? : Mark → Option Operator}

theorem sameOutcome_chainFrom (hoperand : IsLocal operand)
    (hsemicolon : operator? .semicolon = none) (left : Reading Value s) (hs : left.rest.IsClosed)
    (shorter : Input.size (left.rest.extend behind) < Input.size s') :
    SameOutcome left.rest behind (chainFrom operand operator? left)
      (chainFrom operand operator? ⟨left.value, left.rest.extend behind, shorter⟩) := by
  induction hn : left.rest.length using Nat.strongRecOn generalizing left with
  | ind n ih =>
    rw [chainFrom, chainFrom]
    dsimp only
    rw [hs.mark?_extend]
    split
    · exact .ok _ _ (.refl _)
    · have haccept : IsLocal (accept (fun t => t.mark?.bind operator?) .expression) :=
        isLocal_accept hsemicolon
      refine (haccept _ _ hs).bind fun op _ hop => ?_
      refine ((hoperand _ _ (hop.isClosed hs)).after hop).bind fun right _ hright => ?_
      refine .bind_value fun v => ?_
      have hlt : right.rest.length < n := hn ▸ Nat.lt_trans right.shorter op.shorter
      exact (ih _ hlt ⟨v, right.rest, _⟩ (hright.isClosed hs) _ rfl).after hright

theorem isLocal_chain (hoperand : IsLocal operand) (hsemicolon : operator? .semicolon = none) :
    IsLocal (chain operand operator?) := by
  intro s behind hs
  refine (hoperand s behind hs).bind fun left _ hleft => ?_
  exact (sameOutcome_chainFrom hoperand hsemicolon left (hleft.isClosed hs) _).after hleft

end Chain

section Operands

variable {u : SourceReader Value} (hu : IsLocal u)
include hu

theorem isLocal_expressionOf : IsLocal (expressionOf u) := isLocal_chain (isLocal_chain hu rfl) rfl

theorem isLocal_enclosed : IsLocal (enclosed u) :=
  isLocal_bind (isLocal_mark (m := .openParen) (by decide) _) fun _ =>
    isLocal_bind (isLocal_expressionOf hu) fun _ => isLocal_check (isLocal_mark (by decide) _)

theorem isLocal_vectorEntry (entries : List Float) : IsLocal (vectorEntry u entries) := by
  intro s behind hs
  rw [vectorEntry, vectorEntry, hs.position?_extend]
  exact isLocal_check (isLocal_expressionOf hu) s behind hs

theorem isLocal_vector : IsLocal (vector u) := by
  refine isLocal_bind (isLocal_mark (by decide) _) fun _ s behind hs => ?_
  have hclose {f : Position → Except Fault Value} :
      IsLocal ((mark .closeBracket .entryEnd).check f) :=
    isLocal_check (isLocal_mark (by decide) _)
  rw [hs.mark?_extend]
  split
  · exact hclose s behind hs
  · exact isLocal_bind (isLocal_commaSeparated (isLocal_vectorEntry hu) _ _) (fun _ => hclose)
      s behind hs

theorem isLocal_nameOrCall (scope : Scope) (n : String) {s behind : Stream} (hs : s.IsClosed)
    (hn : s.head? = some (.name n)) :
    SameOutcome s behind (nameOrCall scope u n s) (nameOrCall scope u n (s.extend behind)) := by
  rw [nameOrCall, nameOrCall, hs.second?_extend hn]
  split
  · split
    · exact isLocal_bind (isLocal_name _) (fun _ => isLocal_check (isLocal_enclosed hu)) s behind hs
    · exact isLocal_check (isLocal_name _) s behind hs
  · exact isLocal_check (isLocal_name _) s behind hs

theorem isLocal_primary (scope : Scope) : IsLocal (primary scope u) := by
  intro s behind hs
  rw [primary, primary, hs.head?_extend]
  split
  · exact isLocal_nameOrCall hu scope _ hs ‹_›
  · exact isLocal_enclosed hu s behind hs
  · exact isLocal_vector hu s behind hs
  · exact isLocal_literal s behind hs

end Operands

theorem isLocal_unary (scope : Scope) (depth : Nat) : IsLocal (unary scope depth) := by
  induction depth with
  | zero =>
    intro s behind hs
    unfold unary
    rw [hs.unexpected_extend]
    exact .error _
  | succ depth ih =>
    intro s behind hs
    unfold unary
    rw [hs.mark?_extend]
    split
    · exact isLocal_bind (isLocal_mark (by decide) _) (fun _ => isLocal_check ih) s behind hs
    · exact isLocal_primary ih scope s behind hs

theorem isLocal_expression (scope : Scope) : IsLocal (expression scope) :=
  isLocal_expressionOf (isLocal_unary scope maxNesting)

theorem isLocal_parameter (scope : Scope) (params : Dictionary Value) :
    IsLocal (parameter scope params) :=
  isLocal_bind (isLocal_name _) fun _ =>
    isLocal_bind (isLocal_mark (by decide) _) fun _ => isLocal_check (isLocal_expression scope)

theorem isLocal_repeatedItem (scope : Scope) (built : List Component) :
    IsLocal (repeatedItem scope built) := by
  intro s behind hs
  rw [repeatedItem, repeatedItem, hs.position?_extend]
  exact isLocal_bind (isLocal_unary scope _)
    (fun _ => isLocal_bind (isLocal_mark (by decide) _) fun _ => isLocal_check (isLocal_name _))
    s behind hs

theorem isLocal_lineItem (scope : Scope) (built : List Component) :
    IsLocal (lineItem scope built) := by
  intro s behind hs
  have hrepeated := isLocal_repeatedItem scope built s behind hs
  rw [lineItem, lineItem, hs.head?_extend]
  cases hhead : s.head? with
  | none => exact hrepeated
  | some t =>
    cases t with
    | name n =>
      rw [hs.second?_extend hhead]
      split
      · exact hrepeated
      · exact hrepeated
      · exact isLocal_check (isLocal_name _) s behind hs
      · exact hrepeated
    | number x => exact hrepeated
    | text x => exact hrepeated
    | mark m => exact hrepeated

end SourceReader

namespace Stream

/-- The tokens ahead are those of one statement up to its semicolon, the only one. -/
def EndsOnce (s : Stream) : Prop :=
  ∃ ts, s.tokens? = some (ts ++ [.mark .semicolon]) ∧ Token.mark .semicolon ∉ ts

theorem Reaches.endsOnce (h : start.Reaches mid) (hmid : mid.EndsOnce) : start.EndsOnce := by
  obtain ⟨ts, hts, hfront⟩ := h
  obtain ⟨us, hus, hback⟩ := hmid
  refine ⟨ts ++ us, ?_, fun hmem => (List.mem_append.1 hmem).elim hfront hback⟩
  rw [hts.tokens?, hus, List.append_assoc]
  rfl

/-- The last statement ahead starts with the name `n`. -/
def EndsDefining (s : Stream) (n : String) (pos : Position) : Prop :=
  ∃ front body, s.Begins front (.token (.name n) pos body) ∧ body.EndsOnce

end Stream

/-- Two readers' results where a semicolon is taken last. If it is the last one and no token can be
formed behind it, that fault stands in place of all that is judged after it. -/
inductive SameUntilEnd (judged : Fault → Prop) (start behind : Stream) :
    Except Fault (Reading α s) → Except Fault (Reading α s') → Prop
  | error (f : Fault) : SameUntilEnd judged start behind (.error f) (.error f)
  | ok (a : Reading α s) (shorter : Input.size (a.rest.extend behind) < Input.size s')
    (rest : a.rest.IsClosed ∨ a.rest.isFinish = true) :
    SameUntilEnd judged start behind (.ok a) (.ok ⟨a.value, a.rest.extend behind, shorter⟩)
  | cut (x : Except Fault (Reading α s)) (g : Fault) (fault : behind = .fault g)
    (once : start.EndsOnce) (error : ∀ f, x = .error f → judged f)
    (ok : ∀ a, x = .ok a → a.rest.isFinish = true) :
    SameUntilEnd judged start behind x (.error g)

namespace SameUntilEnd

variable {judged judged' : Fault → Prop}

theorem of_sameOutcome {x : Except Fault (Reading α s)} {y : Except Fault (Reading α s')}
    {f : Reading α s → Except Fault (Reading β t)} {g : Reading α s' → Except Fault (Reading β t')}
    (h : SameOutcome start behind x y) (hfg : ∀ a shorter, start.Reaches a.rest →
      SameUntilEnd judged start behind (f a) (g ⟨a.value, a.rest.extend behind, shorter⟩)) :
    SameUntilEnd judged start behind (x >>= f) (y >>= g) := by
  cases h with
  | error f => exact .error f
  | ok a shorter reaches => exact hfg a shorter reaches

/-- The value is judged once more and nothing else is taken. -/
theorem yield {x : Except Fault (Reading α t)} {y : Except Fault (Reading α t')}
    (h : SameUntilEnd judged mid behind x y) (hmid : start.Reaches mid)
    (hjudged : mid.EndsOnce → ∀ e, judged e → judged' e) {v : α → Except Fault β}
    (hv : ∀ a e, v a = .error e → judged' e)
    (shorter : ∀ a : Reading α t, Input.size a.rest < Input.size s)
    (shorter' : ∀ a : Reading α t', Input.size a.rest < Input.size s') :
    SameUntilEnd judged' start behind
      (x >>= fun a => return (⟨← v a.value, a.rest, shorter a⟩ : Reading β s))
      (y >>= fun a => return (⟨← v a.value, a.rest, shorter' a⟩ : Reading β s')) := by
  cases h with
  | error f => exact .error f
  | ok a _ rest =>
    change SameUntilEnd judged' start behind
      (v a.value >>= fun b => return (⟨b, a.rest, shorter a⟩ : Reading β s))
      (v a.value >>= fun b => return (⟨b, a.rest.extend behind, _⟩ : Reading β s'))
    cases v a.value with
    | error e => exact .error e
    | ok b => exact .ok _ _ rest
  | cut x g fault once error ok =>
    refine .cut _ g fault (hmid.endsOnce once) ?_ ?_
    · intro e he
      cases x with
      | error e' =>
        cases he
        exact hjudged once _ (error _ rfl)
      | ok a =>
        cases hva : v a.value with
        | error e' =>
          rw [bind_of_eq_ok rfl, bind_of_eq_error hva] at he
          cases he
          exact hv _ _ hva
        | ok b =>
          rw [bind_of_eq_ok rfl, bind_of_eq_ok hva] at he
          cases he
    · intro b hb
      obtain ⟨a, ha, hb⟩ := bind_eq_ok.1 hb
      obtain ⟨c, -, hb⟩ := bind_eq_ok.1 hb
      cases hb
      exact ok a ha

end SameUntilEnd

namespace SourceReader

variable {judged : Fault → Prop}

/-- The reader takes the semicolon of a statement last; the faults judged behind it are given. -/
def EndsStatement (judged : Fault → Prop) (p : SourceReader α) : Prop :=
  ∀ s behind : Stream, s.IsClosed → SameUntilEnd judged s behind (p s) (p (s.extend behind))

theorem endsStatement_bind {p : SourceReader α} {f : α → SourceReader β} (hp : IsLocal p)
    (hf : ∀ a, EndsStatement judged (f a)) : EndsStatement judged (p.bind f) := by
  intro s behind hs
  refine .of_sameOutcome (hp s behind hs) fun a _ ha => ?_
  exact (hf a.value _ behind (ha.isClosed hs)).yield (v := .ok) ha (fun _ _ => id) (by simp) _ _

theorem endsStatement_check {p : SourceReader α} {f : α → Except Fault β}
    (hp : EndsStatement (fun _ => False) p) (hf : ∀ a e, f a = .error e → judged e) :
    EndsStatement judged (p.check f) :=
  fun s behind hs => (hp s behind hs).yield (.refl s) (fun _ _ => False.elim) hf _ _

theorem endsStatement_semicolon (expected : Expected) :
    EndsStatement (fun _ => False) (mark .semicolon expected) := by
  intro s behind hs
  obtain ⟨t, pos, rest, rfl⟩ := hs.exists_token
  rw [Stream.extend]
  by_cases ht : t = .mark .semicolon
  · subst ht
    rcases Stream.isClosed_token hs with hrest | ⟨-, pos', rfl⟩
    · rw [mark_token hrest.isSound, mark_token hrest.isSound_extend]
      exact .ok _ _ (.inl hrest)
    · -- the last one: what is appended stands directly behind it
      have hsound : (Stream.finish pos').IsSound := trivial
      rw [mark_token hsound, Stream.extend]
      cases behind with
      | fault g =>
        rw [mark_fault]
        have honce : (Stream.token (.mark .semicolon) pos (.finish pos')).EndsOnce :=
          ⟨[], rfl, List.not_mem_nil⟩
        refine .cut _ g rfl honce (by simp) ?_
        rintro _ ⟨⟩
        rfl
      | token u here next =>
        have hsound : (Stream.token u here next).IsSound := trivial
        rw [mark_token hsound]
        exact .ok _ _ (.inr rfl)
      | finish here =>
        have hsound : (Stream.finish here).IsSound := trivial
        rw [mark_token hsound]
        exact .ok _ _ (.inr rfl)
  · rw [mark_of_ne ht, mark_of_ne ht]
    exact .error _

theorem endsStatement_parameters (scope : Scope) (params : Dictionary Value) :
    EndsStatement (fun _ => False) (parameters scope params) := by
  intro s behind hs
  induction hn : s.length using Nat.strongRecOn generalizing s params with
  | ind n ih =>
    rw [parameters, parameters, hs.mark?_extend]
    split
    · refine .of_sameOutcome (isLocal_mark (by decide) _ s behind hs) fun comma _ hcomma => ?_
      refine .of_sameOutcome ((isLocal_parameter scope params _ behind
        (hcomma.isClosed hs)).after hcomma) fun one _ hone => ?_
      have hlt : one.rest.length < n := hn ▸ Nat.lt_trans one.shorter comma.shorter
      exact (ih _ hlt one.value one.rest (hone.isClosed hs) rfl).yield (v := .ok) hone
        (fun _ _ => id) (by simp) _ _
    · exact endsStatement_check (endsStatement_semicolon _) (by simp) s behind hs

/-- The only fault that is judged behind the semicolon of a definition. -/
theorem eq_redefined_of_define {scope : Scope} {n : String} {symbol : Symbol} {pos : Position}
    {f : Fault} (h : scope.define n symbol pos = .error f) : f = .redefined pos n := by
  rw [Scope.define] at h
  split at h
  · exact (Except.error.inj h).symm
  · cases h

section Definitions

variable (scope : Scope) (n : String) (pos : Position)

theorem endsStatement_valueDefinition :
    EndsStatement (· = .redefined pos n) (valueDefinition scope n pos) :=
  endsStatement_bind (isLocal_mark (by decide) _) fun _ =>
    endsStatement_bind (isLocal_expression scope) fun _ =>
      endsStatement_check (endsStatement_semicolon _) fun _ _ => eq_redefined_of_define

theorem endsStatement_elementDefinition (kind : String) :
    EndsStatement (· = .redefined pos n) (elementDefinition scope n pos kind) :=
  endsStatement_check (endsStatement_parameters scope ∅) fun _ _ => eq_redefined_of_define

theorem endsStatement_lineDefinition :
    EndsStatement (· = .redefined pos n) (lineDefinition scope n pos) :=
  endsStatement_bind (isLocal_mark (by decide) _) fun _ =>
    endsStatement_bind (isLocal_mark (by decide) _) fun _ =>
      endsStatement_bind (isLocal_commaSeparated (isLocal_lineItem scope) _ _) fun _ =>
        endsStatement_bind (isLocal_mark (by decide) _) fun _ =>
          endsStatement_check (endsStatement_semicolon _) fun _ _ => eq_redefined_of_define

theorem endsStatement_componentDefinition :
    EndsStatement (· = .redefined pos n) (componentDefinition scope n pos) := by
  refine endsStatement_bind (isLocal_mark (by decide) _) fun _ => ?_
  refine endsStatement_bind (isLocal_name _) fun kind s behind hs => ?_
  rw [hs.mark?_extend]
  split
  · exact endsStatement_lineDefinition scope n pos s behind hs
  · exact endsStatement_elementDefinition scope n pos kind.1 s behind hs

end Definitions

/-- What is judged of a statement as a whole is whether its name is new. -/
theorem sameUntilEnd_statement (scope : Scope) (behind : Stream) (hs : s.IsClosed) :
    SameUntilEnd (fun f => ∃ n pos, f = .redefined pos n ∧ s.EndsDefining n pos) s behind
      (statement scope s) (statement scope (s.extend behind)) := by
  obtain ⟨t, pos, rest, rfl⟩ := hs.exists_token
  rw [Stream.extend, statement, Reader.bind, Reader.bind]
  by_cases ht : ∃ n, t = .name n
  · obtain ⟨n, rfl⟩ := ht
    have hrest : rest.IsClosed := (Stream.isClosed_token hs).resolve_right (by simp)
    rw [name_token hrest.isSound, name_token hrest.isSound_extend, bind_of_eq_ok rfl,
      bind_of_eq_ok rfl]
    dsimp only
    rw [hrest.mark?_extend]
    refine SameUntilEnd.yield (v := .ok)
      (?_ : SameUntilEnd (· = .redefined pos n) rest behind _ _)
      ((Stream.Reaches.refl _).token (by simp))
      (fun honce e he => ⟨n, pos, he, [], rest, .nil _, honce⟩) (by simp) _ _
    split
    · exact endsStatement_valueDefinition scope n pos rest behind hrest
    · exact endsStatement_componentDefinition scope n pos rest behind hrest
    · rw [hrest.unexpected_extend]
      exact .error _
  · rw [name_of_ne (not_exists.1 ht), name_of_ne (not_exists.1 ht)]
    exact .error _

end SourceReader

open SourceReader

theorem Stream.EndsDefining.of_begins {n : String} {pos : Position} {ts : List Token}
    (h : mid.EndsDefining n pos) (hs : s.Begins ts mid) : s.EndsDefining n pos := by
  obtain ⟨us, body, hus, hbody⟩ := h
  exact ⟨ts ++ us, body, hs.append hus, hbody⟩

theorem program_extend {scope : Scope} {f : Fault} (behind : Stream) (hs : s.IsClosed)
    (h : program scope s = .error f) :
    program scope (s.extend behind) = .error f ∨
      ∃ n pos g, f = .redefined pos n ∧ s.EndsDefining n pos ∧ behind = .fault g ∧
        program scope (s.extend behind) = .error g := by
  induction hn : s.length using Nat.strongRecOn generalizing s scope with
  | ind size ih =>
    rw [program, hs.isFinish_eq_false, if_neg Bool.false_ne_true] at h
    rw [program, hs.isFinish_extend, if_neg Bool.false_ne_true]
    have hone := sameUntilEnd_statement scope behind hs
    generalize hx : statement scope s = x at h hone
    generalize statement scope (s.extend behind) = y at hone
    cases hone with
    | error e => exact .inl h
    | ok a _ hrest =>
      rw [bind_of_eq_ok rfl] at h ⊢
      rcases hrest with hrest | hrest
      · have hlt : a.rest.length < size := hn ▸ a.shorter
        obtain ⟨st, hst, -⟩ := derivesStatement_of_reads (reads_of_eq hx)
        rcases ih _ hlt hrest h rfl with hmore | ⟨n, pos, g, hf, hends, hg, hmore⟩
        · exact .inl hmore
        · exact .inr ⟨n, pos, g, hf, hends.of_begins hst, hg, hmore⟩
      · rw [program_of_isFinish hrest] at h
        cases h
    | cut _ g hg _ herror hok =>
      cases x with
      | error e =>
        obtain ⟨n, pos, he, hends⟩ := herror e rfl
        cases h
        exact .inr ⟨n, pos, g, he, hends, hg, rfl⟩
      | ok a =>
        rw [bind_of_eq_ok rfl, program_of_isFinish (hok a rfl)] at h
        cases h

/-- An error of a source whose last token is a semicolon is the error of every source that begins
with it. Only the redefinition by its last statement gives way, and only to bytes behind that
semicolon that form no token. -/
theorem read_append {source : List UInt8} {ts : List Token} {f : Fault}
    (htokens : (Stream.ofSource source).tokens? = some (ts ++ [.mark .semicolon]))
    (h : read source = .error f) (hf : f ≠ .noBeamline) (more : List UInt8) :
    read (source ++ more) = .error f ∨
      ∃ n pos g, f = .redefined pos n ∧ (Stream.ofSource source).EndsDefining n pos ∧
        Stream.ofSource (source ++ more) = (Stream.ofSource source).extend (.fault g) ∧
        read (source ++ more) = .error g := by
  have hclosed : (Stream.ofSource source).IsClosed := ⟨ts, htokens⟩
  obtain ⟨behind, hbehind⟩ := ofBytes_append hclosed more
  have hprogram : program {} (.ofSource source) = .error f := by
    rw [read] at h
    cases hfinal : program {} (.ofSource source) with
    | error e =>
      rw [bind_of_eq_error hfinal] at h
      exact congrArg Except.error (Except.error.inj h)
    | ok final =>
      rw [bind_of_eq_ok hfinal, Scope.lattice] at h
      split at h
      · cases h
      · exact absurd (Except.error.inj h).symm hf
  have hread : read (source ++ more) =
      program {} ((Stream.ofSource source).extend behind) >>= Scope.lattice := by
    rw [read, Stream.ofSource, hbehind]
    rfl
  rcases program_extend behind hclosed hprogram with
    hsame | ⟨n, pos, g, hredefined, hends, rfl, hlate⟩
  · exact .inl (by rw [hread, bind_of_eq_error hsame])
  · exact .inr ⟨n, pos, g, hredefined, hends, hbehind, by rw [hread, bind_of_eq_error hlate]⟩

/-- Whether a computation fails with a given fault can be found by running it. -/
instance decidableEqError (x : Except Fault α) (f : Fault) : Decidable (x = .error f) :=
  match x with
  | .error g => decidable_of_iff (g = f) (by simp)
  | .ok _ => .isFalse (by simp)

/-- `a = 1; a = 2;` -/
def redefinition : List UInt8 := [97, 32, 61, 32, 49, 59, 32, 97, 32, 61, 32, 50, 59]

theorem tokens?_redefinition : (Stream.ofSource redefinition).tokens? =
    some ([.name "a", .mark .equals, .number 1.0, .mark .semicolon, .name "a", .mark .equals,
      .number 2.0] ++ [.mark .semicolon]) := by
  decide +kernel

theorem read_redefinition : read redefinition = .error (.redefined ⟨1, 8⟩ "a") := by
  decide +kernel

theorem read_redefinition_quote :
    read (redefinition ++ [Bytes.quote]) = .error (.unterminatedQuote ⟨1, 14⟩) := by
  decide +kernel

/-- An unterminated text behind the semicolon of the redefinition is reported in its place. -/
theorem quote_hides_redefinition :
    (∃ ts, (Stream.ofSource redefinition).tokens? = some (ts ++ [.mark .semicolon])) ∧
      read redefinition = .error (.redefined ⟨1, 8⟩ "a") ∧
      read (redefinition ++ [Bytes.quote]) = .error (.unterminatedQuote ⟨1, 14⟩) :=
  ⟨⟨_, tokens?_redefinition⟩, read_redefinition, read_redefinition_quote⟩

/-- The redefinition gives way because it is made by the last statement, directly in front of the
byte that forms no token. -/
theorem redefinition_read_append : (Stream.ofSource redefinition).EndsDefining "a" ⟨1, 8⟩ ∧
    Stream.ofSource (redefinition ++ [Bytes.quote]) =
      (Stream.ofSource redefinition).extend (.fault (.unterminatedQuote ⟨1, 14⟩)) := by
  rcases read_append tokens?_redefinition read_redefinition (by decide) [Bytes.quote] with
    hsame | ⟨n, pos, g, hredefined, hends, hstream, hlate⟩
  · rw [read_redefinition_quote] at hsame
    cases hsame
  · cases hredefined
    rw [read_redefinition_quote] at hlate
    cases hlate
    exact ⟨hends, hstream⟩

end BeamEnvelope.Glps
