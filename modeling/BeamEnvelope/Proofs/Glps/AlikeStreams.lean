import BeamEnvelope.Proofs.Glps.ErrorPrecedence
import BeamEnvelope.Proofs.Glps.Lexemes

/-!
# Streams of the same tokens at other positions

Readers look at tokens and never at positions: a position goes into a fault and nowhere else. So two
streams of the same tokens are read alike. Either both are read with the same value, or both fault
alike, at positions that belong to each other. Which positions do is left open: they are related by
some `R`, as they are in the two streams.
-/

namespace BeamEnvelope.Glps

open SourceReader Reader

variable {α β γ δ : Type} {R : Position → Position → Prop} {V : α → β → Prop} {W : γ → δ → Prop}
  {f g : Fault} {p q : Position} {s s' : Stream}

/-- The same fault, at related positions. -/
structure Fault.Alike (R : Position → Position → Prop) (f g : Fault) : Prop where
  same : f.moveTo {} = g.moveTo {}
  places : Option.Rel R f.position? g.position?

theorem Fault.Alike.of_places (h : R p q) (same : f.moveTo {} = g.moveTo {})
    (here : f.position? = some p) (there : g.position? = some q) : f.Alike R g := by
  refine ⟨same, ?_⟩
  rw [here, there]
  exact .some h

inductive Stream.Alike (R : Position → Position → Prop) : Stream → Stream → Prop
  | token {p q : Position} {rest rest' : Stream} (t : Token) (h : R p q)
    (more : Alike R rest rest') : Alike R (token t p rest) (token t q rest')
  | finish {p q : Position} (h : R p q) : Alike R (finish p) (finish q)
  | fault {f g : Fault} {p q : Position} (h : R p q) (same : f.moveTo {} = g.moveTo {})
    (here : f.position? = some p) (there : g.position? = some q) : Alike R (fault f) (fault g)

/-- Two results: faults that are alike, or values that are related. -/
inductive Agree (R : Position → Position → Prop) (V : α → β → Prop) :
    Except Fault α → Except Fault β → Prop
  | error {f g : Fault} (h : f.Alike R g) : Agree R V (.error f) (.error g)
  | ok {a : α} {b : β} (h : V a b) : Agree R V (.ok a) (.ok b)

theorem Agree.bind {x : Except Fault α} {y : Except Fault β} {next : α → Except Fault γ}
    {next' : β → Except Fault δ} (h : Agree R V x y)
    (hnext : ∀ a b, V a b → Agree R W (next a) (next' b)) :
    Agree R W (x >>= next) (y >>= next') := by
  cases h with
  | error h => exact .error h
  | ok h => exact hnext _ _ h

section Values

variable (h : R p q)
include h

theorem agree_finite (what : String) (x : Float) :
    Agree R Eq (finite p what x) (finite q what x) := by
  unfold finite
  split
  · exact .ok rfl
  · exact .error ⟨rfl, .some h⟩

theorem agree_mapM_finite (what : String) (op : α → Float) (xs : List α) :
    Agree R Eq (xs.mapM fun x => finite p what (op x)) (xs.mapM fun x => finite q what (op x)) := by
  induction xs with
  | nil => exact .ok rfl
  | cons x xs ih =>
    rw [List.mapM_cons, List.mapM_cons]
    refine (agree_finite h what (op x)).bind ?_
    rintro y _ rfl
    refine ih.bind ?_
    rintro ys _ rfl
    exact .ok rfl

theorem agree_binary (op : Operator) (l r : Value) :
    Agree R Eq (binary p op l r) (binary q op l r) := by
  have hvector {x y : Except Fault (List Float)} (hxy : Agree R Eq x y) :
      Agree R Eq (x >>= fun xs => .ok (Value.vector xs)) (y >>= fun xs => .ok (Value.vector xs)) :=
    hxy.bind fun _ _ hxs => .ok (congrArg Value.vector hxs)
  have hkinds : Agree R Eq (.error (.mismatch p (.operands op l.kindName r.kindName)))
      (.error (.mismatch q (.operands op l.kindName r.kindName)) : Except Fault Value) :=
    .error ⟨rfl, .some h⟩
  cases l with
  | scalar a =>
    cases r with
    | scalar b => exact (agree_finite h _ _).bind fun _ _ hx => .ok (congrArg Value.scalar hx)
    | vector ys => exact hvector (agree_mapM_finite h _ (op.apply a) ys)
    | text s => exact hkinds
  | vector xs =>
    cases r with
    | scalar b => exact hvector (agree_mapM_finite h _ (op.apply · b) xs)
    | vector ys =>
      simp only [binary]
      split
      · exact .error ⟨rfl, .some h⟩
      · exact hvector (agree_mapM_finite h _ id _)
    | text s => exact hkinds
  | text s => cases r <;> exact hkinds

theorem agree_negate (v : Value) : Agree R Eq (negate p v) (negate q v) := by
  cases v with
  | scalar x => exact .ok rfl
  | vector xs => exact .ok rfl
  | text s => exact .error ⟨rfl, .some h⟩

theorem agree_call (function : Function) (v : Value) :
    Agree R Eq (call p function v) (call q function v) := by
  cases v with
  | scalar x => exact (agree_finite h _ _).bind fun _ _ hy => .ok (congrArg Value.scalar hy)
  | vector xs => exact .error ⟨rfl, .some h⟩
  | text s => exact .error ⟨rfl, .some h⟩

theorem agree_entry (v : Value) : Agree R Eq (entry p v) (entry q v) := by
  cases v with
  | scalar x => exact .ok rfl
  | vector xs => exact .error ⟨rfl, .some h⟩
  | text s => exact .error ⟨rfl, .some h⟩

theorem agree_repeatCount (v : Value) : Agree R Eq (repeatCount p v) (repeatCount q v) := by
  cases v with
  | scalar x =>
    simp only [repeatCount]
    split
    · exact .ok rfl
    · exact .error ⟨rfl, .some h⟩
  | vector xs => exact .error ⟨rfl, .some h⟩
  | text s => exact .error ⟨rfl, .some h⟩

variable (scope : Scope) (n : String)

theorem agree_value : Agree R Eq (scope.value n p) (scope.value n q) := by
  unfold Scope.value
  split
  · exact .ok rfl
  · exact .error ⟨rfl, .some h⟩
  · exact .error ⟨rfl, .some h⟩

theorem agree_append (built : List Component) (count : Nat) :
    Agree R Eq (append scope built n count p) (append scope built n count q) := by
  have hcomponents : Agree R Eq (scope.components n p) (scope.components n q) := by
    unfold Scope.components
    split
    · exact .ok rfl
    · exact .ok rfl
    · exact .error ⟨rfl, .some h⟩
    · exact .error ⟨rfl, .some h⟩
  refine hcomponents.bind ?_
  rintro items _ rfl
  split
  · exact .ok rfl
  · exact .error ⟨rfl, .some h⟩

theorem agree_define (symbol : Symbol) :
    Agree R Eq (scope.define n symbol p) (scope.define n symbol q) := by
  unfold Scope.define
  split
  · exact .error ⟨rfl, .some h⟩
  · exact .ok rfl

end Values

namespace Stream.Alike

theorem head?_eq (h : s.Alike R s') : s.head? = s'.head? := by
  cases h <;> rfl

theorem mark?_eq (h : s.Alike R s') : s.mark? = s'.mark? := by
  rw [mark?, mark?, h.head?_eq]

theorem second?_eq (h : s.Alike R s') : s.second? = s'.second? := by
  cases h with
  | token t h more => exact more.head?_eq
  | finish h => rfl
  | fault h same here there => rfl

theorem isFinish_eq (h : s.Alike R s') : s.isFinish = s'.isFinish := by
  cases h <;> rfl

theorem position? (h : s.Alike R s') : R (s.position?.getD {}) (s'.position?.getD {}) := by
  cases h with
  | token t h more => exact h
  | finish h => exact h
  | fault h same here there =>
    rw [Stream.position?, Stream.position?, here, there]
    exact h

theorem unexpected (h : s.Alike R s') (expected : Expected) :
    (s.unexpected expected).Alike R (s'.unexpected expected) := by
  cases h with
  | token t h more => exact ⟨rfl, .some h⟩
  | finish h => exact ⟨rfl, .some h⟩
  | fault h same here there => exact .of_places h same here there

end Stream.Alike

def SameRest (R : Position → Position → Prop) (V : α → β → Prop) (a : Reading α s)
    (b : Reading β s') : Prop := V a.value b.value ∧ a.rest.Alike R b.rest

/-- Two readers that read streams of the same tokens alike. -/
def SourceReader.Agrees (R : Position → Position → Prop) (V : α → β → Prop) (p : SourceReader α)
    (p' : SourceReader β) : Prop :=
  ∀ s s' : Stream, s.Alike R s' → Agree R (SameRest R V) (p s) (p' s')

def SamePlaced (R : Position → Position → Prop) (a b : α × Position) : Prop :=
  a.1 = b.1 ∧ R a.2 b.2

namespace SourceReader

theorem agrees_accept (accepts : Token → Option α) (expected : Expected) :
    Agrees R (SamePlaced R) (accept accepts expected) (accept accepts expected) := by
  have hfinish (pos : Position) : (Stream.finish pos).IsSound := trivial
  have htoken (t : Token) (pos : Position) (rest : Stream) :
      (Stream.token t pos rest).IsSound := trivial
  intro s s' hs
  cases hs with
  | token t h more =>
    cases ht : accepts t with
    | none =>
      rw [accept_of_eq_none ht, accept_of_eq_none ht]
      exact .error ⟨rfl, .some h⟩
    | some a =>
      cases more with
      | token u h' more' =>
        rw [accept_token ht (htoken _ _ _), accept_token ht (htoken _ _ _)]
        exact .ok ⟨⟨rfl, h⟩, .token u h' more'⟩
      | finish h' =>
        rw [accept_token ht (hfinish _), accept_token ht (hfinish _)]
        exact .ok ⟨⟨rfl, h⟩, .finish h'⟩
      | fault h' same here there =>
        rw [accept_fault ht, accept_fault ht]
        exact .error (.of_places h' same here there)
  | finish h => exact .error ⟨rfl, .some h⟩
  | fault h same here there => exact .error (.of_places h same here there)

theorem agrees_bind {p : SourceReader α} {p' : SourceReader β} {next : α → SourceReader γ}
    {next' : β → SourceReader δ} (hp : Agrees R V p p')
    (hnext : ∀ a b, V a b → Agrees R W (next a) (next' b)) :
    Agrees R W (p.bind next) (p'.bind next') := by
  intro s s' hs
  refine (hp s s' hs).bind fun a b hab => ?_
  exact (hnext _ _ hab.1 _ _ hab.2).bind fun c d hcd => .ok hcd

theorem agrees_check {p : SourceReader α} {p' : SourceReader β} {judge : α → Except Fault γ}
    {judge' : β → Except Fault δ} (hp : Agrees R V p p')
    (hjudge : ∀ a b, V a b → Agree R W (judge a) (judge' b)) :
    Agrees R W (p.check judge) (p'.check judge') := by
  intro s s' hs
  refine (hp s s' hs).bind fun a b hab => ?_
  exact (hjudge _ _ hab.1).bind fun c d hcd => .ok ⟨hcd, hab.2⟩

theorem agrees_name (expected : Expected) :
    Agrees R (SamePlaced R) (name expected) (name expected) := agrees_accept _ _

theorem agrees_mark (m : Mark) (expected : Expected) :
    Agrees R R (mark m expected) (mark m expected) :=
  agrees_check (agrees_accept _ _) fun _ _ h => .ok h.2

theorem agrees_literal : Agrees R Eq literal literal :=
  agrees_check (agrees_accept _ _) fun _ _ h => .ok h.1

/-- Once a mark has been taken, nothing more of it is used. -/
theorem agrees_yield (m : Mark) (expected : Expected) (a : α) :
    Agrees R Eq ((mark m expected).check fun _ => .ok a) ((mark m expected).check fun _ => .ok a) :=
  agrees_check (agrees_mark m expected) fun _ _ _ => .ok rfl

theorem agrees_commaSeparated {item : α → SourceReader α} (h : ∀ a, Agrees R Eq (item a) (item a))
    (expected : Expected) (a : α) :
    Agrees R Eq (commaSeparated item expected a) (commaSeparated item expected a) := by
  intro s s' hs
  induction hn : s.length using Nat.strongRecOn generalizing s s' a with
  | ind n ih =>
    rw [commaSeparated, separated, separated]
    refine (h a s s' hs).bind fun one one' hone => ?_
    rw [hone.2.mark?_eq]
    split
    · refine (agrees_yield .comma expected () _ _ hone.2).bind fun gap gap' hgap => ?_
      have hlt : gap.rest.length < n := hn ▸ Nat.lt_trans gap.shorter one.shorter
      rw [← hone.1]
      exact (ih _ hlt one.value _ _ hgap.2 rfl).bind fun more more' hmore => .ok hmore
    · exact .ok hone

section Chain

variable {operand : SourceReader Value} {operator? : Mark → Option Operator}

theorem agree_chainFrom (hoperand : Agrees R Eq operand operand) {left : Reading Value s}
    {left' : Reading Value s'} (hleft : SameRest R Eq left left') :
    Agree R (SameRest R Eq) (chainFrom operand operator? left)
      (chainFrom operand operator? left') := by
  induction hn : left.rest.length using Nat.strongRecOn generalizing left left' with
  | ind n ih =>
    rw [chainFrom, chainFrom, hleft.2.mark?_eq]
    split
    · exact .ok hleft
    · refine (agrees_accept _ _ _ _ hleft.2).bind fun op op' hop => ?_
      refine (hoperand _ _ hop.2).bind fun right right' hright => ?_
      rw [← hop.1.1, ← hleft.1, ← hright.1]
      refine (agree_binary hop.1.2 _ _ _).bind ?_
      rintro v _ rfl
      have hlt : right.rest.length < n := hn ▸ Nat.lt_trans right.shorter op.shorter
      exact ih _ hlt ⟨rfl, hright.2⟩ rfl

theorem agrees_chain (hoperand : Agrees R Eq operand operand) :
    Agrees R Eq (chain operand operator?) (chain operand operator?) :=
  fun s s' hs => (hoperand s s' hs).bind fun _ _ hleft => agree_chainFrom hoperand hleft

end Chain

section Operands

variable {u : SourceReader Value} (hu : Agrees R Eq u u)
include hu

theorem agrees_expressionOf : Agrees R Eq (expressionOf u) (expressionOf u) :=
  agrees_chain (agrees_chain hu)

theorem agrees_enclosed : Agrees R Eq (enclosed u) (enclosed u) := by
  refine agrees_bind (agrees_mark _ _) fun _ _ _ => ?_
  refine agrees_bind (agrees_expressionOf hu) ?_
  rintro v _ rfl
  exact agrees_yield _ _ v

theorem agrees_vectorEntry (entries : List Float) :
    Agrees R Eq (vectorEntry u entries) (vectorEntry u entries) := by
  intro s s' hs
  refine agrees_check (agrees_expressionOf hu) ?_ s s' hs
  rintro v _ rfl
  exact (agree_entry hs.position? v).bind fun _ _ hx => .ok (by rw [hx])

theorem agrees_vector : Agrees R Eq (vector u) (vector u) := by
  refine agrees_bind (agrees_mark _ _) fun _ _ _ s s' hs => ?_
  rw [hs.mark?_eq]
  split
  · exact agrees_yield _ _ _ s s' hs
  · refine agrees_bind (agrees_commaSeparated (agrees_vectorEntry hu) _ _) ?_ s s' hs
    rintro xs _ rfl
    exact agrees_yield _ _ _

theorem agrees_nameOrCall (scope : Scope) (n : String) :
    Agrees R Eq (nameOrCall scope u n) (nameOrCall scope u n) := by
  have hvalue : Agrees R Eq ((name .expression).check fun t => scope.value n t.2)
      ((name .expression).check fun t => scope.value n t.2) :=
    agrees_check (agrees_name _) fun _ _ h => agree_value h.2 scope n
  intro s s' hs
  rw [nameOrCall, nameOrCall, hs.second?_eq]
  split
  · split
    · refine agrees_bind (agrees_name _) (fun t t' ht => ?_) s s' hs
      refine agrees_check (agrees_enclosed hu) ?_
      rintro v _ rfl
      exact agree_call ht.2 _ v
    · exact hvalue s s' hs
  · exact hvalue s s' hs

theorem agrees_primary (scope : Scope) : Agrees R Eq (primary scope u) (primary scope u) := by
  intro s s' hs
  rw [primary, primary, hs.head?_eq]
  split
  · exact agrees_nameOrCall hu scope _ s s' hs
  · exact agrees_enclosed hu s s' hs
  · exact agrees_vector hu s s' hs
  · exact agrees_literal s s' hs

end Operands

theorem agrees_unary (scope : Scope) (depth : Nat) :
    Agrees R Eq (unary scope depth) (unary scope depth) := by
  induction depth with
  | zero => exact fun s s' hs => .error (hs.unexpected _)
  | succ depth ih =>
    intro s s' hs
    unfold unary
    rw [hs.mark?_eq]
    split
    · refine agrees_bind (agrees_mark _ _) (fun pos pos' hpos => ?_) s s' hs
      refine agrees_check ih ?_
      rintro v _ rfl
      exact agree_negate hpos v
    · exact agrees_primary ih scope s s' hs

theorem agrees_expression (scope : Scope) :
    Agrees R Eq (expression scope) (expression scope) :=
  agrees_expressionOf (agrees_unary scope maxNesting)

theorem agrees_parameter (scope : Scope) (params : Dictionary Value) :
    Agrees R Eq (parameter scope params) (parameter scope params) := by
  refine agrees_bind (agrees_name _) fun n n' hn => ?_
  refine agrees_bind (agrees_mark _ _) fun _ _ _ => ?_
  refine agrees_check (agrees_expression scope) ?_
  rintro v _ rfl
  rw [← hn.1]
  split
  · exact .error ⟨rfl, .some hn.2⟩
  · exact .ok rfl

theorem agrees_parameters (scope : Scope) (params : Dictionary Value) :
    Agrees R Eq (parameters scope params) (parameters scope params) := by
  intro s s' hs
  induction hn : s.length using Nat.strongRecOn generalizing s s' params with
  | ind n ih =>
    rw [parameters, parameters, hs.mark?_eq]
    split
    · refine (agrees_mark _ _ s s' hs).bind fun comma comma' hcomma => ?_
      refine (agrees_parameter scope params _ _ hcomma.2).bind fun one one' hone => ?_
      have hlt : one.rest.length < n := hn ▸ Nat.lt_trans one.shorter comma.shorter
      rw [← hone.1]
      exact (ih _ hlt one.value _ _ hone.2 rfl).bind fun more more' hmore => .ok hmore
    · exact agrees_yield _ _ params s s' hs

theorem agrees_repeatedItem (scope : Scope) (built : List Component) :
    Agrees R Eq (repeatedItem scope built) (repeatedItem scope built) := by
  intro s s' hs
  refine agrees_bind (agrees_unary scope maxNesting) ?_ s s' hs
  rintro factor _ rfl
  refine agrees_bind (agrees_mark _ _) fun _ _ _ => ?_
  refine agrees_check (agrees_name _) fun n n' hn => ?_
  refine (agree_repeatCount hs.position? factor).bind ?_
  rintro count _ rfl
  rw [← hn.1]
  exact agree_append hn.2 scope n.1 built count

theorem agrees_lineItem (scope : Scope) (built : List Component) :
    Agrees R Eq (lineItem scope built) (lineItem scope built) := by
  have hrepeated : Agrees R Eq (repeatedItem scope built) (repeatedItem scope built) :=
    agrees_repeatedItem scope built
  intro s s' hs
  rw [lineItem, lineItem, hs.head?_eq, hs.second?_eq]
  split
  · exact hrepeated s s' hs
  · exact hrepeated s s' hs
  · refine agrees_check (agrees_name _) (fun n n' hn => ?_) s s' hs
    rw [← hn.1]
    exact agree_append hn.2 scope n.1 built 1
  · exact hrepeated s s' hs

section Definitions

variable (scope : Scope) (n : String) (h : R p q)
include h

theorem agrees_valueDefinition :
    Agrees R Eq (valueDefinition scope n p) (valueDefinition scope n q) := by
  refine agrees_bind (agrees_mark _ _) fun _ _ _ => ?_
  refine agrees_bind (agrees_expression scope) ?_
  rintro v _ rfl
  exact agrees_check (agrees_mark _ _) fun _ _ _ => agree_define h scope n _

theorem agrees_elementDefinition (kind : String) :
    Agrees R Eq (elementDefinition scope n p kind) (elementDefinition scope n q kind) := by
  refine agrees_check (agrees_parameters scope ∅) ?_
  rintro params _ rfl
  exact agree_define h scope n _

theorem agrees_lineDefinition :
    Agrees R Eq (lineDefinition scope n p) (lineDefinition scope n q) := by
  refine agrees_bind (agrees_mark _ _) fun _ _ _ => ?_
  refine agrees_bind (agrees_mark _ _) fun _ _ _ => ?_
  refine agrees_bind (agrees_commaSeparated (agrees_lineItem scope) _ _) ?_
  rintro built _ rfl
  refine agrees_bind (agrees_mark _ _) fun _ _ _ => ?_
  exact agrees_check (agrees_mark _ _) fun _ _ _ => agree_define h scope n _

theorem agrees_componentDefinition :
    Agrees R Eq (componentDefinition scope n p) (componentDefinition scope n q) := by
  refine agrees_bind (agrees_mark _ _) fun _ _ _ => ?_
  refine agrees_bind (agrees_name _) fun kind kind' hkind s s' hs => ?_
  rw [hs.mark?_eq, ← hkind.1]
  split
  · exact agrees_lineDefinition scope n h s s' hs
  · exact agrees_elementDefinition scope n h kind.1 s s' hs

end Definitions

theorem agrees_statement (scope : Scope) : Agrees R Eq (statement scope) (statement scope) := by
  refine agrees_bind (agrees_name _) fun n n' hn s s' hs => ?_
  rw [hs.mark?_eq, ← hn.1]
  split
  · exact agrees_valueDefinition scope n.1 hn.2 s s' hs
  · exact agrees_componentDefinition scope n.1 hn.2 s s' hs
  · exact .error (hs.unexpected _)

end SourceReader

open SourceReader

theorem agree_program (scope : Scope) (hs : s.Alike R s') :
    Agree R Eq (program scope s) (program scope s') := by
  induction hn : s.length using Nat.strongRecOn generalizing scope s s' with
  | ind n ih =>
    rw [program, program, hs.isFinish_eq]
    split
    · exact .ok rfl
    · refine (agrees_statement scope s s' hs).bind fun one one' hone => ?_
      have hlt : one.rest.length < n := hn ▸ one.shorter
      rw [← hone.1]
      exact ih _ hlt one.value hone.2 rfl

/-- Sources of the same tokens are read alike. -/
theorem agree_read {source source' : List UInt8}
    (h : (Stream.ofSource source).Alike R (.ofSource source')) :
    Agree R Eq (read source) (read source') := by
  refine (agree_program {} h).bind ?_
  rintro scope _ rfl
  unfold Scope.lattice
  split
  · exact .ok rfl
  · exact .error ⟨rfl, .none⟩

end BeamEnvelope.Glps
