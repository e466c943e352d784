import BeamEnvelope.Proofs.Glps.CheckedReading

/-!
# No check fails

Every checked reader comes to what its counterpart on streams comes to: the same fault, or the same
value and the same rest. So a source is read without a breach, and its faults are those of the
reading that checks nothing. Of the syntax errors among them none is about a numeral, and none shows
the mark that stands for a token without a description.
-/

namespace BeamEnvelope.Glps

variable {source : List UInt8} {α β γ δ : Type}

/-- A step all of whose faults are live. -/
def FailsLive (x : Except Fault α) : Prop := ∀ f, x = .error f → f.IsLive

theorem failsLive_ok (a : α) : FailsLive (.ok a : Except Fault α) := nofun

theorem failsLive_error {f : Fault} (h : f.IsLive) : FailsLive (.error f : Except Fault α) := by
  intro g hg
  cases hg
  exact h

theorem FailsLive.bind {x : Except Fault α} {next : α → Except Fault β} (h : FailsLive x)
    (hnext : ∀ a, FailsLive (next a)) : FailsLive (x >>= next) := by
  cases x with
  | error f => exact failsLive_error (h f rfl)
  | ok a => exact hnext a

theorem failsLive_mapM {step : α → Except Fault β} (h : ∀ a, FailsLive (step a)) (xs : List α) :
    FailsLive (xs.mapM step) := by
  induction xs with
  | nil => exact failsLive_ok _
  | cons x xs ih =>
    rw [List.mapM_cons]
    exact (h x).bind fun y => ih.bind fun ys => failsLive_ok _

section Values

variable (pos : Position)

theorem failsLive_finite (what : String) (x : Float) : FailsLive (finite pos what x) := by
  unfold finite
  split
  · exact failsLive_ok _
  · exact failsLive_error trivial

theorem failsLive_binary (op : Operator) (l r : Value) : FailsLive (binary pos op l r) := by
  have hvector {x : Except Fault (List Float)} (hx : FailsLive x) :
      FailsLive (x >>= fun xs => .ok (Value.vector xs)) := hx.bind fun _ => failsLive_ok _
  have hmapM (f : Float → Float) (xs : List Float) :
      FailsLive (xs.mapM fun x => finite pos op.noun (f x)) :=
    failsLive_mapM (fun x => failsLive_finite pos _ (f x)) xs
  cases l with
  | scalar a =>
    cases r with
    | scalar b => exact (failsLive_finite pos _ _).bind fun _ => failsLive_ok _
    | vector ys => exact hvector (hmapM (op.apply a) ys)
    | text s => exact failsLive_error trivial
  | vector xs =>
    cases r with
    | scalar b => exact hvector (hmapM (op.apply · b) xs)
    | vector ys =>
      simp only [binary]
      split
      · exact failsLive_error trivial
      · exact hvector (hmapM id _)
    | text s => exact failsLive_error trivial
  | text s => cases r <;> exact failsLive_error trivial

theorem failsLive_negate (v : Value) : FailsLive (negate pos v) := by
  cases v with
  | scalar x => exact failsLive_ok _
  | vector xs => exact failsLive_ok _
  | text s => exact failsLive_error trivial

theorem failsLive_call (function : Function) (v : Value) : FailsLive (call pos function v) := by
  cases v with
  | scalar x => exact (failsLive_finite pos _ _).bind fun _ => failsLive_ok _
  | vector xs => exact failsLive_error trivial
  | text s => exact failsLive_error trivial

theorem failsLive_entry (v : Value) : FailsLive (entry pos v) := by
  cases v with
  | scalar x => exact failsLive_ok _
  | vector xs => exact failsLive_error trivial
  | text s => exact failsLive_error trivial

theorem failsLive_repeatCount (v : Value) : FailsLive (repeatCount pos v) := by
  cases v with
  | scalar x =>
    simp only [repeatCount]
    split
    · exact failsLive_ok _
    · exact failsLive_error trivial
  | vector xs => exact failsLive_error trivial
  | text s => exact failsLive_error trivial

variable (scope : Scope) (n : String)

theorem failsLive_value : FailsLive (scope.value n pos) := by
  unfold Scope.value
  split
  · exact failsLive_ok _
  · exact failsLive_error trivial
  · exact failsLive_error trivial

theorem failsLive_components : FailsLive (scope.components n pos) := by
  unfold Scope.components
  split
  · exact failsLive_ok _
  · exact failsLive_ok _
  · exact failsLive_error trivial
  · exact failsLive_error trivial

theorem failsLive_append (built : List Component) (count : Nat) :
    FailsLive (append scope built n count pos) := by
  refine (failsLive_components pos scope n).bind fun items => ?_
  split
  · exact failsLive_ok _
  · exact failsLive_error trivial

theorem failsLive_define (symbol : Symbol) : FailsLive (scope.define n symbol pos) := by
  unfold Scope.define
  split
  · exact failsLive_error trivial
  · exact failsLive_ok _

end Values

/-- A checked result and a plain one: the same live fault, or values that belong to each other. -/
inductive ComesTo (V : α → β → Prop) : Except Halt α → Except Fault β → Prop
  | fault {f : Fault} (live : f.IsLive) : ComesTo V (.error (.fault f)) (.error f)
  | ok {a : α} {b : β} (h : V a b) : ComesTo V (.ok a) (.ok b)

theorem ComesTo.bind {V : α → β → Prop} {W : γ → δ → Prop} {x : Except Halt α} {y : Except Fault β}
    {next : α → Except Halt γ} {next' : β → Except Fault δ} (h : ComesTo V x y)
    (hnext : ∀ a b, V a b → ComesTo W (next a) (next' b)) :
    ComesTo W (x >>= next) (y >>= next') := by
  cases h with
  | fault live => exact .fault live
  | ok h => exact hnext _ _ h

theorem comesTo_lift {x : Except Fault α} (h : FailsLive x) : ComesTo Eq (lift x) x := by
  cases x with
  | error f => exact .fault (h f rfl)
  | ok a => exact .ok rfl

/-- The same value, and a window on the stream that is left. -/
structure SameReading {w : Window source} {s : Stream} (a : Reading α w) (b : Reading α s) :
    Prop where
  value : a.value = b.value
  rest : b.rest = a.rest.stream
  lexical : a.rest.stream.IsLexical

/-- The checked reader comes to what the plain one comes to on the stream in its window. -/
def CheckedReader.Keeps (p : CheckedReader source α) (q : SourceReader α) : Prop :=
  ∀ w : Window source, w.stream.IsLexical → ComesTo SameReading (p w) (q w.stream)

namespace CheckedReader

variable {p : CheckedReader source α} {q : SourceReader α} {w : Window source}

theorem Keeps.bind {next : α → CheckedReader source β} {next' : α → SourceReader β}
    (h : p.Keeps q) (hnext : ∀ a, (next a).Keeps (next' a)) :
    Keeps (Reader.bind p next) (q.bind next') := by
  intro w hw
  refine (h w hw).bind ?_
  rintro a ⟨v, rest, shorter⟩ ⟨rfl, rfl, hlexical⟩
  exact (hnext _ _ hlexical).bind fun b b' hb => .ok ⟨hb.value, hb.rest, hb.lexical⟩

theorem comesTo_check {judge : α → Except Halt β} {judge' : α → Except Fault β}
    (h : ComesTo SameReading (p w) (q w.stream))
    (hjudge : ∀ a, ComesTo Eq (judge a) (judge' a)) :
    ComesTo SameReading (Reader.check p judge w) (q.check judge' w.stream) := by
  refine h.bind ?_
  rintro a ⟨v, rest, shorter⟩ ⟨rfl, rfl, hlexical⟩
  exact (hjudge _).bind fun b b' hb => .ok ⟨hb, rfl, hlexical⟩

theorem Keeps.check {judge : α → Except Halt β} {judge' : α → Except Fault β}
    (h : p.Keeps q) (hjudge : ∀ a, ComesTo Eq (judge a) (judge' a)) :
    Keeps (Reader.check p judge) (q.check judge') :=
  fun w hw => comesTo_check (h w hw) hjudge

theorem comesTo_unexpected (hw : w.stream.IsLexical) {expected : Expected}
    (hexpected : expected ≠ .numeral) :
    ComesTo SameReading (.error (w.unexpected expected) : Except Halt (Reading α w))
      (.error (w.stream.unexpected expected) : Except Fault (Reading α w.stream)) := by
  rw [w.unexpected_eq]
  exact .fault (Window.isLive_unexpected hw hexpected)

/-- What is taken is of the kind that was seen. -/
theorem comesTo_take {isOfKind : Token → Bool} {content : Option Token → Except Breach α}
    {accepts : Token → Option α} {expected : Expected} (hexpected : expected ≠ .numeral)
    (hw : w.stream.IsLexical)
    (hkind : ∀ t, w.current.1 = some t → isOfKind t = (accepts t).isSome)
    (hcontent : ∀ t a, w.current.1 = some t → accepts t = some a → content (some t) = .ok a) :
    ComesTo SameReading (take isOfKind content expected w)
      (SourceReader.accept accepts expected w.stream) := by
  -- nothing of the kind is ahead, which both report in the same way
  have hrefused (h : w.current.1.any isOfKind = false)
      (haccept : SourceReader.accept accepts expected w.stream =
        .error (w.stream.unexpected expected)) :
      ComesTo SameReading (take isOfKind content expected w)
        (SourceReader.accept accepts expected w.stream) := by
    rw [haccept, take, dif_neg (by simp [h])]
    exact comesTo_unexpected hw hexpected
  cases hcurrent : w.current.1 with
  | none =>
    refine hrefused (by rw [hcurrent]; rfl) ?_
    rw [Window.stream_of_none hcurrent]
    rfl
  | some t =>
    have ht := hkind t hcurrent
    have hstream := Window.stream_of_some hcurrent
    cases ha : accepts t with
    | none =>
      refine hrefused (by rw [hcurrent, Option.any_some, ht, ha]; rfl) ?_
      rw [hstream]
      exact SourceReader.accept_of_eq_none ha
    | some a =>
      rw [ha] at ht
      rw [take, dif_pos (by rw [hcurrent]; exact ht)]
      split
      · rename_i e hadvance
        -- the token behind the one that is taken cannot be formed
        obtain ⟨f, rfl, hbehind⟩ := Window.advance_eq_error hadvance
        rw [hbehind] at hstream
        rw [hstream] at hw ⊢
        rw [SourceReader.accept_fault ha]
        exact .fault hw.2
      · rename_i taken rest hadvance
        obtain ⟨rfl, hbehind⟩ := Window.advance_eq_ok hadvance
        have hopen : (content w.current.1).mapError Halt.breach = .ok a := by
          rw [hcurrent, hcontent t a hcurrent ha]
          rfl
        rw [hbehind] at hstream
        rw [hstream] at hw ⊢
        rw [SourceReader.accept_token ha rest.isSound_stream, bind_of_eq_ok hopen]
        exact .ok ⟨rfl, rfl, hw.2⟩

/-- The token at hand is of the kind, and holds what is accepted. -/
theorem comesTo_take_of_current {isOfKind : Token → Bool}
    {content : Option Token → Except Breach α} {accepts : Token → Option α} {expected : Expected}
    {t : Token} {a : α} (hexpected : expected ≠ .numeral) (hw : w.stream.IsLexical)
    (hcurrent : w.current.1 = some t) (hkind : isOfKind t = true) (haccept : accepts t = some a)
    (hcontent : content (some t) = .ok a) :
    ComesTo SameReading (take isOfKind content expected w)
      (SourceReader.accept accepts expected w.stream) := by
  refine comesTo_take hexpected hw (fun u hu => ?_) fun u b hu hb => ?_
  · obtain rfl := Option.some.inj (hcurrent.symm.trans hu)
    rw [hkind, haccept]
    rfl
  · obtain rfl := Option.some.inj (hcurrent.symm.trans hu)
    obtain rfl := Option.some.inj (haccept.symm.trans hb)
    exact hcontent

variable {expected : Expected} (hexpected : expected ≠ .numeral)
include hexpected

theorem keeps_name : Keeps (name expected : CheckedReader source (String × Position))
    (SourceReader.name expected) := by
  intro w hw
  refine comesTo_take hexpected hw (fun t _ => by cases t <;> rfl) fun t a _ ha => ?_
  cases t with
  | name s => exact congrArg Except.ok (Option.some.inj ha)
  | number x | text x | mark x => cases ha

theorem keeps_mark (m : Mark) :
    Keeps (mark m expected : CheckedReader source Position) (SourceReader.mark m expected) := by
  refine Keeps.check (fun w hw => comesTo_take hexpected hw (fun t _ => ?_) fun t a _ _ => rfl)
    fun a => .ok rfl
  by_cases ht : t = .mark m <;> simp [ht]

/-- Once a mark has been taken, nothing more of it is used. -/
theorem keeps_yield (m : Mark) (a : α) :
    Keeps ((mark m expected : CheckedReader source Position).check fun _ => .ok a)
      ((SourceReader.mark m expected).check fun _ => .ok a) :=
  (keeps_mark hexpected m).check fun _ => .ok rfl

theorem keeps_commaSeparated {item : α → CheckedReader source α} {item' : α → SourceReader α}
    (h : ∀ a, (item a).Keeps (item' a)) (a : α) :
    Keeps (commaSeparated item expected a) (SourceReader.commaSeparated item' expected a) := by
  intro w hw
  induction hn : w.stream.length using Nat.strongRecOn generalizing w a with
  | ind n ih =>
    rw [commaSeparated, SourceReader.commaSeparated, Reader.separated, Reader.separated]
    refine (h a w hw).bind ?_
    rintro one ⟨v, rest, shorter⟩ ⟨rfl, rfl, hlexical⟩
    dsimp only
    rw [one.rest.mark?_stream]
    split
    · refine (keeps_yield hexpected .comma () one.rest hlexical).bind ?_
      rintro gap ⟨v, rest, shorter'⟩ ⟨rfl, rfl, hlexical'⟩
      have hlt : gap.rest.stream.length < n := hn ▸ Nat.lt_trans gap.shorter one.shorter
      exact (ih _ hlt one.value gap.rest hlexical' rfl).bind fun more more' hmore =>
        .ok ⟨hmore.value, hmore.rest, hmore.lexical⟩
    · exact .ok ⟨rfl, rfl, hlexical⟩

omit hexpected

/-- Looking at the second token changes nothing of what is read. -/
theorem comesTo_looking {next : Option Token → CheckedReader source α} {t : Token}
    (hw : w.stream.IsLexical) (hcurrent : w.current.1 = some t)
    (hnext : ∀ rest : Window source, rest.stream = w.stream → rest.current = w.current →
      ComesTo SameReading (next w.stream.second? rest) (q w.stream))
    (hfault : ∀ f, w.stream = .token t w.current.2 (.fault f) → q w.stream = .error f) :
    ComesTo SameReading (looking next w) (q w.stream) := by
  have hstream := Window.stream_of_some hcurrent
  have hsecond := Window.second?_stream hcurrent
  rw [looking]
  split
  · rename_i e hpeek
    obtain ⟨f, rfl, hbehind⟩ := Window.peek_eq_error hpeek
    rw [hbehind] at hstream
    rw [hfault f hstream]
    rw [hstream] at hw
    exact .fault hw.2
  · rename_i second rest hpeek
    obtain ⟨rfl, hsame, hrest⟩ := Window.peek_eq_ok hpeek
    have hread := hnext rest hrest hsame
    rw [hsecond] at hread
    generalize next w.behind.head? rest = x at hread ⊢
    generalize q w.stream = y at hread ⊢
    cases hread with
    | fault live => exact .fault live
    | ok h => exact .ok ⟨h.value, h.rest, h.lexical⟩

theorem comesTo_numberLiteral {x : Float} (hw : w.stream.IsLexical)
    (hcurrent : w.current.1 = some (.number x)) :
    ComesTo SameReading (numberLiteral x w) (SourceReader.literal w.stream) :=
  comesTo_check (comesTo_take_of_current (by decide) hw hcurrent rfl rfl rfl) fun _ => .ok rfl

theorem comesTo_textLiteral {s : String} (hw : w.stream.IsLexical)
    (hcurrent : w.current.1 = some (.text s)) :
    ComesTo SameReading (textLiteral w) (SourceReader.literal w.stream) :=
  comesTo_check (comesTo_take_of_current (by decide) hw hcurrent rfl rfl rfl) fun _ => .ok rfl

/-- With a fault behind it a name cannot be taken. -/
theorem check_name_fault (n : String) (pos : Position) (f : Fault)
    (judge : String × Position → Except Fault α) :
    (SourceReader.name expected).check judge (.token (.name n) pos (.fault f)) = .error f := by
  have hname : SourceReader.name expected (.token (.name n) pos (.fault f)) = .error f :=
    SourceReader.accept_fault (a := n) rfl f
  rw [Reader.check, bind_of_eq_error hname]

theorem comesTo_chainFrom {operand : CheckedReader source Value} {operand' : SourceReader Value}
    (h : operand.Keeps operand') (operator? : Mark → Option Operator) {s : Stream}
    {left : Reading Value w} {left' : Reading Value s} (hleft : SameReading left left') :
    ComesTo SameReading (chainFrom operand operator? left)
      (SourceReader.chainFrom operand' operator? left') := by
  induction hn : left.rest.stream.length using Nat.strongRecOn generalizing left left' with
  | ind n ih =>
    obtain ⟨v, rest, shorter⟩ := left'
    obtain ⟨rfl, rfl, hlexical⟩ := hleft
    rw [chainFrom, SourceReader.chainFrom]
    dsimp only
    rw [left.rest.mark?_stream]
    cases hop : left.rest.mark?.bind operator? with
    | none => exact .ok ⟨rfl, rfl, hlexical⟩
    | some op =>
      have hsign : ComesTo SameReading
          (take (fun t => (t.mark?.bind operator?).isSome) (fun _ => .ok op) .expression left.rest)
          (SourceReader.accept (fun t => t.mark?.bind operator?) .expression left.rest.stream) := by
        refine comesTo_take (by decide) hlexical (fun t _ => rfl) fun t a ht ha => ?_
        rw [Window.mark?, ht, Option.bind_some, ha] at hop
        exact congrArg Except.ok (Option.some.inj hop).symm
      refine hsign.bind ?_
      rintro sign ⟨v, rest, shorter'⟩ ⟨rfl, rfl, hlexical'⟩
      refine (h _ hlexical').bind ?_
      rintro right ⟨v, rest, shorter''⟩ ⟨rfl, rfl, hlexical''⟩
      refine (comesTo_lift (failsLive_binary _ _ _ _)).bind ?_
      rintro v _ rfl
      have hlt : right.rest.stream.length < n := hn ▸ Nat.lt_trans right.shorter sign.shorter
      exact ih _ hlt ⟨rfl, rfl, hlexical''⟩ rfl

theorem keeps_chain {operand : CheckedReader source Value} {operand' : SourceReader Value}
    (h : operand.Keeps operand') (operator? : Mark → Option Operator) :
    Keeps (chain operand operator?) (SourceReader.chain operand' operator?) :=
  fun w hw => (h w hw).bind fun _ _ hleft => comesTo_chainFrom h operator? hleft

end CheckedReader

namespace Checked

open CheckedReader

section Operands

variable {u : CheckedReader source Value} {u' : SourceReader Value} (hu : u.Keeps u')
include hu

theorem keeps_expressionOf : Keeps (expressionOf u) (Glps.expressionOf u') :=
  keeps_chain (keeps_chain hu _) _

theorem keeps_enclosed : Keeps (enclosed u) (Glps.enclosed u') :=
  (keeps_mark (by decide) _).bind fun _ => (keeps_expressionOf hu).bind fun v =>
    keeps_yield (by decide) _ v

theorem keeps_vectorEntry (entries : List Float) :
    Keeps (vectorEntry u entries) (Glps.vectorEntry u' entries) := by
  intro w hw
  rw [vectorEntry, Glps.vectorEntry, w.position?_stream]
  refine (keeps_expressionOf hu).check (fun v => comesTo_lift ?_) w hw
  exact (failsLive_entry _ v).bind fun _ => failsLive_ok _

theorem keeps_vector : Keeps (vector u) (Glps.vector u') := by
  refine (keeps_mark (by decide) _).bind fun _ w hw => ?_
  rw [w.mark?_stream]
  split
  · exact keeps_yield (by decide) _ _ w hw
  · have hentries : Keeps (commaSeparated (vectorEntry u) .entryEnd [])
        (SourceReader.commaSeparated (Glps.vectorEntry u') .entryEnd []) :=
      keeps_commaSeparated (by decide) (keeps_vectorEntry hu) []
    refine hentries.bind (fun xs => ?_) w hw
    exact keeps_yield (by decide) _ _

theorem comesTo_nameOrCall (scope : Scope) {n : String} {w : Window source}
    (hw : w.stream.IsLexical) (hcurrent : w.current.1 = some (.name n)) :
    ComesTo SameReading (nameOrCall scope u n w) (Glps.nameOrCall scope u' n w.stream) := by
  have hvalue : Keeps ((name .expression : CheckedReader source _).check
      fun t => lift (scope.value n t.2))
      ((SourceReader.name .expression).check fun t => scope.value n t.2) :=
    (keeps_name (by decide)).check fun t => comesTo_lift (failsLive_value _ scope n)
  rw [nameOrCall]
  refine comesTo_looking hw hcurrent (fun rest hrest hsame => ?_) fun f hstream => ?_
  · have hlexical : rest.stream.IsLexical := hrest ▸ hw
    rw [Glps.nameOrCall, ← hrest]
    cases Function.ofName? n with
    | none => exact hvalue rest hlexical
    | some f =>
      dsimp only
      split
      · refine (keeps_name (by decide)).bind (fun t => ?_) rest hlexical
        exact (keeps_enclosed hu).check fun v => comesTo_lift (failsLive_call _ _ v)
      · exact hvalue rest hlexical
  · -- with a fault behind the name it is no call
    rw [hstream, Glps.nameOrCall]
    cases Function.ofName? n with
    | none => exact check_name_fault n _ f _
    | some function =>
      have hsecond : (Stream.token (.name n) w.current.2 (.fault f)).second? ≠
          some (.mark .openParen) := by
        intro h
        cases h
      exact (if_neg hsecond).trans (check_name_fault n _ f _)

theorem keeps_primary (scope : Scope) : Keeps (primary scope u) (Glps.primary scope u') := by
  intro w hw
  have hrefused (h : SourceReader.literal w.stream =
      .error (w.stream.unexpected .expression)) :
      ComesTo SameReading (.error (w.unexpected .expression) : Except Halt (Reading Value w))
        (SourceReader.literal w.stream) := by
    rw [h]
    exact comesTo_unexpected hw (by decide)
  rw [primary, Glps.primary, w.head?_stream]
  cases hcurrent : w.current.1 with
  | none =>
    refine hrefused ?_
    rw [Window.stream_of_none hcurrent]
    rfl
  | some t =>
    have hstream := Window.stream_of_some hcurrent
    cases t with
    | name n => exact comesTo_nameOrCall hu scope hw hcurrent
    | number x => exact comesTo_numberLiteral hw hcurrent
    | text s => exact comesTo_textLiteral hw hcurrent
    | mark m =>
      have hliteral : SourceReader.literal w.stream =
          .error (w.stream.unexpected .expression) := by
        rw [hstream]
        exact bind_of_eq_error (SourceReader.accept_of_eq_none rfl) _
      cases m with
      | openParen => exact keeps_enclosed hu w hw
      | openBracket => exact keeps_vector hu w hw
      | _ => exact hrefused hliteral

end Operands

theorem keeps_unary (scope : Scope) (depth : Nat) :
    Keeps (unary scope depth : CheckedReader source Value) (Glps.unary scope depth) := by
  induction depth with
  | zero =>
    intro w hw
    exact comesTo_unexpected hw (by decide)
  | succ depth ih =>
    intro w hw
    unfold unary Glps.unary
    rw [w.mark?_stream]
    split
    · refine (keeps_mark (by decide) _).bind (fun pos => ?_) w hw
      exact ih.check fun v => comesTo_lift (failsLive_negate pos v)
    · exact keeps_primary ih scope w hw

theorem keeps_expression (scope : Scope) :
    Keeps (expression scope : CheckedReader source Value) (Glps.expression scope) :=
  keeps_expressionOf (keeps_unary scope maxNesting)

variable {scope : Scope}

theorem keeps_valueDefinition (n : String) (pos : Position) :
    Keeps (valueDefinition scope n pos : CheckedReader source Scope)
      (Glps.valueDefinition scope n pos) :=
  (keeps_mark (by decide) _).bind fun _ => (keeps_expression scope).bind fun _ =>
    (keeps_mark (by decide) _).check fun _ => comesTo_lift (failsLive_define _ _ _ _)

theorem keeps_parameter (params : Dictionary Value) :
    Keeps (parameter scope params : CheckedReader source _) (Glps.parameter scope params) := by
  refine (keeps_name (by decide)).bind fun n => (keeps_mark (by decide) _).bind fun _ =>
    (keeps_expression scope).check fun v => comesTo_lift ?_
  split
  · exact failsLive_error trivial
  · exact failsLive_ok _

theorem keeps_parameters (params : Dictionary Value) :
    Keeps (parameters scope params : CheckedReader source _) (Glps.parameters scope params) := by
  intro w hw
  induction hn : w.stream.length using Nat.strongRecOn generalizing w params with
  | ind n ih =>
    rw [parameters, Glps.parameters, w.mark?_stream]
    split
    · refine (keeps_mark (by decide) _ w hw).bind ?_
      rintro comma ⟨v, rest, shorter⟩ ⟨rfl, rfl, hlexical⟩
      refine (keeps_parameter params _ hlexical).bind ?_
      rintro one ⟨v, rest, shorter'⟩ ⟨rfl, rfl, hlexical'⟩
      have hlt : one.rest.stream.length < n := hn ▸ Nat.lt_trans one.shorter comma.shorter
      exact (ih _ hlt one.value one.rest hlexical' rfl).bind fun more more' hmore =>
        .ok ⟨hmore.value, hmore.rest, hmore.lexical⟩
    · exact keeps_yield (by decide) _ params w hw

theorem keeps_elementDefinition (n : String) (pos : Position) (kind : String) :
    Keeps (elementDefinition scope n pos kind : CheckedReader source Scope)
      (Glps.elementDefinition scope n pos kind) :=
  (keeps_parameters ∅).check fun _ => comesTo_lift (failsLive_define _ _ _ _)

theorem keeps_repeatedItem (built : List Component) :
    Keeps (repeatedItem scope built : CheckedReader source _) (Glps.repeatedItem scope built) := by
  intro w hw
  rw [repeatedItem, Glps.repeatedItem, w.position?_stream]
  refine (keeps_unary scope maxNesting).bind (fun factor => ?_) w hw
  refine (keeps_mark (by decide) _).bind fun _ => (keeps_name (by decide)).check fun n =>
    comesTo_lift ?_
  exact (failsLive_repeatCount _ factor).bind fun count => failsLive_append _ scope n.1 built count

theorem keeps_lineItem (built : List Component) :
    Keeps (lineItem scope built : CheckedReader source _) (Glps.lineItem scope built) := by
  have hrepeated : Keeps (repeatedItem scope built : CheckedReader source _)
      (Glps.repeatedItem scope built) := keeps_repeatedItem built
  have honce : Keeps ((name .target : CheckedReader source _).check
      fun n => lift (append scope built n.1 1 n.2))
      ((SourceReader.name .target).check fun n => append scope built n.1 1 n.2) :=
    (keeps_name (by decide)).check fun n => comesTo_lift (failsLive_append _ scope n.1 built 1)
  intro w hw
  rw [lineItem]
  cases hcurrent : w.current.1 with
  | none =>
    rw [Glps.lineItem, w.head?_stream, hcurrent]
    exact hrepeated w hw
  | some t =>
    cases t with
    | number x | text x | mark m =>
      rw [Glps.lineItem, w.head?_stream, hcurrent]
      exact hrepeated w hw
    | name n =>
      refine comesTo_looking hw hcurrent (fun rest hrest hsame => ?_) fun f hstream => ?_
      · have hlexical : rest.stream.IsLexical := hrest ▸ hw
        rw [← hrest, Glps.lineItem, rest.head?_stream, hsame, hcurrent]
        cases rest.stream.second? with
        | none => exact honce rest hlexical
        | some u =>
          cases u with
          | number x | text x | name x => exact honce rest hlexical
          | mark m =>
            cases m with
            | star | openParen => exact hrepeated rest hlexical
            | _ => exact honce rest hlexical
      · rw [hstream]
        exact check_name_fault n _ f fun n => append scope built n.1 1 n.2

theorem keeps_lineDefinition (n : String) (pos : Position) :
    Keeps (lineDefinition scope n pos : CheckedReader source Scope)
      (Glps.lineDefinition scope n pos) :=
  (keeps_mark (by decide) _).bind fun _ => (keeps_mark (by decide) _).bind fun _ =>
    (keeps_commaSeparated (by decide) keeps_lineItem _).bind fun _ =>
      (keeps_mark (by decide) _).bind fun _ =>
        (keeps_mark (by decide) _).check fun _ => comesTo_lift (failsLive_define _ _ _ _)

theorem keeps_componentDefinition (n : String) (pos : Position) :
    Keeps (componentDefinition scope n pos : CheckedReader source Scope)
      (Glps.componentDefinition scope n pos) := by
  refine (keeps_mark (by decide) _).bind fun _ => (keeps_name (by decide)).bind fun kind w hw => ?_
  rw [w.mark?_stream]
  split
  · exact keeps_lineDefinition n pos w hw
  · exact keeps_elementDefinition n pos kind.1 w hw

theorem keeps_statement (scope : Scope) :
    Keeps (statement scope : CheckedReader source Scope) (Glps.statement scope) := by
  refine (keeps_name (by decide)).bind fun n w hw => ?_
  rw [w.mark?_stream]
  cases w.mark? with
  | none => exact comesTo_unexpected hw (by decide)
  | some m =>
    cases m with
    | equals => exact keeps_valueDefinition n.1 n.2 w hw
    | colon => exact keeps_componentDefinition n.1 n.2 w hw
    | _ => exact comesTo_unexpected hw (by decide)

theorem comesTo_program (scope : Scope) {w : Window source} (hw : w.stream.IsLexical) :
    ComesTo Eq (program scope w) (Glps.program scope w.stream) := by
  induction hn : w.stream.length using Nat.strongRecOn generalizing w scope with
  | ind n ih =>
    rw [program, Glps.program, w.isFinish_stream]
    split
    · exact .ok rfl
    · refine (keeps_statement scope w hw).bind ?_
      rintro one ⟨v, rest, shorter⟩ ⟨rfl, rfl, hlexical⟩
      exact ih _ (hn ▸ one.shorter) one.value hlexical rfl

theorem program_fault (scope : Scope) (f : Fault) :
    Glps.program scope (.fault f) = .error f := by
  rw [Glps.program]
  rfl

theorem comesTo_read (source : List UInt8) : ComesTo Eq (read source) (Glps.read source) := by
  have hlexical : (Stream.ofSource source).IsLexical := isLexical_ofBytes _ _
  have hmeets : Cursor.Meets (Stream.ofSource source) ({} : Cursor source).next :=
    Cursor.meets_next ({} : Cursor source)
  rw [read, Glps.read]
  generalize ({} : Cursor source).next = first at hmeets ⊢
  cases hmeets with
  | fault h =>
    rw [h] at hlexical
    rw [h, program_fault]
    exact .fault hlexical
  | @placed p behind h =>
    have hprogram : ComesTo Eq
        (program {} ({ current := p, cursor := behind } : Window source))
        (Glps.program {} (Stream.ofSource source)) := by
      rw [h] at hlexical ⊢
      exact comesTo_program _ hlexical
    refine hprogram.bind ?_
    rintro scope _ rfl
    refine comesTo_lift ?_
    unfold Scope.lattice
    split
    · exact failsLive_ok _
    · exact failsLive_error trivial

end Checked

/-- What is promised of reading a source with checks. -/
structure IsUnbreached (source : List UInt8) : Prop where
  /-- Wherever the next token is looked for, it is cut out of the source, is a text, and is read. -/
  lexing : ∀ (c : Cursor source) (b : Breach), c.next ≠ .error (.breach b)
  /-- Every token that is taken is of the kind that was seen, and every token that a syntax error
  shows has a description. -/
  reading : ∀ b : Breach, Checked.read source ≠ .error (.breach b)
  /-- The checks change nothing. -/
  same : Checked.read source = lift (read source)
  /-- No syntax error is about a numeral, and none shows a token without a description. -/
  refusals : ∀ pos expected found, read source = .error (.unexpected pos expected found) →
    expected ≠ .numeral ∧ '?' ∉ found.toList

theorem isUnbreached (source : List UInt8) : IsUnbreached source where
  lexing c b h := by
    have hmeets := c.meets_next
    rw [h] at hmeets
    cases hmeets
  reading b h := by
    have hread := Checked.comesTo_read source
    rw [h] at hread
    generalize read source = y at hread
    cases hread
  same := by
    have hread := Checked.comesTo_read source
    generalize Checked.read source = x at hread ⊢
    generalize read source = y at hread ⊢
    cases hread with
    | fault live => rfl
    | ok h => exact congrArg Except.ok h
  refusals pos expected found h := by
    have hread := Checked.comesTo_read source
    rw [h] at hread
    generalize Checked.read source = x at hread
    cases hread with
    | fault live => exact live

end BeamEnvelope.Glps
