import BeamEnvelope.Proofs.Glps.Layout
import BeamEnvelope.Proofs.Glps.References
import BeamEnvelope.Proofs.Glps.Unambiguity

/-!
# Statements that do not refer to each other

A statement looks at the environment in front of it and adds one binding behind. Two statements of
different names that do not refer to each other add the same bindings in either order, and what
follows them looks up the same. Only the last line of a program depends on the order, so one of the
two may be no line, or a line follows them.
-/

namespace BeamEnvelope.Glps

open Grammar

variable {env env' final : Environment} {st first second : Statement} {front behind p : Program}
  {lattice : Lattice}

theorem Grammar.Statement.extend?_eq_some : st.extend? env = some final ↔
    ∃ symbol, st.symbol? env = some symbol ∧ env.lookup st.name = none ∧
      final = env ++ [(st.name, symbol)] := by
  simp only [Statement.extend?, Option.bind_eq_bind, Option.bind_eq_some_iff]
  refine exists_congr fun symbol => and_congr_right fun _ => ?_
  cases env.lookup st.name with
  | none => simp [eq_comm]
  | some old => simp

def Grammar.Statement.isLine : Statement → Bool
  | line .. => true
  | _ => false

theorem isLine_eq {symbol : Symbol} (h : st.symbol? env = some symbol) :
    symbol.line?.isSome = st.isLine := by
  cases st with
  | value n e =>
    obtain ⟨v, -, hv⟩ := Option.bind_eq_some_iff.1 h
    cases hv
    rfl
  | element n kind params =>
    obtain ⟨values, -, hvalues⟩ := Option.bind_eq_some_iff.1 h
    split at hvalues
    · cases hvalues
      rfl
    · cases hvalues
  | line n keyword hline first others =>
    obtain ⟨parts, -, hparts⟩ := Option.bind_eq_some_iff.1 h
    split at hparts
    · cases hparts
      rfl
    · cases hparts

/-- A run adds bindings behind an environment, the same ones wherever all names are bound alike. -/
theorem exists_bindings_of_run (henv : ∀ n, env.lookup n = env'.lookup n)
    (h : p.foldlM Statement.extend? env = some final) : ∃ bs : Environment,
      final = env ++ bs ∧ p.foldlM Statement.extend? env' = some (env' ++ bs) ∧
      bs.map (·.2.line?.isSome) = p.map Statement.isLine := by
  induction p generalizing env env' with
  | nil =>
    obtain rfl := Option.some.inj h
    exact ⟨[], by simp, by simp, rfl⟩
  | cons st p ih =>
    simp only [List.foldlM_cons, Option.bind_eq_bind, Option.bind_eq_some_iff] at h
    obtain ⟨next, hst, h⟩ := h
    obtain ⟨symbol, hsymbol, hnew, rfl⟩ := Statement.extend?_eq_some.1 hst
    have hst' : st.extend? env' = some (env' ++ [(st.name, symbol)]) := by
      refine Statement.extend?_eq_some.2 ⟨symbol, ?_, ?_, rfl⟩
      · rw [← hsymbol]
        exact (st.symbol?_congr fun n _ => henv n).symm
      · rw [← henv, hnew]
    have hnext (n : String) : (env ++ [(st.name, symbol)]).lookup n =
        (env' ++ [(st.name, symbol)]).lookup n := by
      rw [List.lookup_append, List.lookup_append, henv]
    obtain ⟨bs, rfl, hrun, hlines⟩ := ih hnext h
    refine ⟨(st.name, symbol) :: bs, by simp, ?_, ?_⟩
    · simp [hst', hrun]
    · rw [List.map_cons, List.map_cons, hlines, isLine_eq hsymbol]

/-- The names of the two differ, and neither refers to the other's. -/
structure Independent (first second : Statement) : Prop where
  names : first.name ≠ second.name
  left : second.name ∉ first.references
  right : first.name ∉ second.references

theorem lookup_append_of_ne {n m : String} (h : n ≠ m) (symbol : Symbol) :
    (env ++ [(m, symbol)]).lookup n = env.lookup n := by
  have hne : (n == m) = false := beq_eq_false_iff_ne.2 h
  simp [List.lookup_append, List.lookup_cons, hne]

/-- A binding that a statement does not refer to may be made in front of it. -/
theorem symbol?_append {n : String} (h : n ∉ st.references) (symbol : Symbol) :
    st.symbol? (env ++ [(n, symbol)]) = st.symbol? env :=
  st.symbol?_congr fun m hm => lookup_append_of_ne (fun heq : m = n => h (heq ▸ hm)) symbol

theorem run_swap (h : Independent first second)
    (hrun : [first, second].foldlM Statement.extend? env = some final) :
    ∃ a b, final = env ++ [(first.name, a), (second.name, b)] ∧
      [second, first].foldlM Statement.extend? env =
        some (env ++ [(second.name, b), (first.name, a)]) ∧
      a.line?.isSome = first.isLine ∧ b.line?.isSome = second.isLine := by
  simp only [List.foldlM_cons, List.foldlM_nil, Option.bind_eq_bind,
    Option.bind_eq_some_iff] at hrun
  obtain ⟨next, hfirst, last, hsecond, hlast⟩ := hrun
  obtain ⟨a, ha, hnewFirst, rfl⟩ := Statement.extend?_eq_some.1 hfirst
  obtain ⟨b, hb, hnewSecond, rfl⟩ := Statement.extend?_eq_some.1 hsecond
  obtain rfl := Option.some.inj hlast
  rw [symbol?_append h.right] at hb
  rw [lookup_append_of_ne h.names.symm] at hnewSecond
  have hsecond' : second.extend? env = some (env ++ [(second.name, b)]) :=
    Statement.extend?_eq_some.2 ⟨b, hb, hnewSecond, rfl⟩
  have hfirst' : first.extend? (env ++ [(second.name, b)]) =
      some (env ++ [(second.name, b)] ++ [(first.name, a)]) := by
    refine Statement.extend?_eq_some.2 ⟨a, ?_, ?_, rfl⟩
    · rw [symbol?_append h.left, ha]
    · rw [lookup_append_of_ne h.names, hnewFirst]
  exact ⟨a, b, by simp, by simp [hsecond', hfirst'], isLine_eq ha, isLine_eq hb⟩

section Lattices

variable {γ : Type} {x y : String × Symbol} {more : Environment}

/-- Of two neighbours of which one is left out, the order does not matter. -/
theorem filterMap_swap {f : String × Symbol → Option γ} (h : f x = none ∨ f y = none) :
    (env ++ x :: y :: more).filterMap f = (env ++ y :: x :: more).filterMap f := by
  rcases h with h | h <;> simp [List.filterMap_append, List.filterMap_cons, h]

theorem getLast?_filterMap_swap {f : String × Symbol → Option γ}
    (h : f x = none ∨ f y = none ∨ ∃ b ∈ more, f b ≠ none) :
    ((env ++ x :: y :: more).filterMap f).getLast? =
      ((env ++ y :: x :: more).filterMap f).getLast? := by
  rcases h with h | h | ⟨b, hb, hne⟩
  · rw [filterMap_swap (.inl h)]
  · rw [filterMap_swap (.inr h)]
  · -- the last one kept stands behind the two
    have hmore : more.filterMap f ≠ [] := by
      obtain ⟨c, hc⟩ := Option.ne_none_iff_exists'.1 hne
      exact List.ne_nil_of_mem (List.mem_filterMap.2 ⟨b, hb, hc⟩)
    have hlast (x y : String × Symbol) : ((env ++ x :: y :: more).filterMap f).getLast? =
        (more.filterMap f).getLast? := by
      have hsplit : env ++ x :: y :: more = (env ++ [x, y]) ++ more := by simp
      rw [hsplit, List.filterMap_append, List.getLast?_append_of_ne_nil _ hmore]
    rw [hlast, hlast]

theorem globals_swap (h : x.1 ≠ y.1) :
    (Dictionary.ofList ((env ++ x :: y :: more).filterMap fun b => b.2.value?.map (b.1, ·))) =
      .ofList ((env ++ y :: x :: more).filterMap fun b => b.2.value?.map (b.1, ·)) := by
  cases hx : x.2.value? with
  | none => rw [filterMap_swap (.inl (by simp [hx]))]
  | some v =>
    cases hy : y.2.value? with
    | none => rw [filterMap_swap (.inr (by simp [hy]))]
    | some w =>
      simp only [List.filterMap_append, List.filterMap_cons, hx, hy, Option.map_some]
      exact Dictionary.ofList_swap h

theorem lattice?_environment_swap (h : x.1 ≠ y.1)
    (hlines : x.2.line? = none ∨ y.2.line? = none ∨ ∃ b ∈ more, b.2.line? ≠ none) :
    Environment.lattice? (env ++ x :: y :: more) =
      Environment.lattice? (env ++ y :: x :: more) := by
  rw [Environment.lattice?, Environment.lattice?, globals_swap h,
    getLast?_filterMap_swap (x := x) (y := y)]
  simpa using hlines

end Lattices

/-- The two may change places, unless both are lines and the latter is the last one of the
program. -/
theorem lattice?_swap (hindependent : Independent first second)
    (hlines : first.isLine = true → second.isLine = true → ∃ st ∈ behind, st.isLine = true)
    (h : Program.lattice? (front ++ first :: second :: behind) = some lattice) :
    Program.lattice? (front ++ second :: first :: behind) = some lattice := by
  have hsplit (first second : Statement) :
      front ++ first :: second :: behind = front ++ ([first, second] ++ behind) := rfl
  obtain ⟨last, hrun, hlattice⟩ := Option.bind_eq_some_iff.1 h
  rw [hsplit, List.foldlM_append] at hrun
  obtain ⟨env, hfront, hrun⟩ := Option.bind_eq_some_iff.1 hrun
  rw [List.foldlM_append] at hrun
  obtain ⟨mid, hpair, hbehind⟩ := Option.bind_eq_some_iff.1 hrun
  obtain ⟨a, b, rfl, hswapped, ha, hb⟩ := run_swap hindependent hpair
  have hlookup (n : String) : (env ++ [(first.name, a), (second.name, b)]).lookup n =
      (env ++ [(second.name, b), (first.name, a)]).lookup n := lookup_swap hindependent.names n
  obtain ⟨more, rfl, hmore, hkinds⟩ := exists_bindings_of_run hlookup hbehind
  have hswap : Environment.lattice? (env ++ (first.name, a) :: (second.name, b) :: more) =
      Environment.lattice? (env ++ (second.name, b) :: (first.name, a) :: more) := by
    refine lattice?_environment_swap hindependent.names ?_
    -- the last line stays the last one: only two lines with none behind them would change places
    by_cases hfirst : first.isLine = true
    · by_cases hsecond : second.isLine = true
      · obtain ⟨st, hst, hline⟩ := hlines hfirst hsecond
        have hmem : true ∈ more.map (·.2.line?.isSome) := by
          rw [hkinds]
          exact List.mem_map.2 ⟨st, hst, hline⟩
        obtain ⟨c, hc, hsome⟩ := List.mem_map.1 hmem
        exact .inr (.inr ⟨c, hc, Option.isSome_iff_ne_none.1 hsome⟩)
      · exact .inr (.inl (by simpa [hsecond] using hb))
    · exact .inl (by simpa [hfirst] using ha)
  refine Option.bind_eq_some_iff.2 ⟨env ++ (second.name, b) :: (first.name, a) :: more, ?_, ?_⟩
  · rw [hsplit, List.foldlM_append]
    refine Option.bind_eq_some_iff.2 ⟨env, hfront, ?_⟩
    rw [List.foldlM_append]
    refine Option.bind_eq_some_iff.2 ⟨_, hswapped, ?_⟩
    simpa using hmore
  · rw [← hswap]
    simpa using hlattice

section Texts

open Bytes

variable {l : Lexeme} {ls : List Lexeme} {bytes layout : List UInt8} {ts : List Token}

/-- The bytes are lexemes of the tokens, and layout behind them in which no comment is open. -/
structure IsTextOf (bytes : List UInt8) (ts : List Token) : Prop where
  tokens : (lexemes bytes).map Lexeme.token = ts
  layout : ∃ layout, bytes = (lexemes bytes).flatMap Lexeme.extent ++ layout ∧ IsLayout layout

theorem lexes_of_heads {rest : List UInt8} (h : l.Heads rest) :
    Lexes (l.extent ++ rest) [l.token] rest := by
  intro pos
  rw [ofBytes_of_heads h]
  exact ⟨_, .cons _ _ (.nil _)⟩

/-- Lexemes of which the last one is a semicolon stay what they are, whatever follows. -/
theorem Lexed.lexes_append (h : Lexed bytes ls)
    (hlast : ∀ l, ls.getLast? = some l → l.token = .mark .semicolon) (hlayout : IsLayout layout)
    (hbytes : bytes = ls.flatMap Lexeme.extent ++ layout) (rest : List UInt8) :
    Lexes (bytes ++ rest) (ls.map Lexeme.token) rest := by
  induction h with
  | stop =>
    rw [hbytes]
    exact lexes_layout layout (hlayout.layoutWidth_append rest)
  | step hheads more ih =>
    rename_i l ls behind
    rw [List.flatMap_cons, List.append_assoc, List.append_cancel_left_eq] at hbytes
    -- the semicolon is this token or stands behind it
    have hmem : semicolon ∈ l.first :: (l.others ++ behind) := by
      cases hls : ls.getLast? with
      | none =>
        obtain rfl := List.getLast?_eq_none_iff.1 hls
        have hscan := hheads.scan
        rw [hlast l rfl] at hscan
        rw [(eq_semicolon_of_scan hscan).1]
        exact List.mem_cons_self
      | some last =>
        have hmemLast := List.mem_of_getLast? hls
        obtain ⟨rest, hlastHeads⟩ := more.heads_of_mem hmemLast
        have hscan := hlastHeads.scan
        rw [hlast last (by rw [List.getLast?_cons, hls]; rfl)] at hscan
        have hextent : semicolon ∈ last.extent := by
          simp [Lexeme.extent, Lexeme.body, (eq_semicolon_of_scan hscan).1]
        refine List.mem_cons_of_mem _ (List.mem_append_right _ ?_)
        rw [hbytes]
        exact List.mem_append_left _ (List.mem_flatMap.2 ⟨last, hmemLast, hextent⟩)
    have hlonger : l.Heads (behind ++ rest) := by
      refine ⟨hheads.layout, hheads.blank, hheads.hash, ?_⟩
      rw [← List.append_assoc]
      exact scan_append hheads.scan hmem
    rw [List.append_assoc, List.map_cons]
    refine (lexes_of_heads hlonger).append (ih (fun l' hl' => hlast l' ?_) hbytes)
    rw [List.getLast?_cons, hl']
    rfl

theorem IsTextOf.lexes (h : IsTextOf bytes ts)
    (hlast : ∀ t, ts.getLast? = some t → t = .mark .semicolon) (rest : List UInt8) :
    Lexes (bytes ++ rest) ts rest := by
  obtain ⟨layout, hbytes, hlayout⟩ := h.layout
  rw [← h.tokens]
  refine (lexed bytes).lexes_append (fun l hl => hlast _ ?_) hlayout hbytes rest
  rw [← h.tokens, List.getLast?_map, hl]
  rfl

theorem Statement.getLast?_tokens (st : Statement) :
    st.tokens.getLast? = some (.mark .semicolon) := by
  cases st <;> simp [Statement.tokens, List.getLast?_cons, List.getLast?_append]

theorem Program.getLast?_tokens (p : Program) {t : Token} (h : p.tokens.getLast? = some t) :
    t = .mark .semicolon := by
  rcases List.eq_nil_or_concat p with rfl | ⟨p, st, rfl⟩
  · cases h
  · rw [Program.tokens, List.concat_eq_append, List.flatMap_append, List.flatMap_singleton,
      List.getLast?_append, Statement.getLast?_tokens] at h
    exact (Option.some.inj h).symm

/-- The tokens of a source do not depend on where it stands. -/
theorem tokens?_ofBytes (bytes : List UInt8) (pos : Position) :
    (Stream.ofBytes pos bytes).tokens? = (Stream.ofSource bytes).tokens? := by
  have hsame (s : Stream) : s.outline.tokens? = s.tokens? := by
    induction s with
    | token t pos rest ih => simp [Stream.outline, Stream.tokens?, ih]
    | finish pos => rfl
    | fault f => rfl
  rw [← hsame, outline_ofBytes bytes pos {}, hsame, Stream.ofSource]

theorem Program.tokens_cons (st : Statement) (p : Program) :
    Program.tokens (st :: p) = st.tokens ++ p.tokens := List.flatMap_cons

/-- A program whose tokens begin with those of another one begins with it. -/
theorem exists_behind_of_tokens_eq (h : p.tokens = front.tokens ++ ts) :
    ∃ behind, p = front ++ behind ∧ behind.tokens = ts := by
  induction front generalizing p with
  | nil => exact ⟨p, rfl, h⟩
  | cons st front ih =>
    rw [Program.tokens_cons, List.append_assoc] at h
    cases p with
    | nil =>
      obtain ⟨t, us, ht⟩ := Statement.tokens_eq_cons st
      rw [ht] at h
      cases h
    | cons st' p =>
      rw [Program.tokens_cons] at h
      obtain ⟨rfl, hbehind⟩ := determined_statement trivial h trivial trivial
      obtain ⟨behind, rfl, htokens⟩ := ih hbehind
      exact ⟨behind, rfl, htokens⟩

variable {b₁ b₂ : List UInt8}

theorem lexes_neighbours {b : List UInt8} (hfront : IsTextOf b front.tokens)
    (hfirst : IsTextOf b₁ first.tokens) (hsecond : IsTextOf b₂ second.tokens) (rest : List UInt8) :
    Lexes (b ++ b₁ ++ b₂ ++ rest) (front ++ [first, second] : Program).tokens rest := by
  have hstatement (st : Statement) (t : Token) (ht : st.tokens.getLast? = some t) :
      t = .mark .semicolon := by
    rw [Statement.getLast?_tokens] at ht
    exact (Option.some.inj ht).symm
  have hlexes := (hfront.lexes (fun t => Program.getLast?_tokens front) _).append
    ((hfirst.lexes (hstatement first) _).append (hsecond.lexes (hstatement second) rest))
  simpa [Program.tokens] using hlexes

/-- Two neighbouring statements that do not refer to each other may change places in a source that
describes a lattice, unless both define lines and no line is defined behind them. -/
theorem read_swap {b behind : List UInt8} (hfront : IsTextOf b front.tokens)
    (hfirst : IsTextOf b₁ first.tokens) (hsecond : IsTextOf b₂ second.tokens)
    (hindependent : Independent first second)
    (hlines : first.isLine = true → second.isLine = true → ∃ p : Program,
      (Stream.ofSource behind).tokens? = some p.tokens ∧ ∃ st ∈ p, st.isLine = true)
    (h : read (b ++ b₁ ++ b₂ ++ behind) = .ok lattice) :
    read (b ++ b₂ ++ b₁ ++ behind) = .ok lattice := by
  obtain ⟨p, pos, htokens, hnest, hlattice⟩ := exists_program_of_read h
  obtain ⟨pos₁, hbegins⟩ := lexes_neighbours hfront hfirst hsecond behind {}
  have hall := hbegins.tokens?
  rw [← Stream.ofSource, Stream.tokens?_eq_some.2 ⟨pos, htokens⟩, tokens?_ofBytes] at hall
  obtain ⟨us, hus, hp⟩ := Option.map_eq_some_iff.1 hall.symm
  obtain ⟨more, rfl, rfl⟩ := exists_behind_of_tokens_eq hp.symm
  have hlines' : first.isLine = true → second.isLine = true → ∃ st ∈ more, st.isLine = true := by
    intro h₁ h₂
    obtain ⟨p', hp', hline⟩ := hlines h₁ h₂
    rw [hus] at hp'
    rw [Program.eq_of_tokens_eq (Option.some.inj hp')]
    exact hline
  obtain ⟨pos₂, hswapped⟩ := lexes_neighbours hfront hsecond hfirst behind {}
  obtain ⟨pos₃, hend⟩ := Stream.tokens?_eq_some.1 ((tokens?_ofBytes behind pos₂).trans hus)
  have hrun : Program.lattice? (front ++ second :: first :: more) = some lattice :=
    lattice?_swap hindependent hlines' (by simpa using hlattice)
  have hwhole : (Stream.ofSource (b ++ b₂ ++ b₁ ++ behind)).Begins
      (Program.tokens (front ++ second :: first :: more)) (.finish pos₃) := by
    simpa [Program.tokens, Stream.ofSource] using hswapped.append hend
  refine read_of_program hwhole (fun st hst => hnest st ?_) hrun
  simp only [List.mem_append, List.mem_cons] at hst ⊢
  tauto

def markerText : List UInt8 := bytesOf "m: marker; "

def onceText : List UInt8 := bytesOf "once: LINE = (m);"

def twiceText : List UInt8 := bytesOf "twice: line = (2 * m);# two\n"

def allText : List UInt8 := bytesOf "all: LINE = (twice, once);"

def onceLine : Statement := .line "once" "LINE" (by decide +kernel) (.once "m") []

def twiceLine : Statement := .line "twice" "line" (by decide +kernel)
  (.repeated (.primary (.literal (.number 2.0))) "m") []

def allLine : Statement :=
  .line "all" "LINE" (by decide +kernel) (.once "twice") [.once "once"]

theorem isTextOf_markerText : IsTextOf markerText (Program.tokens [.element "m" "marker" []]) :=
  ⟨by decide +kernel, [32], by decide +kernel, .blank rfl .nil⟩

theorem isTextOf_onceText : IsTextOf onceText onceLine.tokens :=
  ⟨by decide +kernel, [], by decide +kernel, .nil⟩

theorem isTextOf_twiceText : IsTextOf twiceText twiceLine.tokens :=
  ⟨by decide +kernel, hash :: (bytesOf " two" ++ [Position.newline]), by decide +kernel,
    .comment (by decide +kernel) .nil⟩

/-- Two lines of a marker change places in front of a line that uses both. -/
theorem lines_read_swap : ∃ lattice,
    read (markerText ++ onceText ++ twiceText ++ allText) = .ok lattice ∧
    read (markerText ++ twiceText ++ onceText ++ allText) = .ok lattice := by
  have hindependent : Independent onceLine twiceLine := ⟨by decide, by decide, by decide⟩
  have hall : (Stream.ofSource allText).tokens? = some (Program.tokens [allLine]) := by
    decide +kernel
  have hok : (read (markerText ++ onceText ++ twiceText ++ allText)).isOk = true := by
    decide +kernel
  cases hread : read (markerText ++ onceText ++ twiceText ++ allText) with
  | error f =>
    rw [hread] at hok
    cases hok
  | ok lattice =>
    exact ⟨lattice, rfl, read_swap isTextOf_markerText isTextOf_onceText isTextOf_twiceText
      hindependent (fun _ _ => ⟨[allLine], hall, allLine, by simp, rfl⟩) hread⟩

end Texts

end BeamEnvelope.Glps
