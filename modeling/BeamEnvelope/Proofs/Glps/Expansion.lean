import BeamEnvelope.Proofs.Glps.PrintedTrees
import BeamEnvelope.Proofs.Glps.TwoPhases

/-!
# Lines that grow too long

A line of element names is read one name after another, and the first name with which the line would
hold more than `maxElements` components is refused. Nothing behind that name is read any more, so a
source with such a line behind definitions that can be read is refused for its expansion.
-/

namespace BeamEnvelope.Glps

open Grammar SourceReader Reader

variable {scope : Scope} {s rest : Stream} {n : String} {others : List String}
  {built : List Component}

def AreElements (env : Environment) (names : List String) : Prop :=
  ∀ n ∈ names, ∃ c, env.lookup n = some (.element c)

theorem lineItem_overflow {c : Component} {pos : Position}
    (hn : scope.environment.lookup n = some (.element c)) (hbuilt : maxElements ≤ built.length)
    (hrest : rest.mark? = some .comma ∨ rest.mark? = some .closeParen) :
    lineItem scope built (.token (.name n) pos rest) = .error (.overflow pos .expansion) := by
  have hcomponents : scope.components n pos = .ok [c] :=
    Scope.components_eq_ok.2 ⟨.element c, hn, rfl⟩
  have happend : append scope built n 1 pos = .error (.overflow pos .expansion) := by
    have hlong : ¬ built.length + 1 * [c].length ≤ maxElements :=
      Nat.not_le.2 (Nat.lt_succ_of_le hbuilt)
    rw [append, bind_of_eq_ok hcomponents, if_neg hlong]
  have hsound : rest.IsSound := hrest.elim Stream.isSound_of_mark? Stream.isSound_of_mark?
  have hread : (name .target).Reads (.token (.name n) pos rest) (n, pos) rest :=
    reads_name.2 ⟨rfl, hsound⟩
  have hcheck := hread.check_eq_error (f := fun n => append scope built n.1 1 n.2) happend
  rcases hrest with h | h <;>
    · obtain ⟨_, _, rfl⟩ := Stream.mark?_eq_some.1 h
      exact hcheck

/-- The name that is refused is the one with which the line holds too many components. -/
theorem commaSeparated_overflow (hs : s.Begins (nameTokens (n :: others)) rest)
    (hnames : AreElements scope.environment (n :: others)) (hbuilt : built.length ≤ maxElements)
    (hlong : maxElements < built.length + (n :: others).length)
    (hrest : rest.mark? = some .closeParen) :
    ∃ pos, commaSeparated (lineItem scope) .itemEnd built s = .error (.overflow pos .expansion) := by
  induction others generalizing n s built with
  | nil =>
    obtain ⟨pos, next, rfl, hnext⟩ := Stream.begins_cons.1 hs
    obtain rfl := Stream.begins_nil.1 hnext
    obtain ⟨c, hc⟩ := hnames n List.mem_cons_self
    exact ⟨pos, separated_eq_error (lineItem_overflow hc (Nat.lt_succ_iff.1 hlong) (.inr hrest))⟩
  | cons m others ih =>
    obtain ⟨pos, mid, rfl, hmid⟩ := Stream.begins_cons.1 hs
    obtain ⟨pos', next, rfl, hnext⟩ := Stream.begins_cons.1 hmid
    obtain ⟨⟨c, hc⟩, hothers⟩ := List.forall_mem_cons.1 hnames
    by_cases hfull : maxElements ≤ built.length
    · exact ⟨pos, separated_eq_error (lineItem_overflow hc hfull (.inl rfl))⟩
    · have hone : (built ++ [c]).length ≤ maxElements := by
        rw [List.length_append]
        exact Nat.not_le.1 hfull
      have hitem : (lineItem scope built).Reads _ (built ++ [c]) (.token (.mark .comma) pos' next) :=
        reads_lineItem (i := .once n) (.cons _ pos (.nil _)) trivial
          (by simp [Item.components?, hc, Grammar.components?]) hone (.inl rfl)
      have hsound : next.IsSound := hnext.isSound (Stream.isSound_of_mark? hrest)
      obtain ⟨refused, hmore⟩ := ih hnext hothers hone (by
        rw [List.length_append]
        simp only [List.length_cons, List.length_nil] at hlong ⊢
        omega)
      exact ⟨refused, separated_eq_error_of_reads hitem rfl (reads_comma.2 ⟨pos', rfl, hsound⟩) hmore⟩

theorem lineDefinition_overflow {name : String} {pos : Position}
    (hs : s.Begins (.mark .equals :: .mark .openParen :: nameTokens (n :: others)) rest)
    (hnames : AreElements scope.environment (n :: others))
    (hlong : maxElements < (n :: others).length) (hrest : rest.mark? = some .closeParen) :
    ∃ refused, lineDefinition scope name pos s = .error (.overflow refused .expansion) := by
  obtain ⟨pos₁, _, rfl, h₁⟩ := Stream.begins_cons.1 hs
  obtain ⟨pos₂, items, rfl, hitems⟩ := Stream.begins_cons.1 h₁
  have hsound : items.IsSound := hitems.isSound (Stream.isSound_of_mark? hrest)
  obtain ⟨refused, hrow⟩ := @commaSeparated_overflow scope items rest n others [] hitems hnames
    (Nat.zero_le _) (by simpa using hlong) hrest
  have hequals : (mark .equals .equals).Reads _ pos₁ (.token (.mark .openParen) pos₂ items) :=
    reads_mark.2 ⟨rfl, trivial⟩
  have hopen : (mark .openParen .openParen).Reads _ pos₂ items := reads_mark.2 ⟨rfl, hsound⟩
  exact ⟨refused, hequals.bind_eq_error (hopen.bind_eq_error (bind_eq_error hrow))⟩

theorem statement_overflow {name : String} (hs : s.Begins (lineTree name n others).tokens rest)
    (hnames : AreElements scope.environment (n :: others))
    (hlong : maxElements < (n :: others).length) :
    ∃ refused, statement scope s = .error (.overflow refused .expansion) := by
  have htokens : (lineTree name n others).tokens = [.name name, .mark .colon, .name "LINE"] ++
      ((.mark .equals :: .mark .openParen :: nameTokens (n :: others)) ++
        [.mark .closeParen, .mark .semicolon]) := tokens_lineTree name n others
  rw [htokens] at hs
  obtain ⟨_, hhead, hbody⟩ := Stream.begins_append.1 hs
  obtain ⟨_, hline, hfoot⟩ := Stream.begins_append.1 hbody
  obtain ⟨pos, _, rfl, h₁⟩ := Stream.begins_cons.1 hhead
  obtain ⟨pos₁, _, rfl, h₂⟩ := Stream.begins_cons.1 h₁
  obtain ⟨pos₂, equals, rfl, h₃⟩ := Stream.begins_cons.1 h₂
  obtain rfl := Stream.begins_nil.1 h₃
  obtain ⟨_, _, rfl, -⟩ := Stream.begins_cons.1 hfoot
  obtain ⟨refused, hbody⟩ := @lineDefinition_overflow scope equals _ n others name pos hline hnames
    hlong rfl
  obtain ⟨pos₃, after, rfl, -⟩ := Stream.begins_cons.1 hline
  have hkeyword := isLineKeyword_iff.2 toLower_LINE
  have hcomponent : componentDefinition scope name pos (.token (.mark .colon) pos₁ (.token
      (.name "LINE") pos₂ (.token (.mark .equals) pos₃ after))) =
        .error (.overflow refused .expansion) := by
    have hcolon : (mark .colon .afterName).Reads _ pos₁ (.token (.name "LINE") pos₂
        (.token (.mark .equals) pos₃ after)) := reads_mark.2 ⟨rfl, trivial⟩
    have hkind : (SourceReader.name .elementType).Reads _ ("LINE", pos₂)
        (.token (.mark .equals) pos₃ after) := reads_name.2 ⟨rfl, trivial⟩
    refine hcolon.bind_eq_error (hkind.bind_eq_error ?_)
    rw [if_pos (by simp [hkeyword, Token.mark?])]
    exact hbody
  have hname : (SourceReader.name .statement).Reads _ (name, pos) (.token (.mark .colon) pos₁ (.token
      (.name "LINE") pos₂ (.token (.mark .equals) pos₃ after))) := reads_name.2 ⟨rfl, trivial⟩
  exact ⟨refused, hname.bind_eq_error hcomponent⟩

theorem program_eq_error {f : Fault} (hfinish : s.isFinish = false)
    (h : statement scope s = .error f) : program scope s = .error f := by
  rw [program, if_neg (by simp [hfinish]), bind_of_eq_error h]

/-- Definitions that can be read, and behind them a line of elements that is too long. -/
theorem read_overflow {source : List UInt8} {p : Program} {env : Environment} {name : String}
    {pos : Position} (hs : (Stream.ofSource source).Begins
      (p.tokens ++ (lineTree name n others).tokens) (.finish pos))
    (hnest : p.NestsWithin maxNesting)
    (hrun : p.foldlM Statement.extend? ([] : Environment) = some env)
    (hnames : AreElements env (n :: others)) (hlong : maxElements < (n :: others).length) :
    ∃ refused, read source = .error (.overflow refused .expansion) := by
  obtain ⟨line, hp, hline⟩ := Stream.begins_append.1 hs
  have hsound : line.IsSound := hline.isSound trivial
  have hfinish : line.isFinish = false := by
    rw [tokens_lineTree] at hline
    obtain ⟨_, _, rfl, -⟩ := Stream.begins_cons.1 hline
    rfl
  change p.foldlM Statement.extend? (Scope.environment {}) = some env at hrun
  obtain ⟨next, rfl, hnext⟩ := program_of_begins hp hsound hnest hrun
  obtain ⟨refused, hrefused⟩ := statement_overflow hline hnames hlong
  refine ⟨refused, ?_⟩
  rw [read, hnext, program_eq_error hfinish hrefused]
  rfl

end BeamEnvelope.Glps
