import BeamEnvelope.Proofs.Glps.Statements

/-!
# Reading in one pass and in two

A source can be read in two phases: derive all of its tokens in the grammar, then evaluate the
statements in their order. The one-pass reader accepts the same sources and finds the same lattices.
-/

namespace BeamEnvelope.Glps

open Grammar SourceReader Reader

variable {scope final : Scope} {s : Stream}

theorem program_of_isFinish (h : s.isFinish = true) : program scope s = .ok scope := by
  rw [program, if_pos h]

theorem program_eq_ok_of_not_isFinish (h : s.isFinish = false) :
    program scope s = .ok final ↔
      ∃ next rest, (statement scope).Reads s next rest ∧ program next rest = .ok final := by
  rw [program, if_neg (by simp [h])]
  constructor
  · intro hp
    obtain ⟨one, ho, hp⟩ := bind_eq_ok.1 hp
    exact ⟨one.value, one.rest, reads_of_eq ho, hp⟩
  · rintro ⟨_, _, ⟨one, ho, rfl, rfl⟩, hp⟩
    rw [bind_of_eq_ok ho]
    exact hp

theorem isFinish_eq_true : s.isFinish = true ↔ ∃ pos, s = .finish pos := by
  cases s <;> simp [Stream.isFinish]

/-- A run of the reader is a run over the statements of a program. -/
theorem derives_of_program (h : program scope s = .ok final) :
    ∃ (p : Program) (pos : Position), s.Begins p.tokens (.finish pos) ∧
      p.NestsWithin maxNesting ∧
      p.foldlM Statement.extend? scope.environment = some final.environment := by
  induction hn : s.length using Nat.strongRecOn generalizing s scope with
  | ind size ih =>
    cases hfinish : s.isFinish with
    | true =>
      obtain ⟨pos, rfl⟩ := isFinish_eq_true.1 hfinish
      rw [program_of_isFinish hfinish] at h
      cases h
      exact ⟨[], pos, .nil _, by simp [Program.NestsWithin], rfl⟩
    | false =>
      obtain ⟨next, rest, hone, hmore⟩ := (program_eq_ok_of_not_isFinish hfinish).1 h
      obtain ⟨p, pos, htokens, hnest, hrun⟩ := ih _ (hn ▸ hone.size_lt) hmore rfl
      obtain ⟨st, hst, hstnest, hextend⟩ := derivesStatement_of_reads hone
      refine ⟨st :: p, pos, ?_, ?_, ?_⟩
      · rw [Program.tokens, List.flatMap_cons]
        exact hst.append htokens
      · exact fun t ht => (List.mem_cons.1 ht).elim (fun h => h ▸ hstnest) (hnest t)
      · simp [hextend, hrun]

theorem Statement.tokens_eq_cons (st : Statement) : ∃ t ts, st.tokens = t :: ts := by
  cases st <;> exact ⟨_, _, rfl⟩

/-- The statements of a program are read one after another, whatever stands behind them. -/
theorem program_of_begins {p : Program} {rest : Stream} {env : Environment}
    (hs : s.Begins p.tokens rest) (hrest : rest.IsSound) (hnest : p.NestsWithin maxNesting)
    (hrun : p.foldlM Statement.extend? scope.environment = some env) :
    ∃ next, next.environment = env ∧ program scope s = program next rest := by
  induction p generalizing scope s with
  | nil =>
    obtain rfl := Stream.begins_nil.1 hs
    obtain rfl := Option.some.inj hrun
    exact ⟨scope, rfl, rfl⟩
  | cons st p ih =>
    rw [Program.tokens, List.flatMap_cons] at hs
    obtain ⟨mid, hst, hp⟩ := Stream.begins_append.1 hs
    simp only [List.foldlM_cons, Option.bind_eq_bind, Option.bind_eq_some_iff] at hrun
    obtain ⟨env', hextend, hrun⟩ := hrun
    obtain ⟨one, hone, rfl⟩ := reads_statement hst (hnest st (by simp)) hextend
      (Stream.Begins.isSound hp hrest)
    obtain ⟨next, henv, hnext⟩ := ih hp (fun t ht => hnest t (List.mem_cons_of_mem _ ht)) hrun
    have hfinish : s.isFinish = false := by
      obtain ⟨t, ts, ht⟩ := Statement.tokens_eq_cons st
      rw [ht] at hst
      obtain ⟨_, _, rfl, -⟩ := Stream.begins_cons.1 hst
      rfl
    obtain ⟨r, hr, rfl, rfl⟩ := hone
    refine ⟨next, henv, ?_⟩
    rw [program, if_neg (by simp [hfinish]), bind_of_eq_ok hr]
    exact hnext

theorem program_of_derives {p : Program} {pos : Position} {env : Environment}
    (hs : s.Begins p.tokens (.finish pos)) (hnest : p.NestsWithin maxNesting)
    (hrun : p.foldlM Statement.extend? scope.environment = some env) :
    ∃ final, program scope s = .ok final ∧ final.environment = env := by
  obtain ⟨final, henv, hfinal⟩ := program_of_begins hs trivial hnest hrun
  exact ⟨final, hfinal.trans (program_of_isFinish rfl), henv⟩

theorem lattice_eq_ok {lattice : Lattice} :
    scope.lattice = .ok lattice ↔ scope.environment.lattice? = some lattice := by
  have hlast : scope.lastLine? =
      (scope.environment.filterMap fun b => b.2.line?.map (b.1, ·)).getLast? := by
    rw [Scope.lastLine?, Scope.environment, List.filterMap_reverse, List.getLast?_reverse,
      List.head?_filterMap]
  have hglobals : scope.globals =
      .ofList (scope.environment.filterMap fun b => b.2.value?.map (b.1, ·)) := by
    rw [Scope.globals, Scope.environment, List.filterMap_reverse]
    exact (Dictionary.ofList_reverse (nodup_filterMap Symbol.value? scope.distinct)).symm
  rw [Scope.lattice, Environment.lattice?, ← hlast, ← hglobals]
  cases scope.lastLine? with
  | none => simp
  | some line => simp

variable {source : List UInt8} {lattice : Lattice}

theorem exists_program_of_read (h : read source = .ok lattice) :
    ∃ (p : Program) (pos : Position), (Stream.ofSource source).Begins p.tokens (.finish pos) ∧
      p.NestsWithin maxNesting ∧ p.lattice? = some lattice := by
  obtain ⟨final, hfinal, hlattice⟩ := bind_eq_ok.1 h
  obtain ⟨p, pos, htokens, hnest, hrun⟩ := derives_of_program hfinal
  rw [lattice_eq_ok] at hlattice
  exact ⟨p, pos, htokens, hnest, Option.bind_eq_some_iff.2 ⟨_, hrun, hlattice⟩⟩

theorem read_of_program {p : Program} {pos : Position}
    (hs : (Stream.ofSource source).Begins p.tokens (.finish pos)) (hnest : p.NestsWithin maxNesting)
    (hlattice : p.lattice? = some lattice) : read source = .ok lattice := by
  obtain ⟨env, hrun, hlattice⟩ := Option.bind_eq_some_iff.1 hlattice
  change p.foldlM Statement.extend? (Scope.environment {}) = some env at hrun
  obtain ⟨final, hfinal, rfl⟩ := program_of_derives hs hnest hrun
  rw [read, bind_of_eq_ok hfinal]
  exact lattice_eq_ok.2 hlattice

/-- A source describes a lattice if its tokens are those of a program that nests within `maxNesting`
and whose statements, evaluated one after another, describe it. -/
theorem read_eq_ok_iff_exists_program (source : List UInt8) (lattice : Lattice) :
    read source = .ok lattice ↔ ∃ tokens, (Stream.ofSource source).tokens? = some tokens ∧
      ∃ p : Program, p.tokens = tokens ∧ p.NestsWithin maxNesting ∧ p.lattice? = some lattice := by
  constructor
  · intro h
    obtain ⟨p, pos, htokens, hnest, hlattice⟩ := exists_program_of_read h
    exact ⟨p.tokens, Stream.tokens?_eq_some.2 ⟨pos, htokens⟩, p, rfl, hnest, hlattice⟩
  · rintro ⟨_, htokens, p, rfl, hnest, hlattice⟩
    obtain ⟨pos, hs⟩ := Stream.tokens?_eq_some.1 htokens
    exact read_of_program hs hnest hlattice

end BeamEnvelope.Glps
