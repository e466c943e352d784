import BeamEnvelope.Proofs.Toml.Spelling

/-!
# Documents of lines

A lattice is written line by line: an entry, the header of a table, or the header of one more table
of an array. Each line is one statement, so what is read is what the lines do to the tables one
after another, and if one of them cannot be done there is no reading.
-/

namespace BeamEnvelope.Toml

open LexemeReader Reader

inductive Line where
  | entry (key : String) (v : Value)
  | table (key : String)
  | tables (key : String)

namespace Line

def text : Line → String
  | entry key v => Lattice.entryLine (key, v)
  | table key => "\n[" ++ keyText key ++ "]\n"
  | tables key => "\n[[" ++ keyText key ++ "]]\n"

/-- What a line does to the tables read so far. -/
def change? (p : Progress) : Line → Option Progress
  | entry key v => p.insert? [key] (nodeOf v)
  | table key => p.open? Entries.openTable? [key]
  | tables key => p.open? Entries.pushTable? [key]

def WithoutNaN : Line → Prop
  | entry _ v => v.WithoutNaN
  | _ => True

end Line

variable {α : Type} {gap : Gap} {s mid more : List Placed} {p : Progress} {a : α} {k : String}

/-- The reader takes a statement off the front that has an outcome, if it can be done. -/
def Gives (r : LexemeReader Progress) (s : List Placed) (outcome : Option Progress)
    (rest : List Placed) : Prop :=
  match outcome with
  | some q => r.Reads s q rest
  | none => r s = .error ()

theorem gives_check {r : LexemeReader α} (h : r.Reads s a more) (f : α → Option Progress) :
    Gives (r.check fun a => orError (f a)) s (f a) more := by
  cases hf : f a with
  | some q => exact reads_check.2 ⟨a, h, by rw [hf]; rfl⟩
  | none => exact h.check_eq_error (by rw [hf]; rfl)

theorem Gives.bind {r : LexemeReader α} {f : α → LexemeReader Progress} {outcome : Option Progress}
    (h : r.Reads s a mid) (hf : Gives (f a) mid outcome more) :
    Gives (r.bind f) s outcome more := by
  cases outcome with
  | some q => exact reads_bind.2 ⟨a, mid, h, hf⟩
  | none => exact h.bind_eq_error hf

theorem Gives.of_eq {r r' : LexemeReader Progress} {outcome : Option Progress}
    (h : Gives r s outcome more) (hr : r' s = r s) : Gives r' s outcome more := by
  cases outcome with
  | some q =>
    obtain ⟨reading, hreading, hvalue, hrest⟩ := h
    exact ⟨reading, hr.trans hreading, hvalue, hrest⟩
  | none => exact hr.trans h

theorem statements_newline : statements p (⟨.newline, gap⟩ :: s) = statements p s := by
  rw [statements]
  simp [ahead]

theorem statements_of_gives {outcome : Option Progress} (hs : ahead .newline s = false)
    (hne : s ≠ []) (h : Gives (statement p) s outcome (⟨.newline, gap⟩ :: more)) :
    statements p s = outcome.bind (statements · more) := by
  have hempty : s.isEmpty = false := by simpa using hne
  rw [statements, hempty, hs]
  cases outcome with
  | none =>
    have herror : statement p s = .error () := h
    simp [herror]
  | some q =>
    obtain ⟨r, hr, rfl, hrest⟩ := h
    simp [hr, hrest, ahead, statements_newline]

theorem ne_of_reads_key {l : Lexeme} (h : key.Reads (⟨l, gap⟩ :: s) k more) :
    l ≠ .openBracket ∧ l ≠ .newline := by
  obtain ⟨r, hr, -⟩ := h
  constructor <;> rintro rfl <;> cases hr

/-- An entry is a key, an equals sign and a value. -/
theorem gives_entry {v : Value} (hkey : key.Reads s k (⟨.equals, .space⟩ :: mid))
    (hvalue : (value maxNesting).Reads mid (nodeOf v) more) (hs : ahead .openBracket s = false)
    (p : Progress) : Gives (statement p) s ((Line.entry k v).change? p) more := by
  have hpath : path.Reads s [k] (⟨.equals, .space⟩ :: mid) := reads_path hkey (endsValue_cons rfl)
  have hpair : (pair (mark .equals) (value maxNesting)).Reads s ([k], nodeOf v) more :=
    reads_bind.2 ⟨_, _, hpath, reads_bind.2 ⟨_, _, reads_mark, reads_check.2 ⟨_, hvalue, rfl⟩⟩⟩
  apply (gives_check hpair fun kv => p.insert? kv.1 kv.2).of_eq
  rw [statement, if_neg (by simp [hs])]

/-- The header of a table is its key in brackets. -/
theorem gives_table (hkey : key.Reads s k (⟨.closeBracket, .glued⟩ :: more))
    (hs : s.head? ≠ some ⟨.openBracket, .glued⟩) (p : Progress) :
    Gives (statement p) (⟨.openBracket, .glued⟩ :: s) ((Line.table k).change? p) more := by
  have hpath : path.Reads s [k] (⟨.closeBracket, .glued⟩ :: more) :=
    reads_path hkey (endsValue_cons rfl)
  have hheader : Gives (tableHeader p) (⟨.openBracket, .glued⟩ :: s) ((Line.table k).change? p)
      more :=
    .bind reads_mark (.bind hpath (gives_check reads_mark fun _ => p.open? Entries.openTable? [k]))
  apply hheader.of_eq
  rw [statement, if_pos (by simp [ahead]), if_neg (by simpa using hs)]

/-- The header of an array has its brackets in pairs. -/
theorem gives_tables
    (hkey : key.Reads s k (⟨.closeBracket, .glued⟩ :: ⟨.closeBracket, .glued⟩ :: more))
    (p : Progress) :
    Gives (statement p) (⟨.openBracket, .glued⟩ :: ⟨.openBracket, .glued⟩ :: s)
      ((Line.tables k).change? p) more := by
  have hpath : path.Reads s [k] (⟨.closeBracket, .glued⟩ :: ⟨.closeBracket, .glued⟩ :: more) :=
    reads_path hkey (endsValue_cons rfl)
  have hheader : Gives (arrayHeader p) (⟨.openBracket, .glued⟩ :: ⟨.openBracket, .glued⟩ :: s)
      ((Line.tables k).change? p) more :=
    .bind reads_mark (.bind reads_gluedMark (.bind hpath (.bind reads_mark
      (gives_check reads_gluedMark fun _ => p.open? Entries.pushTable? [k]))))
  apply hheader.of_eq
  rw [statement, if_pos (by simp [ahead]), if_pos (by simp)]

/-- Each line is one statement. -/
theorem exists_lexes_line {line : Line} (h : line.WithoutNaN) (rest : List Char) (gap : Gap) :
    ∃ ps, Lexes gap (line.text.toList ++ rest) ps .glued rest ∧
      ∀ p more, statements p (ps ++ more) = (line.change? p).bind (statements · more) := by
  cases line with
  | entry k v =>
    have hnewline : EndsWord ('\n' :: rest) := endsWord_cons rfl
    have hequals (cs : List Char) : EndsWord (" = ".toList ++ cs) := endsWord_cons rfl
    obtain ⟨l, hl, hkey⟩ := exists_lexes_key k (hequals _) gap
    obtain ⟨vs, hv, hvalue⟩ := exists_lexes_value h hnewline .space
    have hline := hl.append ((lexes_equals _).append (hv.append (lexes_newline .glued rest)))
    refine ⟨_, by simpa [Line.text, Lattice.entryLine] using hline, fun p more => ?_⟩
    obtain ⟨hbracket, hkeyNewline⟩ := ne_of_reads_key (hkey [])
    have hmore := hvalue (⟨.newline, .glued⟩ :: more) 79 (endsValue_cons rfl)
    have hgives := gives_entry (hkey _) hmore (by simpa [ahead] using hbracket) p
    simpa using statements_of_gives (by simpa [ahead] using hkeyNewline) (by simp) hgives
  | table k =>
    have hclose : EndsWord (']' :: '\n' :: rest) := endsWord_cons rfl
    obtain ⟨l, hl, hkey⟩ := exists_lexes_key k hclose .glued
    have hclosed := (lexes_closeBracket .glued _).append (lexes_newline .glued rest)
    have hline := (lexes_newline gap _).append ((lexes_openBracket .glued _).append
      (hl.append hclosed))
    refine ⟨_, by simpa [Line.text] using hline, fun p more => ?_⟩
    obtain ⟨hbracket, -⟩ := ne_of_reads_key (hkey [])
    have hgives := gives_table (hkey (⟨.closeBracket, .glued⟩ :: ⟨.newline, .glued⟩ :: more))
      (by simpa using hbracket) p
    simpa [statements_newline] using statements_of_gives rfl (by simp) hgives
  | tables k =>
    have hclose : EndsWord (']' :: ']' :: '\n' :: rest) := endsWord_cons rfl
    obtain ⟨l, hl, hkey⟩ := exists_lexes_key k hclose .glued
    have hclosed := (lexes_closeBracket .glued _).append ((lexes_closeBracket .glued _).append
      (lexes_newline .glued rest))
    have hline := (lexes_newline gap _).append ((lexes_openBracket .glued _).append
      ((lexes_openBracket .glued _).append (hl.append hclosed)))
    refine ⟨_, by simpa [Line.text] using hline, fun p more => ?_⟩
    have hgives := gives_tables (hkey (⟨.closeBracket, .glued⟩ :: ⟨.closeBracket, .glued⟩ ::
      ⟨.newline, .glued⟩ :: more)) p
    simpa [statements_newline] using statements_of_gives rfl (by simp) hgives

/-- The document of a row of lines, read from some progress on, is what the lines do one after
another. -/
theorem statements_lines {lines : List Line} (h : ∀ line ∈ lines, line.WithoutNaN) (gap : Gap)
    (p : Progress) :
    (lexemes? gap (String.join (lines.map Line.text)).toList).bind (statements p) =
      (lines.foldlM Line.change? p).map Progress.root := by
  induction lines generalizing gap p with
  | nil =>
    rw [List.map_nil, String.join_nil, String.toList_empty, lexemes?, Option.bind_some, statements]
    rfl
  | cons line lines ih =>
    obtain ⟨hline, hlines⟩ := List.forall_mem_cons.1 h
    obtain ⟨ps, hps, hstatements⟩ :=
      exists_lexes_line hline (String.join (lines.map Line.text)).toList gap
    rw [List.map_cons, String.join_cons, String.toList_append, hps, Option.bind_map]
    have hcomp : statements p ∘ (ps ++ ·) = fun more => (line.change? p).bind (statements · more) :=
      funext (hstatements p)
    rw [hcomp, List.foldlM_cons]
    cases line.change? p with
    | none => simp
    | some q => simpa using ih hlines .glued q

end BeamEnvelope.Toml
