import BeamEnvelope.Proofs.Glps.Grammar
import BeamEnvelope.Proofs.Glps.Printing

/-!
# The trees of printed sources

The bytes of a printed value, statement or line are read as the tokens of a tree. A negative number
is the one place where a tree is deeper than what was printed: its sign is an operator of its own.
-/

namespace BeamEnvelope.Glps

open Bytes Grammar

variable {b : UInt8} {rest : List UInt8} {v : Value} {entry : String × Value} {c : Component}

def numberTree (x : Float) : Expression :=
  if x.toBits < 0x8000000000000000 then .term (.unary (.primary (.literal (.number x))))
  else .term (.unary (.negative (.primary (.literal (.number x.abs)))))

def entriesTree (x : Float) : List Float → Entries
  | [] => .last (numberTree x)
  | y :: ys => .cons (numberTree x) (entriesTree y ys)

def valueTree : Value → Expression
  | .scalar x => numberTree x
  | .vector [] => .term (.unary (.primary .emptyVector))
  | .vector (x :: xs) => .term (.unary (.primary (.vector (entriesTree x xs))))
  | .text s => .term (.unary (.primary (.literal (.text s))))

theorem tokens_numberTree (x : Float) : (numberTree x).tokens = numberTokens x := by
  unfold numberTree numberTokens
  split <;> rfl

theorem nesting_numberTree (x : Float) : (numberTree x).nesting ≤ 2 := by
  unfold numberTree
  split
  · exact Nat.le_succ 1
  · exact Nat.le_refl 2

theorem nesting_entriesTree (x : Float) (xs : List Float) : (entriesTree x xs).nesting ≤ 2 := by
  induction xs generalizing x with
  | nil => exact nesting_numberTree x
  | cons y ys ih => exact Nat.max_le.2 ⟨nesting_numberTree x, ih y⟩

theorem nesting_valueTree (v : Value) : (valueTree v).nesting ≤ 3 := by
  cases v with
  | scalar x => exact Nat.le_succ_of_le (nesting_numberTree x)
  | vector xs =>
    cases xs with
    | nil => exact Nat.le_of_ble_eq_true rfl
    | cons x xs => exact Nat.succ_le_succ (nesting_entriesTree x xs)
  | text s => exact Nat.le_of_ble_eq_true rfl

/-- The minus in front of a number gives back what it was printed for. -/
theorem value?_numberTree {x : Float} (hx : x.isFinite = true) (env : Environment) :
    (numberTree x).value? env = some (.scalar x) := by
  unfold numberTree
  split
  · rfl
  · rename_i hsign
    have hnegative : Double.sign (Double.parts x) = .negative := by
      cases h : Double.sign (Double.parts x) with
      | positive => exact absurd ((Double.sign_parts_eq_positive hx).1 h) hsign
      | negative => rfl
    change some (Value.scalar (-x.abs)) = _
    rw [Double.neg_abs_of_sign_negative hnegative]

theorem values?_entriesTree {x : Float} {xs : List Float} (hx : x.isFinite = true)
    (hxs : ∀ y ∈ xs, y.isFinite = true) (env : Environment) :
    (entriesTree x xs).values? env = some (x :: xs) := by
  induction xs generalizing x with
  | nil => simp [entriesTree, Entries.values?, value?_numberTree hx, Value.scalar?]
  | cons y ys ih =>
    obtain ⟨hy, hys⟩ := List.forall_mem_cons.1 hxs
    simp [entriesTree, Entries.values?, value?_numberTree hx, Value.scalar?, ih hy hys]

theorem value?_valueTree (h : v.IsPrintable) (env : Environment) :
    (valueTree v).value? env = some v := by
  cases v with
  | scalar x => exact value?_numberTree h env
  | vector xs =>
    cases xs with
    | nil => rfl
    | cons x xs =>
      obtain ⟨hx, hxs⟩ := List.forall_mem_cons.1 h
      simp [valueTree, Expression.value?, Term.value?, Unary.value?, Primary.value?,
        values?_entriesTree hx hxs]
  | text s => rfl

theorem lexes_comma : Lexes (bytesOf ", " ++ rest) [.mark .comma] rest :=
  (lexes_mark .comma).append (lexes_blank rfl)

theorem lexes_equals : Lexes (bytesOf " = " ++ rest) [.mark .equals] rest :=
  (lexes_blank rfl).append ((lexes_mark .equals).append (lexes_blank rfl))

theorem lexes_semicolon : Lexes (bytesOf ";\n" ++ rest) [.mark .semicolon] rest :=
  (lexes_mark .semicolon).append (lexes_blank rfl)

theorem lexes_colon : Lexes (bytesOf ": " ++ rest) [.mark .colon] rest :=
  (lexes_mark .colon).append (lexes_blank rfl)

theorem lexes_name_cons {s : String} (hs : isIdentifier s = true) (hb : isName b = false) :
    Lexes (bytesOf s ++ b :: rest) [.name s] (b :: rest) :=
  lexes_name hs (by simp [hb])

theorem lexes_name_colon {s : String} (hs : isIdentifier s = true) :
    Lexes (bytesOf s ++ (bytesOf ": " ++ rest)) [.name s] (bytesOf ": " ++ rest) := by
  have hbytes : bytesOf ": " = [colon, 32] := rfl
  have hblank : isName 32 = false := rfl
  exact lexes_name hs (by simp [hbytes, hblank, List.takeWhile_cons])

theorem lexes_entries {x : Float} {xs : List Float} (hx : x.isFinite = true)
    (hxs : ∀ y ∈ xs, y.isFinite = true) (hrest : EndsNumeral rest) :
    Lexes (bytesOf (", ".intercalate ((x :: xs).map numberText)) ++ rest) (entriesTree x xs).tokens
      rest := by
  induction xs generalizing x with
  | nil =>
    rw [List.map_singleton, String.intercalate_singleton, entriesTree, Entries.tokens,
      tokens_numberTree]
    exact lexes_number hx hrest
  | cons y ys ih =>
    obtain ⟨hy, hys⟩ := List.forall_mem_cons.1 hxs
    rw [List.map_cons, List.map_cons, String.intercalate_cons_cons, bytesOf_append, bytesOf_append,
      List.append_assoc, List.append_assoc, entriesTree, Entries.tokens, tokens_numberTree]
    refine (lexes_number hx ?_).append (lexes_comma.append (ih hy hys))
    intro b hb
    obtain rfl := Option.some.inj hb
    decide

theorem lexes_value (h : v.IsPrintable) (hrest : EndsNumeral rest) :
    Lexes (bytesOf (valueSource v) ++ rest) (valueTree v).tokens rest := by
  cases v with
  | scalar x =>
    rw [valueTree, tokens_numberTree]
    exact lexes_number h hrest
  | vector xs =>
    have hopen : bytesOf "[" = [Mark.openBracket.char.toUInt8] := rfl
    have hclose : bytesOf "]" = [Mark.closeBracket.char.toUInt8] := rfl
    rw [valueSource, bytesOf_append, bytesOf_append, List.append_assoc, List.append_assoc, hopen,
      hclose]
    cases xs with
    | nil => exact (lexes_mark .openBracket).append (lexes_mark .closeBracket)
    | cons x xs =>
      obtain ⟨hx, hxs⟩ := List.forall_mem_cons.1 h
      refine (lexes_mark .openBracket).append ((lexes_entries hx hxs ?_).append
        (lexes_mark .closeBracket))
      intro b hb
      obtain rfl := Option.some.inj hb
      decide
  | text s =>
    have hquote : bytesOf "\"" = [quote] := rfl
    rw [valueSource, bytesOf_append, bytesOf_append, hquote, List.append_assoc, List.append_assoc]
    exact lexes_text h

def globalTree (entry : String × Value) : Statement := .value entry.1 (valueTree entry.2)

theorem endsNumeral_semicolon : EndsNumeral (bytesOf ";\n" ++ rest) := by
  intro b hb
  obtain rfl := Option.some.inj hb
  decide

theorem lexes_global (h : IsPrintableEntry entry) :
    Lexes (bytesOf (globalSource entry) ++ rest) (globalTree entry).tokens rest := by
  have hbytes : bytesOf (globalSource entry) ++ rest = bytesOf entry.1 ++ (bytesOf " = " ++
      (bytesOf (valueSource entry.2) ++ (bytesOf ";\n" ++ rest))) := by
    simp [globalSource]
  rw [hbytes]
  exact (lexes_name_cons h.1 rfl).append (lexes_equals.append
    ((lexes_value h.2 endsNumeral_semicolon).append lexes_semicolon))

/-- Whether a text is read as an expression, whatever ends it. -/
def Spells (text : String) (e : Expression) : Prop :=
  ∀ rest, EndsNumeral rest → Lexes (bytesOf text ++ rest) e.tokens rest

def assignment (key text : String) : String := ", " ++ key ++ " = " ++ text

variable {α : Type} {key text : α → String} {tree : α → Expression} {xs : List α}

/-- What follows a kind or the value of a parameter: a comma or the semicolon. -/
theorem exists_cons_parameters (key text : α → String) (xs : List α) (rest : List UInt8) :
    ∃ b bytes, (xs.map fun x => assignment (key x) (text x)).flatMap bytesOf ++
      (bytesOf ";\n" ++ rest) = b :: bytes ∧ (b = 44 ∨ b = 59) := by
  cases xs with
  | nil => exact ⟨59, 10 :: rest, rfl, .inr rfl⟩
  | cons x xs =>
    have hbytes : bytesOf ", " = [44, 32] := rfl
    refine ⟨44, 32 :: (bytesOf (key x) ++ bytesOf " = " ++ bytesOf (text x) ++
      ((xs.map fun x => assignment (key x) (text x)).flatMap bytesOf ++ (bytesOf ";\n" ++ rest))),
      ?_, .inl rfl⟩
    simp [assignment, hbytes]

theorem lexes_parameters (h : ∀ x ∈ xs, isIdentifier (key x) = true ∧ Spells (text x) (tree x)) :
    Lexes ((xs.map fun x => assignment (key x) (text x)).flatMap bytesOf ++ (bytesOf ";\n" ++ rest))
      ((xs.map fun x => (key x, tree x)).flatMap parameterTokens ++ [.mark .semicolon]) rest := by
  induction xs with
  | nil => exact lexes_semicolon
  | cons x xs ih =>
    obtain ⟨⟨hkey, htext⟩, hxs⟩ := List.forall_mem_cons.1 h
    have hmore := ih hxs
    obtain ⟨b, bytes, hbytes, hb⟩ := exists_cons_parameters key text xs rest
    have hends : EndsNumeral (b :: bytes) := by
      intro c hc
      obtain rfl := Option.some.inj hc
      rcases hb with rfl | rfl <;> decide
    rw [List.map_cons, List.flatMap_cons, List.append_assoc]
    rw [hbytes] at hmore ⊢
    have hsource : bytesOf (assignment (key x) (text x)) ++ b :: bytes = bytesOf ", " ++
        (bytesOf (key x) ++ (bytesOf " = " ++ (bytesOf (text x) ++ b :: bytes))) := by
      simp [assignment]
    rw [hsource, List.map_cons, List.flatMap_cons, List.append_assoc]
    exact lexes_comma.append ((lexes_name_cons hkey rfl).append (lexes_equals.append
      ((htext _ hends).append hmore)))

theorem lexes_element {name kind : String} (hname : isIdentifier name = true)
    (hkind : isIdentifier kind = true)
    (h : ∀ x ∈ xs, isIdentifier (key x) = true ∧ Spells (text x) (tree x)) :
    Lexes (bytesOf (name ++ ": " ++ kind ++
        String.join (xs.map fun x => assignment (key x) (text x)) ++ ";\n") ++ rest)
      (Statement.element name kind (xs.map fun x => (key x, tree x))).tokens rest := by
  have hparams := @lexes_parameters rest α key text tree xs h
  obtain ⟨b, bytes, hbytes, hb⟩ := exists_cons_parameters key text xs rest
  have hsource : bytesOf (name ++ ": " ++ kind ++
      String.join (xs.map fun x => assignment (key x) (text x)) ++ ";\n") ++ rest =
        bytesOf name ++ (bytesOf ": " ++ (bytesOf kind ++
          ((xs.map fun x => assignment (key x) (text x)).flatMap bytesOf ++
            (bytesOf ";\n" ++ rest)))) := by
    simp [bytesOf_join]
  rw [hsource]
  rw [hbytes] at hparams ⊢
  have hends : isName b = false := by
    rcases hb with rfl | rfl <;> rfl
  exact (lexes_name_colon hname).append (lexes_colon.append
    ((lexes_name_cons hkind hends).append hparams))

def parameterTree (entry : String × Value) : String × Expression := (entry.1, valueTree entry.2)

def componentTree (c : Component) : Statement :=
  .element c.name c.kind (c.params.entries.map parameterTree)

theorem lexes_component (h : c.IsPrintable) :
    Lexes (bytesOf (componentSource c) ++ rest) (componentTree c).tokens rest :=
  lexes_element h.name h.kind fun entry hentry =>
    ⟨(h.params entry hentry).1, fun _ hrest => lexes_value (h.params entry hentry).2 hrest⟩

def nameTokens : List String → List Token
  | [] => []
  | n :: others => .name n :: others.flatMap fun m => [.mark .comma, .name m]

theorem nameTokens_append {ns ms : List String} (hn : ns ≠ []) (hm : ms ≠ []) :
    nameTokens (ns ++ ms) = nameTokens ns ++ .mark .comma :: nameTokens ms := by
  obtain ⟨n, ns, rfl⟩ := List.exists_cons_of_ne_nil hn
  obtain ⟨m, ms, rfl⟩ := List.exists_cons_of_ne_nil hm
  simp [nameTokens]

theorem lexes_names {n : String} {others : List String} (hn : isIdentifier n = true)
    (hothers : ∀ m ∈ others, isIdentifier m = true) (hb : isName b = false) :
    Lexes (bytesOf (", ".intercalate (n :: others)) ++ b :: rest) (nameTokens (n :: others))
      (b :: rest) := by
  induction others generalizing n with
  | nil =>
    rw [String.intercalate_singleton]
    exact lexes_name_cons hn hb
  | cons m others ih =>
    obtain ⟨hm, hothers⟩ := List.forall_mem_cons.1 hothers
    rw [String.intercalate_cons_cons, bytesOf_append, bytesOf_append, List.append_assoc,
      List.append_assoc]
    exact (lexes_name_cons hn rfl).append (lexes_comma.append (ih hm hothers))

def rowSource (row : List String) : String := "\n  " ++ ", ".intercalate row

theorem lexes_row {row : List String} (hne : row ≠ [])
    (hrow : ∀ m ∈ row, isIdentifier m = true) (hb : isName b = false) :
    Lexes (bytesOf (rowSource row) ++ b :: rest) (nameTokens row) (b :: rest) := by
  obtain ⟨n, others, rfl⟩ := List.exists_cons_of_ne_nil hne
  obtain ⟨hn, hothers⟩ := List.forall_mem_cons.1 hrow
  have hbytes : bytesOf "\n  " = [10, 32, 32] := rfl
  rw [rowSource, bytesOf_append, hbytes, List.append_assoc]
  exact (lexes_blank rfl).append ((lexes_blank rfl).append ((lexes_blank rfl).append
    (lexes_names hn hothers hb)))

theorem lexes_rows {row : List String} {others : List (List String)}
    (hrows : ∀ r ∈ row :: others, r ≠ [] ∧ ∀ m ∈ r, isIdentifier m = true)
    (hb : isName b = false) :
    Lexes (bytesOf (",".intercalate ((row :: others).map rowSource)) ++ b :: rest)
      (nameTokens (row :: others).flatten) (b :: rest) := by
  induction others generalizing row with
  | nil =>
    obtain ⟨hne, hrow⟩ := hrows row (by simp)
    rw [List.map_singleton, String.intercalate_singleton, List.flatten_singleton]
    exact lexes_row hne hrow hb
  | cons next others ih =>
    obtain ⟨⟨hne, hrow⟩, hrest⟩ := List.forall_mem_cons.1 hrows
    have hcomma : bytesOf "," = [Mark.comma.char.toUInt8] := rfl
    have hflatten : (next :: others).flatten ≠ [] := by
      have hnext := (hrest next List.mem_cons_self).1
      simp [hnext]
    rw [List.map_cons, List.map_cons, String.intercalate_cons_cons, bytesOf_append, bytesOf_append,
      List.append_assoc, List.append_assoc, List.flatten_cons, nameTokens_append hne hflatten,
      hcomma]
    exact (lexes_row hne hrow rfl).append ((lexes_mark .comma).append (ih hrest))

theorem flatten_rows (names : List String) : (rows names).flatten = names := by
  fun_induction rows names with
  | case1 names h => rw [List.isEmpty_iff.1 h]; rfl
  | case2 names h ih => rw [List.flatten_cons, ih, List.take_append_drop]

theorem ne_nil_of_mem_rows {names row : List String} (h : row ∈ rows names) : row ≠ [] := by
  fun_induction rows names with
  | case1 names hempty => cases h
  | case2 names hempty ih =>
    rcases List.mem_cons.1 h with rfl | h
    · simpa using hempty
    · exact ih h

theorem toLower_LINE : "LINE".toLower = "line" := by
  rw [← String.toList_inj, String.toLower, String.toList_map]
  rfl

def lineTree (name first : String) (others : List String) : Statement :=
  .line name "LINE" toLower_LINE (.once first) (others.map .once)

theorem tokens_lineTree (name first : String) (others : List String) :
    (lineTree name first others).tokens = [.name name, .mark .colon, .name "LINE", .mark .equals,
      .mark .openParen] ++ (nameTokens (first :: others) ++ [.mark .closeParen, .mark .semicolon]) := by
  simp [lineTree, Statement.tokens, Item.tokens, nameTokens, List.flatMap_map, otherItemTokens]

theorem lexes_lineHead {name : String} (hname : isIdentifier name = true) :
    Lexes (bytesOf ("\n" ++ name ++ ": LINE = (") ++ rest) [.name name, .mark .colon, .name "LINE",
      .mark .equals, .mark .openParen] rest := by
  have hkeyword : isIdentifier "LINE" = true := rfl
  have hbytes : bytesOf ": LINE = (" = bytesOf ": " ++ (bytesOf "LINE" ++ (bytesOf " = " ++
      [Mark.openParen.char.toUInt8])) := rfl
  have hbreak : bytesOf "\n" = [10] := rfl
  simp only [bytesOf_append, hbytes, hbreak, List.append_assoc, List.cons_append, List.nil_append]
  exact (lexes_blank rfl).append ((lexes_name_colon hname).append (lexes_colon.append
    ((lexes_name_cons hkeyword rfl).append (lexes_equals.append (lexes_mark .openParen)))))

theorem lexes_lineEnd :
    Lexes (bytesOf "\n);\n" ++ rest) [.mark .closeParen, .mark .semicolon] rest :=
  (lexes_blank rfl).append ((lexes_mark .closeParen).append lexes_semicolon)

theorem lexes_line {name first : String} {others : List String} (hname : isIdentifier name = true)
    (hitems : ∀ m ∈ first :: others, isIdentifier m = true) :
    Lexes (bytesOf (lineStatement name (first :: others)) ++ rest)
      (lineTree name first others).tokens rest := by
  obtain ⟨row, more, hrows⟩ : ∃ row more, rows (first :: others) = row :: more := by
    rw [rows]
    exact ⟨_, _, rfl⟩
  have hflatten := flatten_rows (first :: others)
  have hrow : ∀ r ∈ row :: more, r ≠ [] ∧ ∀ m ∈ r, isIdentifier m = true := by
    intro r hr
    rw [← hrows] at hr
    refine ⟨ne_nil_of_mem_rows hr, fun m hm => hitems m ?_⟩
    rw [← hflatten]
    exact List.mem_flatten.2 ⟨r, hr, hm⟩
  have hsource : bytesOf (lineStatement name (first :: others)) ++ rest =
      bytesOf ("\n" ++ name ++ ": LINE = (") ++
        (bytesOf (",".intercalate ((row :: more).map rowSource)) ++ (bytesOf "\n);\n" ++ rest)) := by
    rw [lineStatement, hrows, bytesOf_append, bytesOf_append, List.append_assoc, List.append_assoc]
    rfl
  rw [hsource, tokens_lineTree, ← hflatten, hrows]
  exact (lexes_lineHead hname).append ((lexes_rows hrow rfl).append lexes_lineEnd)

def definitionTrees (lattice : Lattice) : Program :=
  lattice.globals.entries.map globalTree ++ (definitions lattice.components).map componentTree

/-- All statements; a lattice without components has no line. -/
def sourceTrees (lattice : Lattice) : Program :=
  match lattice.components with
  | [] => definitionTrees lattice
  | c :: rest => definitionTrees lattice ++ [lineTree lattice.name c.name (rest.map (·.name))]

theorem lexes_statements {α : Type} {text : α → String} {tree : α → Statement} {xs : List α}
    (h : ∀ x ∈ xs, ∀ rest, Lexes (bytesOf (text x) ++ rest) (tree x).tokens rest) :
    Lexes ((xs.map text).flatMap bytesOf ++ rest) (Program.tokens (xs.map tree)) rest := by
  induction xs with
  | nil => exact .refl rest
  | cons x xs ih =>
    obtain ⟨hx, hxs⟩ := List.forall_mem_cons.1 h
    rw [Program.tokens, List.map_cons, List.map_cons, List.flatMap_cons, List.flatMap_cons,
      List.append_assoc]
    exact (hx _).append (ih hxs)

/-- A printed source consists of the tokens of its trees. -/
theorem lexes_source {lattice : Lattice} (h : Printable lattice) :
    Lexes (bytesOf (source lattice)) (sourceTrees lattice).tokens [] := by
  have hnames : ∀ m ∈ lattice.components.map (·.name), isIdentifier m = true := by
    intro m hm
    obtain ⟨c, hc, rfl⟩ := List.mem_map.1 hm
    obtain ⟨d, hd, heq⟩ := h.agree c hc
    exact name_eq_of_beq heq ▸ (h.definitions d hd).1.name
  have hglobals (rest : List UInt8) := @lexes_statements rest _ _ _ lattice.globals.entries
    fun entry hentry _ => lexes_global (h.globals entry hentry)
  have hcomponents (rest : List UInt8) := @lexes_statements rest _ _ _
    (definitions lattice.components) fun c hc _ => lexes_component (h.definitions c hc).1
  have hgap (rest : List UInt8) :
      Lexes (bytesOf (if lattice.globals.isEmpty then "" else "\n") ++ rest) [] rest := by
    split
    · exact .refl rest
    · exact lexes_blank rfl
  obtain ⟨c, others, hcs⟩ := List.exists_cons_of_ne_nil h.components_ne_nil
  rw [hcs, List.map_cons] at hnames
  have hline := @lexes_line [] lattice.name c.name (others.map (·.name)) h.name hnames
  have htrees : sourceTrees lattice =
      definitionTrees lattice ++ [lineTree lattice.name c.name (others.map (·.name))] := by
    rw [sourceTrees, hcs]
  have hsource : bytesOf (source lattice) =
      (lattice.globals.entries.map globalSource).flatMap bytesOf ++
        (bytesOf (if lattice.globals.isEmpty then "" else "\n") ++
          (((definitions lattice.components).map componentSource).flatMap bytesOf ++
            (bytesOf (lineStatement lattice.name (c.name :: others.map (·.name))) ++ []))) := by
    rw [source, bytesOf_append, bytesOf_append, bytesOf_append, bytesOf_join, bytesOf_join,
      List.append_nil, List.append_assoc, List.append_assoc, hcs, List.map_cons]
  have htokens : (sourceTrees lattice).tokens =
      Program.tokens (lattice.globals.entries.map globalTree) ++ ([] ++
        (Program.tokens ((definitions lattice.components).map componentTree) ++
          (lineTree lattice.name c.name (others.map (·.name))).tokens)) := by
    rw [htrees, definitionTrees]
    simp [Program.tokens]
  rw [hsource, htokens]
  exact (hglobals _).append ((hgap _).append ((hcomponents _).append hline))

end BeamEnvelope.Glps
