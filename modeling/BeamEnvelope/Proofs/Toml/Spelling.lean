import BeamEnvelope.Proofs.Reader
import BeamEnvelope.Proofs.Toml.Numbers
import BeamEnvelope.Proofs.Toml.Quoting

/-!
# Keys and values are read back

A key is one lexeme and a number one or three. A vector is a row of them. Where a bare word must end
behind them, their reader takes just these lexemes off the front.
-/

namespace BeamEnvelope

/-- No number in a value is a NaN. -/
def Value.WithoutNaN : Value → Prop
  | .scalar x => x.isNaN = false
  | .vector xs => ∀ x ∈ xs, x.isNaN = false
  | .text _ => True

namespace Toml

open LexemeReader Reader

variable {α : Type} {gap : Gap} {cs w rest : List Char} {s more : List Placed} {l : Lexeme}

/-- The longest run is all of the front if what follows stops it. -/
theorem takeWhile_append_of_stop {β : Type} {keep : β → Bool} {front behind : List β}
    (hfront : ∀ b ∈ front, keep b = true) (hbehind : ∀ b ∈ behind.head?, keep b = false) :
    (front ++ behind).takeWhile keep = front := by
  rw [List.takeWhile_append_of_pos hfront]
  cases behind with
  | nil => simp
  | cons b bs => simp [hbehind b rfl]

/-- Cutting `cs` behind one gap gives the lexemes `ps`, and `rest` is left behind another gap. -/
def Lexes (gap : Gap) (cs : List Char) (ps : List Placed) (behind : Gap) (rest : List Char) :
    Prop :=
  lexemes? gap cs = (lexemes? behind rest).map (ps ++ ·)

theorem Lexes.append {mid : List Char} {between behind : Gap} {ps qs : List Placed}
    (h : Lexes gap cs ps between mid) (h' : Lexes between mid qs behind rest) :
    Lexes gap cs (ps ++ qs) behind rest := by
  rw [Lexes] at h h' ⊢
  simp [h, h', Function.comp_def]

theorem lexes_mark {c : Char} (h : punctuation? c = some l) (gap : Gap) (rest : List Char) :
    Lexes gap (c :: rest) [⟨l, gap⟩] .glued rest := by
  have hne {d : Char} (hd : punctuation? d = none) : c ≠ d := by
    rintro rfl
    simp [h] at hd
  have hblank : isBlank c = false := by
    simp [isBlank, hne (d := ' ') rfl, hne (d := '\t') rfl]
  have hlexeme : lexeme? c rest = some (l, 0) := by
    rw [lexeme?, h]
  exact lexemes?_lexeme hblank (hne rfl) hlexeme gap

theorem lexes_space (rest : List Char) : Lexes .glued (' ' :: rest) [] .space rest := by
  rw [Lexes, lexemes?]
  simp [isBlank, Gap.widen]

theorem lexes_newline (gap : Gap) (rest : List Char) :
    Lexes gap ('\n' :: rest) [⟨.newline, gap⟩] .glued rest := lexes_mark rfl gap rest

theorem lexes_openBracket (gap : Gap) (rest : List Char) :
    Lexes gap ('[' :: rest) [⟨.openBracket, gap⟩] .glued rest := lexes_mark rfl gap rest

theorem lexes_closeBracket (gap : Gap) (rest : List Char) :
    Lexes gap (']' :: rest) [⟨.closeBracket, gap⟩] .glued rest := lexes_mark rfl gap rest

theorem lexes_comma (rest : List Char) :
    Lexes .glued (", ".toList ++ rest) [⟨.comma, .glued⟩] .space rest :=
  (lexes_mark rfl .glued _).append (lexes_space rest)

theorem lexes_equals (rest : List Char) :
    Lexes .glued (" = ".toList ++ rest) [⟨.equals, .space⟩] .space rest :=
  (lexes_space _).append ((lexes_mark rfl .space _).append (lexes_space rest))

/-- No bare word goes on here. -/
def EndsWord (rest : List Char) : Prop := ∀ c ∈ rest.head?, isBareWord c = false

theorem endsWord_cons {c : Char} (h : isBareWord c = false) : EndsWord (c :: rest) := by
  simp [EndsWord, h]

theorem isBareWord_of_isBareKey {c : Char} (h : isBareKey c = true) :
    isBareWord c = true ∧ c ≠ '"' ∧ c ≠ '\'' := by
  have hne {d : Char} (hd : isBareKey d = false) : c ≠ d := by
    rintro rfl
    simp [h] at hd
  have hpunctuation : punctuation? c = none := by
    simp [punctuation?, hne (d := '.') rfl, hne (d := '=') rfl, hne (d := ',') rfl,
      hne (d := '[') rfl, hne (d := ']') rfl, hne (d := '\x7b') rfl, hne (d := '\x7d') rfl,
      hne (d := '\n') rfl]
  refine ⟨?_, hne rfl, hne rfl⟩
  simp [isBareWord, hpunctuation, isBlank, hne (d := ' ') rfl, hne (d := '\t') rfl,
    hne (d := '\r') rfl, hne (d := '#') rfl]

theorem lexes_word (hw : IsBareRow w) (hrest : EndsWord rest) (gap : Gap) :
    Lexes gap (w ++ rest) [⟨.bare w, gap⟩] .glued rest := by
  have hbare := fun c hc => isBareWord_of_isBareKey (hw.isBareKey c hc)
  cases w with
  | nil => exact absurd rfl hw.ne_nil
  | cons c cs =>
    obtain ⟨⟨hc, hdouble, hsingle⟩, hcs⟩ := List.forall_mem_cons.1 hbare
    simp only [isBareWord, Bool.and_eq_true, Option.isNone_iff_eq_none, Bool.not_eq_true',
      bne_iff_ne] at hc
    have htake : (cs ++ rest).takeWhile isBareWord = cs :=
      takeWhile_append_of_stop (fun d hd => (hcs d hd).1) hrest
    have hlexeme : lexeme? c (cs ++ rest) = some (.bare (c :: cs), cs.length) := by
      simp [lexeme?, hc, hdouble, hsingle, htake]
    rw [Lexes, List.cons_append, lexemes?_lexeme hc.1.1.2 hc.2 hlexeme]
    simp

theorem lexes_quoted {q : Quotes} (h : q.Holds cs) (hrest : EndsWord rest) (gap : Gap) :
    Lexes gap (encodeIn q cs ++ rest) [⟨.quoted (String.ofList cs) q, gap⟩] .glued rest := by
  apply lexemes?_encodeIn h
  intro hmark
  have hbare := hrest q.mark hmark
  cases q <;> revert hbare <;> decide

theorem reads_take {accepts : Placed → Option α} {p : Placed} {a : α} (h : accepts p = some a) :
    (take accepts).Reads (p :: s) a s := by
  refine ⟨⟨a, s, Nat.lt_succ_self _⟩, ?_, rfl, rfl⟩
  rw [take, h]

theorem reads_mark : (mark l).Reads (⟨l, gap⟩ :: s) () s := reads_take (if_pos rfl)

theorem reads_gluedMark : (gluedMark l).Reads (⟨l, .glued⟩ :: s) () s :=
  reads_take (by simp [Placed.glued])

/-- A key of any characters is one lexeme. -/
theorem exists_lexes_key (k : String) (hrest : EndsWord rest) (gap : Gap) :
    ∃ l, Lexes gap ((keyText k).toList ++ rest) [⟨l, gap⟩] .glued rest ∧
      ∀ more, key.Reads (⟨l, gap⟩ :: more) k more := by
  have hquoted {q : Quotes} (h : q.Holds k.toList) (hq : q.multiline = false) :
      ∃ l, Lexes gap (encodeIn q k.toList ++ rest) [⟨l, gap⟩] .glued rest ∧
        ∀ more, key.Reads (⟨l, gap⟩ :: more) k more :=
    ⟨_, lexes_quoted h hrest gap, fun more => reads_take (by simp [hq])⟩
  simp only [keyText]
  split
  · rename_i hbare
    simp only [Bool.and_eq_true, Bool.not_eq_true', List.isEmpty_eq_false_iff] at hbare
    have hrow : IsBareRow k.toList := ⟨hbare.1, List.all_eq_true.1 hbare.2⟩
    exact ⟨_, lexes_word hrow hrest gap, fun more => reads_take (by simp [hbare.2])⟩
  · split
    · simpa using hquoted (q := .basic) trivial rfl
    · split
      · rename_i hliteral
        have hholds : Quotes.literal.Holds k.toList := by
          simpa [Quotes.Holds, List.any_eq_false] using hliteral
        simpa using hquoted hholds rfl
      · simpa using hquoted (q := .basic) trivial rfl

/-- No key and no value goes on here. -/
def EndsValue (more : List Placed) : Prop := ∀ p ∈ more.head?, isWord p = false

theorem endsValue_cons (h : wordChars l = []) : EndsValue (⟨l, gap⟩ :: s) := by
  simp [EndsValue, isWord, h]

theorem reads_path {k : String} (h : key.Reads s k more) (hmore : EndsValue more) :
    path.Reads s [k] more := by
  have hstop : ahead .dot more = false := by
    cases more with
    | nil => rfl
    | cons p ps =>
      have hp := hmore p rfl
      have hne : p.lexeme ≠ .dot := by
        intro hdot
        simp [isWord, hdot, wordChars] at hp
      simpa [ahead] using hne
  apply reads_check.2
  exact ⟨[k], reads_separated.2 (.last (reads_check.2 ⟨k, h, rfl⟩) hstop), rfl⟩

/-- Bare words and dots without gaps between them are one value. -/
theorem reads_word {first : Placed} {parts : List Placed} {node : Node} (hfirst : isWord first)
    (hparts : ∀ p ∈ parts, p.glued && isWord p) (hmore : EndsValue more)
    (h : scalar? (wordText first parts) = some node) :
    word.Reads (first :: parts ++ more) node more := by
  have htake : wordParts (parts ++ more) = parts :=
    takeWhile_append_of_stop hparts fun p hp => by simp [hmore p hp]
  have hshorter : Input.size ((parts ++ more).drop parts.length) <
      Input.size (first :: (parts ++ more)) := by
    simp [Input.size]
  have hword : word (first :: (parts ++ more)) =
      .ok ⟨node, (parts ++ more).drop parts.length, hshorter⟩ := by
    cases more with
    | nil =>
      rw [List.append_nil] at htake
      simp [word, hfirst, htake, h]
    | cons p ps =>
      -- no time of day can follow, since no word does
      have hp : wordChars p.lexeme = [] := by simpa [isWord] using hmore p rfl
      simp [word, hfirst, htake, h, hp]
  exact ⟨_, hword, rfl, List.drop_left⟩

/-- A number is one bare word, or two with a dot between them. -/
theorem exists_lexes_number {x : Float} (hx : x.isNaN = false) (hrest : EndsWord rest) (gap : Gap) :
    ∃ w ps, Lexes gap ((Lattice.floatText x).toList ++ rest) (⟨.bare w, gap⟩ :: ps) .glued rest ∧
      ∀ more depth, EndsValue more →
        (value depth).Reads (⟨.bare w, gap⟩ :: ps ++ more) (.float x) more := by
  have hvalue (w : List Char) (s : List Placed) (depth : Nat) :
      value depth (⟨.bare w, gap⟩ :: s) = word (⟨.bare w, gap⟩ :: s) := by
    cases depth <;> rfl
  have hisWord {w : List Char} (hw : IsBareRow w) (gap : Gap) : isWord ⟨.bare w, gap⟩ := by
    simp [isWord, wordChars, hw.ne_nil]
  have hspells := spellsNumber_floatText hx
  generalize (Lattice.floatText x).toList = cs at hspells ⊢
  cases hspells with
  | word hw h =>
    refine ⟨_, [], lexes_word hw hrest gap, fun more depth hmore => ?_⟩
    rw [Reads, List.cons_append, hvalue]
    exact reads_word (hisWord hw gap) (by simp) hmore (by simpa [wordText, wordChars] using h)
  | @pointed w f hw hf h =>
    refine ⟨w, [⟨.dot, .glued⟩, ⟨.bare f, .glued⟩], ?_, fun more depth hmore => ?_⟩
    · rw [List.append_assoc, List.cons_append]
      exact (lexes_word hw (endsWord_cons rfl) gap).append
        ((lexes_mark rfl .glued _).append (lexes_word hf hrest .glued))
    · rw [Reads, List.cons_append, hvalue]
      refine reads_word (hisWord hw gap) ?_ hmore (by simpa [wordText, wordChars] using h)
      simp [Placed.glued, isWord, wordChars, hf.ne_nil]

section Listed

variable {item : α → LexemeReader α} {a b c : α}

theorem dropNewlines_eq (hs : ahead .newline s = false) : dropNewlines s = s := by
  cases s with
  | nil => rfl
  | cons p ps =>
    have hp : (p.lexeme == .newline) = false := hs
    rw [dropNewlines, List.dropWhile_cons, hp, if_neg Bool.false_ne_true]

theorem reads_past {p : LexemeReader α} (h : p.Reads (dropNewlines s) a more) :
    (past p).Reads s a more := by
  obtain ⟨r, hr, rfl, rfl⟩ := h
  have hshorter : Input.size r.rest < Input.size s :=
    Nat.lt_of_lt_of_le r.shorter (List.dropWhile_suffix _).length_le
  refine ⟨⟨r.value, r.rest, hshorter⟩, ?_, rfl, rfl⟩
  rw [past, bind_of_eq_ok hr]
  rfl

theorem reads_past_mark (hl : l ≠ .newline) : (past (mark l)).Reads (⟨l, gap⟩ :: s) () s := by
  apply reads_past
  rw [dropNewlines_eq (by simpa [ahead] using hl)]
  exact reads_mark

theorem reads_listed_nil :
    (listed item .closeBracket a).Reads (⟨.closeBracket, gap⟩ :: more) a more := by
  obtain ⟨r, hr, hvalue, hrest⟩ :
      ((past (mark .closeBracket)).check fun _ => .ok a).Reads (⟨.closeBracket, gap⟩ :: more) a
        more :=
    reads_check.2 ⟨(), reads_past_mark (by decide), rfl⟩
  refine ⟨r, ?_, hvalue, hrest⟩
  rw [listed, if_pos (by simp [dropNewlines, ahead]), hr]

theorem reads_listed_last (one : (item a).Reads s b (⟨.closeBracket, gap⟩ :: more))
    (hs : ahead .newline s = false ∧ ahead .closeBracket s = false) :
    (listed item .closeBracket a).Reads s b more := by
  have hdrop := dropNewlines_eq hs.1
  rw [← hdrop] at one
  obtain ⟨r, hr, rfl, hrest⟩ := reads_past one
  obtain ⟨closed, hclosed, -, rfl⟩ : (past (mark .closeBracket)).Reads r.rest () more := by
    rw [hrest]
    exact reads_past_mark (by decide)
  refine ⟨⟨r.value, closed.rest, Nat.lt_trans closed.shorter r.shorter⟩, ?_, rfl, rfl⟩
  rw [listed, if_neg (by simp [hdrop, hs.2]), bind_of_eq_ok hr,
    if_neg (by simp [hrest, dropNewlines, ahead]), bind_of_eq_ok hclosed]
  rfl

theorem reads_listed_more {next : List Placed} (one : (item a).Reads s b (⟨.comma, gap⟩ :: next))
    (hs : ahead .newline s = false ∧ ahead .closeBracket s = false)
    (others : (listed item .closeBracket b).Reads next c more) :
    (listed item .closeBracket a).Reads s c more := by
  have hdrop := dropNewlines_eq hs.1
  rw [← hdrop] at one
  obtain ⟨r, hr, rfl, hrest⟩ := reads_past one
  obtain ⟨comma, hcomma, -, rfl⟩ : (past (mark .comma)).Reads r.rest () next := by
    rw [hrest]
    exact reads_past_mark (by decide)
  obtain ⟨others, hothers, rfl, rfl⟩ := others
  refine ⟨⟨others.value, others.rest, Nat.lt_trans others.shorter
    (Nat.lt_trans comma.shorter r.shorter)⟩, ?_, rfl, rfl⟩
  rw [listed, if_neg (by simp [hdrop, hs.2]), bind_of_eq_ok hr,
    if_pos (by simp [hrest, dropNewlines, ahead]), bind_of_eq_ok hcomma, bind_of_eq_ok hothers]
  rfl

end Listed

/-- The items of a vector and the bracket behind them. -/
theorem exists_lexes_numbers {xs : List Float} (hxs : ∀ x ∈ xs, x.isNaN = false)
    (rest : List Char) (gap : Gap) :
    ∃ ps, Lexes gap ((", ".intercalate (xs.map Lattice.floatText)).toList ++ ']' :: rest) ps
        .glued rest ∧
      ∀ items more depth,
        (listed (fun items => (value depth).check fun node => .ok (items ++ [node]))
          .closeBracket items).Reads (ps ++ more) (items ++ xs.map .float) more := by
  induction xs generalizing gap with
  | nil =>
    refine ⟨_, lexes_closeBracket gap rest, fun items more depth => ?_⟩
    simpa using reads_listed_nil
  | cons x xs ih =>
    obtain ⟨hx, hxs⟩ := List.forall_mem_cons.1 hxs
    cases xs with
    | nil =>
      obtain ⟨w, ps, hlexes, hreads⟩ :=
        exists_lexes_number hx (endsWord_cons rfl : EndsWord (']' :: rest)) gap
      refine ⟨_, hlexes.append (lexes_closeBracket .glued rest), fun items more depth => ?_⟩
      have hone := hreads (⟨.closeBracket, .glued⟩ :: more) depth (endsValue_cons rfl)
      rw [List.append_assoc]
      exact reads_listed_last (reads_check.2 ⟨_, hone, rfl⟩) ⟨rfl, rfl⟩
    | cons y ys =>
      let others := (", ".intercalate ((y :: ys).map Lattice.floatText)).toList ++ ']' :: rest
      have hcomma : EndsWord (", ".toList ++ others) := endsWord_cons rfl
      obtain ⟨w, ps, hlexes, hreads⟩ := exists_lexes_number hx hcomma gap
      obtain ⟨qs, hothers, hreadsOthers⟩ := ih hxs .space
      refine ⟨⟨.bare w, gap⟩ :: ps ++ ⟨.comma, .glued⟩ :: qs, ?_, fun items more depth => ?_⟩
      · simpa [others] using hlexes.append ((lexes_comma others).append hothers)
      · have hone := hreads (⟨.comma, .glued⟩ :: (qs ++ more)) depth (endsValue_cons rfl)
        have hmore := hreadsOthers (items ++ [.float x]) more depth
        rw [List.append_assoc] at hmore ⊢
        exact reads_listed_more (reads_check.2 ⟨_, hone, rfl⟩) ⟨rfl, rfl⟩ hmore

def nodeOf : Value → Node
  | .scalar x => .float x
  | .vector xs => .array (xs.map .float)
  | .text s => .text s

theorem exists_lexes_value {v : Value} (hv : v.WithoutNaN) (hrest : EndsWord rest)
    (gap : Gap) :
    ∃ ps, Lexes gap ((Lattice.valueText v).toList ++ rest) ps .glued rest ∧
      ∀ more depth, EndsValue more → (value (depth + 1)).Reads (ps ++ more) (nodeOf v) more := by
  cases v with
  | scalar x =>
    obtain ⟨w, ps, hlexes, hreads⟩ := exists_lexes_number hv hrest gap
    exact ⟨_, hlexes, fun more depth => hreads more (depth + 1)⟩
  | vector xs =>
    obtain ⟨ps, hlexes, hreads⟩ := exists_lexes_numbers hv rest .glued
    refine ⟨⟨.openBracket, gap⟩ :: ps, ?_, fun more depth _ => ?_⟩
    · simpa [Lattice.valueText] using (lexes_openBracket gap _).append hlexes
    · change (array (value depth)).Reads _ _ _
      exact reads_bind.2 ⟨(), _, reads_mark, reads_check.2 ⟨_, hreads [] more depth, rfl⟩⟩
  | text t =>
    have hlexes := lexes_quoted (holds_quotesFor t.toList) hrest gap
    rw [String.ofList_toList] at hlexes
    refine ⟨_, by simpa [Lattice.valueText, textValue] using hlexes, fun more depth _ => ?_⟩
    change (take fun _ => some (Node.text t)).Reads _ _ _
    exact reads_take rfl

end Toml

end BeamEnvelope
