import BeamEnvelope.Toml.Lexeme
import Mathlib.Data.List.TakeWhile

/-!
# Quoted texts are read back

Between quotation marks a text is written character by character: as itself, as an escape, or, where
newlines are admitted, as one of few quotation marks in a row. Such pieces are passed over and
decoded one after the other. Between apostrophes every character stands for itself, provided that it
may stand there. Whichever form a text is written in, one quoted lexeme is read back, and it is the
text.
-/

namespace BeamEnvelope.Toml

variable {q : Quotes} {c : Char} {cs p rest tail : List Char}

theorem toNat_lt_of_isControl (h : isControl c) : c.toNat < 128 := by
  simp only [isControl, Bool.or_eq_true, Bool.and_eq_true, decide_eq_true_eq, beq_iff_eq] at h
  obtain ⟨h, -⟩ | rfl := h
  · exact Nat.lt_trans h (by decide)
  · decide

/-- Four hexadecimal digits hold every character that needs them. -/
theorem hexText_ofNat : ∀ n : Fin 128, (hexText (Char.ofNat n)).length = 4 ∧
    codePoint? (hexText (Char.ofNat n)) = some (Char.ofNat n) ∧
    (hexText (Char.ofNat n)).all (fun x => x != '"' && x != '\\') = true := by
  decide +kernel

theorem exists_hexText (h : isControl c) : ∃ d e f g, hexText c = [d, e, f, g] ∧
    codePoint? [d, e, f, g] = some c ∧ ∀ x ∈ hexText c, x ≠ '"' ∧ x ≠ '\\' := by
  obtain ⟨hlength, hcode, hplain⟩ := hexText_ofNat ⟨c.toNat, toNat_lt_of_isControl h⟩
  simp only [Char.ofNat_toNat] at hlength hcode hplain
  match hdigits : hexText c, hlength with
  | [d, e, f, g], _ => exact ⟨d, e, f, g, rfl, hdigits ▸ hcode, by simpa [hdigits] using hplain⟩

/-- What may be written for a character between quotation marks. -/
inductive Piece (q : Quotes) (c : Char) : List Char → Prop
  | letter {e : Char} (h : escapeLetter? c = some e) : Piece q c ['\\', e]
  | code (h : isControl c) : Piece q c ('\\' :: 'u' :: hexText c)
  | plain (h : ∀ rest, isPlain q c rest) (mark : c ≠ '"') (backslash : c ≠ '\\') : Piece q c [c]

theorem encodeBasic_cons (q : Quotes) (run : Nat) (c : Char) (cs : List Char) :
    (c = '"' ∧ run < q.freeRun ∧
      encodeBasic q run (c :: cs) = '"' :: encodeBasic q (run + 1) cs) ∨
    ∃ p, Piece q c p ∧ encodeBasic q run (c :: cs) = p ++ encodeBasic q 0 cs := by
  rw [encodeBasic]
  split
  · rename_i hmark
    subst hmark
    split
    · exact .inr ⟨_, .letter rfl, rfl⟩
    · exact .inl ⟨rfl, by omega, rfl⟩
  · rename_i hmark
    split
    · rename_i hnewline
      simp only [Bool.and_eq_true, decide_eq_true_eq] at hnewline
      obtain ⟨rfl, hlines⟩ := hnewline
      exact .inr ⟨_, .plain (fun _ => hlines) (by decide) (by decide), rfl⟩
    · split
      · rename_i e he
        exact .inr ⟨_, .letter he, rfl⟩
      · rename_i hletter
        split
        · rename_i hcontrol
          exact .inr ⟨_, .code hcontrol, rfl⟩
        · rename_i hcontrol
          have hne {x : Char} (hx : escapeLetter? x ≠ none) : c ≠ x := by
            rintro rfl
            exact hx hletter
          have hplain (rest : List Char) : isPlain q c rest = true := by
            simp [isPlain, hne (x := '\n') (by decide), hne (x := '\r') (by decide), hcontrol]
          exact .inr ⟨_, .plain hplain hmark (hne (by decide)), rfl⟩

theorem mem_letters_of_escapeLetter? {e : Char} (h : escapeLetter? c = some e) :
    e ∈ ['b', 't', 'n', 'f', 'r', '"', '\\'] := by
  unfold escapeLetter? at h
  repeat' split at h
  all_goals first
    | (cases h; decide)
    | cases h

theorem Piece.decode (hp : Piece q c p) (rest : List Char) :
    decodeBasic? q false (p ++ rest) = (decodeBasic? q false rest).map (c :: ·) := by
  cases hp with
  | letter h =>
    rename_i e
    have hletter := unescapeLetter?_escapeLetter? h
    have he := mem_letters_of_escapeLetter? h
    simp only [List.mem_cons, List.not_mem_nil, or_false] at he
    rcases he with rfl | rfl | rfl | rfl | rfl | rfl | rfl <;>
      simp [decodeBasic?, blankToNewline, startsNewline, isBlank, hletter]
  | code h =>
    obtain ⟨d, e, f, g, hdigits, hcode, -⟩ := exists_hexText h
    have hletter : unescapeLetter? 'u' = none := by decide
    simp [hdigits, decodeBasic?, blankToNewline, startsNewline, isBlank, hletter, hcode]
  | plain h mark backslash =>
    rw [List.singleton_append, decodeBasic?]
    · simp [backslash, h]
    all_goals exact fun _ _ hc => absurd hc backslash

theorem decodeBasic?_encodeBasic (q : Quotes) (run : Nat) (cs : List Char) :
    decodeBasic? q false (encodeBasic q run cs) = some cs := by
  induction cs generalizing run with
  | nil => rfl
  | cons c cs ih =>
    rcases encodeBasic_cons q run c cs with ⟨rfl, -, h⟩ | ⟨p, hp, h⟩
    · rw [h, decodeBasic?]
      · simp [ih, isPlain, isControl]
      all_goals exact fun _ _ hc => absurd hc (by decide)
    · rw [h, hp.decode, ih]
      rfl

theorem insideWidth?_cons (hmark : c ≠ q.mark) (hback : q.escapes → c ≠ '\\') (rest : List Char) :
    insideWidth? q (c :: rest) = (insideWidth? q rest).map (· + 1) := by
  by_cases hc : c = '\\'
  · have hq : q.escapes = false := Bool.eq_false_iff.2 fun h => hback h hc
    subst hc
    cases rest with
    | nil => simp [insideWidth?, hmark]
    | cons e rest => rw [insideWidth?, hq, if_neg Bool.false_ne_true]
  · rw [insideWidth?, if_neg (by simpa using hmark)]
    exact fun _ _ h => absurd h hc

theorem insideLinesWidth?_cons (hmark : c = q.mark → rest.take 2 ≠ [q.mark, q.mark])
    (hback : q.escapes → c ≠ '\\') :
    insideLinesWidth? q (c :: rest) = (insideLinesWidth? q rest).map (· + 1) := by
  have hclose : ¬(c == q.mark && rest.take 2 == [q.mark, q.mark]) = true := by simpa using hmark
  by_cases hc : c = '\\'
  · have hq : q.escapes = false := Bool.eq_false_iff.2 fun h => hback h hc
    subst hc
    cases rest with
    | nil => simp [insideLinesWidth?]
    | cons e rest => rw [insideLinesWidth?, hq, if_neg Bool.false_ne_true]
  · rw [insideLinesWidth?, if_neg hclose]
    exact fun _ _ h => absurd h hc

/-- A count of characters that passes over escapes and over what is neither mark nor backslash. -/
structure PassesOver (width? : List Char → Option Nat) : Prop where
  escape (e : Char) (rest : List Char) :
    width? ('\\' :: e :: rest) = (width? rest).map (· + 2)
  plain (c : Char) (rest : List Char) (mark : c ≠ '"') (backslash : c ≠ '\\') :
    width? (c :: rest) = (width? rest).map (· + 1)

theorem mark_eq (hq : q.escapes = true) : q.mark = '"' := if_pos hq

theorem passesOver_insideWidth? (hq : q.escapes = true) : PassesOver (insideWidth? q) where
  escape e rest := by rw [insideWidth?, if_pos hq]
  plain c rest mark backslash :=
    insideWidth?_cons (by rwa [mark_eq hq]) (fun _ => backslash) rest

theorem passesOver_insideLinesWidth? (hq : q.escapes = true) :
    PassesOver (insideLinesWidth? q) where
  escape e rest := by rw [insideLinesWidth?, if_pos hq]
  plain c rest mark backslash :=
    insideLinesWidth?_cons (fun h => absurd (mark_eq hq ▸ h) mark) fun _ => backslash

theorem Piece.width {width? : List Char → Option Nat} (hw : PassesOver width?)
    (hp : Piece q c p) (rest : List Char) :
    width? (p ++ rest) = (width? rest).map (· + p.length) := by
  cases hp with
  | letter h => exact hw.escape _ rest
  | plain h mark backslash => exact hw.plain c rest mark backslash
  | code h =>
    obtain ⟨d, e, f, g, hdigits, -, hplain⟩ := exists_hexText h
    rw [hdigits] at hplain ⊢
    simp only [List.forall_mem_cons, List.not_mem_nil, false_implies, implies_true,
      and_true] at hplain
    obtain ⟨hd, he, hf, hg⟩ := hplain
    simp only [List.cons_append, List.nil_append, hw.escape, hw.plain _ _ hd.1 hd.2,
      hw.plain _ _ he.1 he.2, hw.plain _ _ hf.1 hf.2, hw.plain _ _ hg.1 hg.2, Option.map_map]
    rfl

/-- The escaped text on one line ends at the first mark. -/
theorem insideWidth?_encodeBasic (run : Nat) (cs tail : List Char) :
    insideWidth? .basic (encodeBasic .basic run cs ++ '"' :: tail) =
      some (encodeBasic .basic run cs).length := by
  induction cs generalizing run with
  | nil => rw [encodeBasic, List.nil_append, insideWidth?] <;> simp [Quotes.mark, Quotes.escapes]
  | cons c cs ih =>
    rcases encodeBasic_cons .basic run c cs with ⟨-, h, -⟩ | ⟨p, hp, h⟩
    · exact absurd h (Nat.not_lt_zero run)
    · rw [h, List.append_assoc, hp.width (passesOver_insideWidth? rfl), ih]
      simp [Nat.add_comm]

/-- Without a mark inside a text ends at the first one. -/
theorem insideWidth?_literal (hq : q.escapes = false) (hcs : q.mark ∉ cs) (tail : List Char) :
    insideWidth? q (cs ++ q.mark :: tail) = some cs.length := by
  induction cs with
  | nil =>
    rw [List.nil_append, insideWidth?]
    · simp
    · have hmark : q.mark = '\'' := if_neg (by simp [hq])
      rw [hmark]
      exact fun _ _ h => absurd h (by decide)
  | cons c cs ih =>
    obtain ⟨hc, hcs⟩ := not_or.1 (mt List.mem_cons.2 hcs)
    rw [List.cons_append, insideWidth?_cons (Ne.symm hc) (by simp [hq]), ih hcs]
    rfl

theorem mark_ne_backslash (q : Quotes) : q.mark ≠ '\\' := by cases q <;> decide

/-- Where newlines are admitted, marks count only from three in a row on. -/
theorem insideLinesWidth?_run {run : Nat} (hrun : run ≤ 2) (hc : c ≠ q.mark) (rest : List Char) :
    insideLinesWidth? q (List.replicate run q.mark ++ c :: rest) =
      (insideLinesWidth? q (c :: rest)).map (· + run) := by
  have hback : q.escapes → q.mark ≠ '\\' := fun _ => mark_ne_backslash q
  have hone : insideLinesWidth? q (q.mark :: c :: rest) =
      (insideLinesWidth? q (c :: rest)).map (· + 1) :=
    insideLinesWidth?_cons (by simp [hc]) hback
  match run, hrun with
  | 0, _ => simp
  | 1, _ => exact hone
  | 2, _ =>
    have htwo : insideLinesWidth? q (q.mark :: q.mark :: c :: rest) =
        (insideLinesWidth? q (q.mark :: c :: rest)).map (· + 1) :=
      insideLinesWidth?_cons (by simp [hc]) hback
    simp only [List.replicate, List.cons_append, List.nil_append, htwo, hone, Option.map_map]
    rfl

/-- Up to two marks of the text stand in front of the closing ones. -/
theorem insideLinesWidth?_end {run : Nat} (hrun : run ≤ 2) (htail : tail.head? ≠ some q.mark) :
    insideLinesWidth? q (List.replicate run q.mark ++ q.mark :: q.mark :: q.mark :: tail) =
      some run := by
  have hclose (rest : List Char) : insideLinesWidth? q (q.mark :: q.mark :: q.mark :: rest) =
      some ((rest.take 2).takeWhile (· == q.mark)).length := by
    rw [insideLinesWidth?]
    · simp
    · exact fun _ _ h => absurd h (mark_ne_backslash q)
  have hbehind (n : Nat) : (tail.take n).takeWhile (· == q.mark) = [] := by
    cases tail with
    | nil => simp
    | cons t ts =>
      have ht : t ≠ q.mark := by simpa using htail
      cases n <;> simp [ht]
  match run, hrun with
  | 0, _ => simp [hclose, hbehind]
  | 1, _ => simp [List.replicate, hclose, hbehind]
  | 2, _ => simp [List.replicate, hclose]

theorem Piece.exists_cons (hp : Piece q c p) : ∃ d ds, p = d :: ds ∧ d ≠ '"' := by
  cases hp with
  | letter h => exact ⟨_, _, rfl, by decide⟩
  | code h => exact ⟨_, _, rfl, by decide⟩
  | plain h mark backslash => exact ⟨_, _, rfl, mark⟩

theorem insideLinesWidth?_encodeBasic {run : Nat} (hrun : run ≤ 2)
    (htail : tail.head? ≠ some '"') (cs : List Char) :
    insideLinesWidth? .basicLines (List.replicate run '"' ++ encodeBasic .basicLines run cs ++
      '"' :: '"' :: '"' :: tail) = some (run + (encodeBasic .basicLines run cs).length) := by
  induction cs generalizing run with
  | nil =>
    rw [encodeBasic, List.append_nil]
    exact insideLinesWidth?_end (q := .basicLines) hrun htail
  | cons c cs ih =>
    rcases encodeBasic_cons .basicLines run c cs with ⟨-, hfree, h⟩ | ⟨p, hp, h⟩
    · -- one mark more in the row
      have hrun' : run + 1 ≤ 2 := hfree
      have hmore := ih hrun'
      rw [List.replicate_succ', List.append_assoc, List.append_assoc] at hmore
      rw [h, List.append_assoc]
      simp only [List.cons_append, List.nil_append, List.length_cons] at hmore ⊢
      rw [hmore]
      congr 1
      omega
    · obtain ⟨d, ds, rfl, hd⟩ := hp.exists_cons
      have hrest := ih (Nat.zero_le 2)
      rw [List.replicate_zero, List.nil_append] at hrest
      have hskip := insideLinesWidth?_run (q := .basicLines) hrun hd
        (ds ++ (encodeBasic .basicLines 0 cs ++ '"' :: '"' :: '"' :: tail))
      rw [← List.cons_append, hp.width (passesOver_insideLinesWidth? rfl), hrest] at hskip
      rw [h, List.append_assoc, List.append_assoc]
      refine hskip.trans ?_
      simp only [Option.map_some, List.length_append]
      congr 1
      omega

theorem le_longestRun_go (m : Char) (best run : Nat) (cs : List Char) :
    best ≤ longestRun.go m best run cs := by
  induction cs generalizing best run with
  | nil => exact Nat.le_refl best
  | cons c cs ih =>
    rw [longestRun.go]
    split
    · exact Nat.le_trans (Nat.le_max_left _ _) (ih _ _)
    · exact ih _ _

theorem insideLinesWidth?_literal {best run : Nat} (hcs : longestRun.go q.mark best run cs ≤ 2)
    (hq : q.escapes = false) (hrun : run ≤ 2) (htail : tail.head? ≠ some q.mark) :
    insideLinesWidth? q (List.replicate run q.mark ++ cs ++ q.mark :: q.mark :: q.mark :: tail) =
      some (run + cs.length) := by
  induction cs generalizing best run with
  | nil =>
    rw [List.append_nil]
    exact insideLinesWidth?_end hrun htail
  | cons c cs ih =>
    rw [longestRun.go] at hcs
    split at hcs
    · rename_i hmark
      obtain rfl := eq_of_beq hmark
      have hrun' : run + 1 ≤ 2 :=
        Nat.le_trans (Nat.le_trans (Nat.le_max_right _ _) (le_longestRun_go _ _ _ _)) hcs
      have hmore := ih hcs hrun'
      rw [List.replicate_succ', List.append_assoc, List.append_assoc] at hmore
      rw [List.append_assoc]
      simp only [List.cons_append, List.nil_append, List.length_cons] at hmore ⊢
      rw [hmore]
      congr 1
      omega
    · rename_i hmark
      have hc : c ≠ q.mark := by simpa using hmark
      have hrest := ih hcs (Nat.zero_le 2)
      rw [List.replicate_zero, List.nil_append] at hrest
      rw [List.append_assoc, List.cons_append, insideLinesWidth?_run hrun hc,
        insideLinesWidth?_cons (fun h => absurd h hc) (by simp [hq]), hrest]
      simp only [Option.map_some, List.length_cons]
      congr 1
      omega

/-- Whether a text can be written in a form. Between quotation marks every text can. -/
def Quotes.Holds : Quotes → List Char → Prop
  | .basic, _ => True
  | .basicLines, _ => True
  | .literal, cs => (∀ c ∈ cs, isControl c = false) ∧ '\'' ∉ cs
  | .literalLines, cs => (∀ c ∈ cs, isControl c = true → c = '\n') ∧ longestRun '\'' cs ≤ 2

theorem decodeLiteral?_eq (h : ∀ c ∈ cs, ∀ rest, isPlain q c rest = true) :
    decodeLiteral? q cs = some cs := by
  induction cs with
  | nil => rfl
  | cons c cs ih =>
    obtain ⟨hc, hcs⟩ := List.forall_mem_cons.1 h
    rw [decodeLiteral?, if_pos (hc cs), ih hcs]
    rfl

theorem isPlain_of_isControl_eq_false (h : isControl c = false) (rest : List Char) :
    isPlain q c rest = true := by
  have hne {x : Char} (hx : isControl x = true) : c ≠ x := by
    rintro rfl
    exact absurd h (by simp [hx])
  simp [isPlain, hne (x := '\n') rfl, hne (x := '\r') rfl, h]

/-- What is written for the characters of a text. -/
def Quotes.body (q : Quotes) (cs : List Char) : List Char :=
  if q.escapes then encodeBasic q 0 cs else cs

/-- A newline follows the opening delimiter if the text holds one. -/
def Quotes.opening (q : Quotes) (cs : List Char) : List Char :=
  if q.multiline && cs.contains '\n' then ['\n'] else []

def Quotes.inside (q : Quotes) (cs : List Char) : List Char := q.opening cs ++ q.body cs

theorem encodeIn_eq (q : Quotes) (cs : List Char) :
    encodeIn q cs = q.delimiter ++ (q.inside cs ++ q.delimiter) := by
  simp [encodeIn, Quotes.inside, Quotes.opening, Quotes.body]

def Quotes.decodeBody? (q : Quotes) (body : List Char) : Option (List Char) :=
  if q.escapes then decodeBasic? q false body else decodeLiteral? q body

theorem decodeBody?_body (h : q.Holds cs) : q.decodeBody? (q.body cs) = some cs := by
  cases q with
  | basic => exact decodeBasic?_encodeBasic .basic 0 cs
  | basicLines => exact decodeBasic?_encodeBasic .basicLines 0 cs
  | literal => exact decodeLiteral?_eq fun c hc => isPlain_of_isControl_eq_false (h.1 c hc)
  | literalLines =>
    refine decodeLiteral?_eq (q := .literalLines) fun c hc rest => ?_
    by_cases hnewline : c = '\n'
    · subst hnewline
      rfl
    · exact isPlain_of_isControl_eq_false
        (Bool.eq_false_iff.2 fun hcontrol => hnewline (h.1 c hc hcontrol)) rest

/-- A text without a newline does not start with one when it is written, either. -/
theorem head?_encodeBasic (hcs : '\n' ∉ cs) (run : Nat) :
    (encodeBasic q run cs).head? ≠ some '\n' ∧ (encodeBasic q run cs).head? ≠ some '\r' := by
  cases cs with
  | nil => simp [encodeBasic]
  | cons c cs =>
    rcases encodeBasic_cons q run c cs with ⟨-, -, h⟩ | ⟨p, hp, h⟩
    · simp [h]
    · rw [h]
      cases hp with
      | letter h => simp
      | code h => simp
      | plain hplain mark backslash =>
        have hnewline : c ≠ '\n' := fun hc => hcs (hc ▸ List.mem_cons_self)
        have hreturn : c ≠ '\r' := by
          rintro rfl
          have hnil := hplain []
          simp [isPlain] at hnil
        simp [hnewline, hreturn]

theorem head?_body (h : q.Holds cs) (hcs : '\n' ∉ cs) :
    (q.body cs).head? ≠ some '\n' ∧ (q.body cs).head? ≠ some '\r' := by
  have hnewline : cs.head? ≠ some '\n' := fun hhead => hcs (List.mem_of_head? hhead)
  cases q with
  | basic => exact head?_encodeBasic hcs 0
  | basicLines => exact head?_encodeBasic hcs 0
  | literal =>
    refine ⟨hnewline, fun hhead => ?_⟩
    exact absurd (h.1 _ (List.mem_of_head? hhead)) (by decide)
  | literalLines =>
    refine ⟨hnewline, fun hhead => ?_⟩
    exact absurd (h.1 _ (List.mem_of_head? hhead) rfl) (by decide)

/-- Of the newline behind the opening delimiter nothing is left. -/
theorem decode?_inside (h : q.Holds cs) : decode? q (q.inside cs) = some (String.ofList cs) := by
  have hbody : (q.decodeBody? (q.body cs)).map String.ofList = some (String.ofList cs) := by
    rw [decodeBody?_body h]
    rfl
  rw [Quotes.inside, Quotes.opening]
  split
  · rename_i hopening
    rw [List.singleton_append, decode?]
    · exact hbody
    · exact (Bool.and_eq_true_iff.1 hopening).1
  · rename_i hopening
    rw [List.nil_append, decode?]
    · exact hbody
    all_goals
      rintro rest hlines hrest
      have hcs : '\n' ∉ cs := by simpa [hlines] using hopening
      obtain ⟨hnewline, hreturn⟩ := head?_body h hcs
      first
        | exact hnewline (by rw [hrest]; rfl)
        | exact hreturn (by rw [hrest]; rfl)

theorem not_mem_of_longestRun {m : Char} (h : longestRun m cs = 0) : m ∉ cs := by
  rw [longestRun] at h
  induction cs with
  | nil => exact List.not_mem_nil
  | cons c cs ih =>
    rw [longestRun.go] at h
    split at h
    · have hrun := le_longestRun_go m (max 0 (0 + 1)) (0 + 1) cs
      omega
    · rename_i hc
      have hne : m ≠ c := fun heq => hc (by simp [heq])
      simp [hne, ih h]

/-- The form that is chosen for a text admits it. -/
theorem holds_quotesFor (cs : List Char) : (quotesFor cs).Holds cs := by
  simp only [quotesFor, Bool.and_eq_true, Bool.not_eq_true', decide_eq_true_eq]
  split_ifs with _ hliteral _ hlines _
  · trivial
  · obtain ⟨⟨hcontrol, hnewline⟩, hsingle⟩ := hliteral
    refine ⟨fun c hc => Bool.eq_false_iff.2 fun h => ?_, not_mem_of_longestRun hsingle⟩
    have hc' : c = '\n' := by simpa [h] using List.any_eq_false.1 hcontrol c hc
    exact absurd (hc' ▸ hc) (by simpa using hnewline)
  · trivial
  · obtain ⟨hcontrol, hsingle⟩ := hlines
    exact ⟨fun c hc h => by simpa [h] using List.any_eq_false.1 hcontrol c hc, hsingle⟩
  · trivial
  · trivial

/-- The body of a text on one line ends at the first mark. -/
theorem insideWidth?_inside (h : q.Holds cs) (hq : q.multiline = false) (tail : List Char) :
    insideWidth? q (q.inside cs ++ q.mark :: tail) = some (q.inside cs).length := by
  cases q with
  | basic => exact insideWidth?_encodeBasic 0 cs tail
  | literal => exact insideWidth?_literal rfl h.2 tail
  | basicLines | literalLines => cases hq

theorem head?_inside (h : q.Holds cs) (hq : q.multiline = false) :
    (q.inside cs).head? ≠ some q.mark := by
  cases q with
  | basic =>
    cases cs with
    | nil => exact fun h => by cases h
    | cons c cs =>
      rcases encodeBasic_cons .basic 0 c cs with ⟨-, hrun, -⟩ | ⟨p, hp, h⟩
      · exact absurd hrun (Nat.not_lt_zero 0)
      · obtain ⟨d, ds, rfl, hd⟩ := hp.exists_cons
        change (encodeBasic .basic 0 (c :: cs)).head? ≠ some '"'
        rw [h]
        simpa using hd
  | literal => exact fun hhead => h.2 (List.mem_of_head? hhead)
  | basicLines | literalLines => cases hq

theorem insideLinesWidth?_body (h : q.Holds cs) (hq : q.multiline = true)
    (htail : tail.head? ≠ some q.mark) :
    insideLinesWidth? q (q.body cs ++ q.mark :: q.mark :: q.mark :: tail) =
      some (q.body cs).length := by
  cases q with
  | basicLines =>
    have hwidth := insideLinesWidth?_encodeBasic (Nat.zero_le 2) htail cs
    rwa [List.replicate_zero, List.nil_append, Nat.zero_add] at hwidth
  | literalLines =>
    have hwidth := insideLinesWidth?_literal (q := .literalLines) h.2 rfl (Nat.zero_le 2) htail
    rwa [List.replicate_zero, List.nil_append, Nat.zero_add] at hwidth
  | basic | literal => cases hq

theorem insideLinesWidth?_inside (h : q.Holds cs) (hq : q.multiline = true)
    (htail : tail.head? ≠ some q.mark) :
    insideLinesWidth? q (q.inside cs ++ q.mark :: q.mark :: q.mark :: tail) =
      some (q.inside cs).length := by
  have hmark : '\n' ≠ q.mark := by cases q <;> decide
  rw [Quotes.inside, Quotes.opening]
  split
  · rw [List.append_assoc, List.singleton_append,
      insideLinesWidth?_cons (fun h => absurd h hmark) (fun _ => by decide),
      insideLinesWidth?_body h hq htail]
    simp [Nat.add_comm]
  · exact insideLinesWidth?_body h hq htail

theorem lexemes?_lexeme {l : Lexeme} {width : Nat} (hblank : isBlank c = false)
    (hcomment : c ≠ '#') (h : lexeme? c rest = some (l, width)) (gap : Gap) :
    lexemes? gap (c :: rest) = (lexemes? .glued (rest.drop width)).map (⟨l, gap⟩ :: ·) := by
  rw [lexemes?, hblank, if_neg Bool.false_ne_true, if_neg hcomment, h]

theorem quotedLexeme?_single {lines : Quotes} (h : q.Holds cs) (hq : q.multiline = false)
    (hlines : lines.mark = q.mark) (htail : tail.head? ≠ some q.mark) :
    quotedLexeme? lines q (q.inside cs ++ q.mark :: tail) =
      some (.quoted (String.ofList cs) q, (q.inside cs).length + 1) := by
  have hopen : ((q.inside cs ++ q.mark :: tail).take 2 == [lines.mark, lines.mark]) = false := by
    have hhead := head?_inside h hq
    rw [hlines]
    cases hinside : q.inside cs with
    | nil =>
      cases tail with
      | nil => simp
      | cons t ts => simpa using htail
    | cons d ds =>
      rw [hinside] at hhead
      have hd : d ≠ q.mark := by simpa using hhead
      simp [hd]
  rw [quotedLexeme?, hopen, if_neg Bool.false_ne_true, insideWidth?_inside h hq]
  simp [decode?_inside h]

theorem quotedLexeme?_lines {single : Quotes} (h : q.Holds cs) (hq : q.multiline = true)
    (htail : tail.head? ≠ some q.mark) :
    quotedLexeme? q single
        (q.mark :: q.mark :: (q.inside cs ++ q.mark :: q.mark :: q.mark :: tail)) =
      some (.quoted (String.ofList cs) q, (q.inside cs).length + 5) := by
  rw [quotedLexeme?, if_pos (by simp)]
  simp [insideLinesWidth?_inside h hq htail, decode?_inside h]

theorem lexemes?_single (lines : Quotes) (h : q.Holds cs) (hq : q.multiline = false)
    (hlines : lines.mark = q.mark)
    (hmark : ∀ rest, lexeme? q.mark rest = quotedLexeme? lines q rest)
    (htail : tail.head? ≠ some q.mark) (gap : Gap) :
    lexemes? gap (encodeIn q cs ++ tail) =
      (lexemes? .glued tail).map (⟨.quoted (String.ofList cs) q, gap⟩ :: ·) := by
  have hdelimiter : q.delimiter = [q.mark] := by
    rw [Quotes.delimiter, hq]
    rfl
  have hchars : encodeIn q cs ++ tail = q.mark :: (q.inside cs ++ q.mark :: tail) := by
    simp [encodeIn_eq, hdelimiter]
  have hfirst : isBlank q.mark = false ∧ q.mark ≠ '#' := by cases q <;> decide
  rw [hchars, lexemes?_lexeme hfirst.1 hfirst.2
    ((hmark _).trans (quotedLexeme?_single h hq hlines htail))]
  simp

theorem lexemes?_lines (single : Quotes) (h : q.Holds cs) (hq : q.multiline = true)
    (hmark : ∀ rest, lexeme? q.mark rest = quotedLexeme? q single rest)
    (htail : tail.head? ≠ some q.mark) (gap : Gap) :
    lexemes? gap (encodeIn q cs ++ tail) =
      (lexemes? .glued tail).map (⟨.quoted (String.ofList cs) q, gap⟩ :: ·) := by
  have hdelimiter : q.delimiter = [q.mark, q.mark, q.mark] := by
    rw [Quotes.delimiter, hq]
    rfl
  have hchars : encodeIn q cs ++ tail = q.mark :: q.mark :: q.mark ::
      (q.inside cs ++ q.mark :: q.mark :: q.mark :: tail) := by
    simp [encodeIn_eq, hdelimiter]
  have hfirst : isBlank q.mark = false ∧ q.mark ≠ '#' := by cases q <;> decide
  rw [hchars, lexemes?_lexeme hfirst.1 hfirst.2
    ((hmark _).trans (quotedLexeme?_lines h hq htail))]
  simp

/-- What is written for a text between two delimiters of one form is one lexeme. -/
theorem lexemes?_encodeIn (h : q.Holds cs) (htail : tail.head? ≠ some q.mark) (gap : Gap) :
    lexemes? gap (encodeIn q cs ++ tail) =
      (lexemes? .glued tail).map (⟨.quoted (String.ofList cs) q, gap⟩ :: ·) := by
  cases q with
  | basic => exact lexemes?_single .basicLines h rfl rfl (fun _ => rfl) htail gap
  | literal => exact lexemes?_single .literalLines h rfl rfl (fun _ => rfl) htail gap
  | basicLines => exact lexemes?_lines .basic h rfl (fun _ => rfl) htail gap
  | literalLines => exact lexemes?_lines .literal h rfl (fun _ => rfl) htail gap

end BeamEnvelope.Toml
