import BeamEnvelope.Proofs.Glps.LongestTokens

/-!
# The bytes of each token

A source is cut into lexemes: the blanks and comments in front of a token and the bytes of the
token. Behind the last lexeme stand only blanks and comments, of which the last one may be open, or
a byte at which no token can be formed. Where the bytes stand plays no part in that, so positions
are found from the bytes in front alone.
-/

namespace BeamEnvelope.Glps

open Bytes

variable {b : UInt8} {bytes text layout xs ys zs rest : List UInt8} {pos pos' : Position}
  {f : Fault}

def Position.behind (bytes : List UInt8) : Position :=
  ⟨1 + bytes.count newline, 1 + (bytes.reverse.takeWhile (· != newline)).length⟩

theorem next_behind (bytes : List UInt8) (b : UInt8) :
    (Position.behind bytes).next b = .behind (bytes ++ [b]) := by
  by_cases hb : b = Position.newline
  · simp [Position.behind, Position.next, hb, Nat.add_assoc]
  · simp [Position.behind, Position.next, hb, Nat.add_assoc, Nat.add_comm 1]

theorem past_behind (bytes more : List UInt8) :
    (Position.behind bytes).past more = .behind (bytes ++ more) := by
  induction more generalizing bytes with
  | nil => simp [Position.past]
  | cons b more ih =>
    calc (Position.behind bytes).past (b :: more)
        = ((Position.behind bytes).next b).past more := rfl
      _ = (Position.behind (bytes ++ [b])).past more := by rw [next_behind]
      _ = .behind (bytes ++ b :: more) := by rw [ih, List.append_assoc, List.singleton_append]

/-- Blanks, and comments with the newlines that end them. -/
inductive IsLayout : List UInt8 → Prop
  | nil : IsLayout []
  | blank {b : UInt8} {bytes : List UInt8} (h : isBlank b = true) (rest : IsLayout bytes) :
    IsLayout (b :: bytes)
  | comment {text bytes : List UInt8} (h : Position.newline ∉ text) (rest : IsLayout bytes) :
    IsLayout (hash :: (text ++ Position.newline :: bytes))

theorem IsLayout.append (hxs : IsLayout xs) (hys : IsLayout ys) : IsLayout (xs ++ ys) := by
  induction hxs with
  | nil => exact hys
  | blank h _ ih => exact .blank h ih
  | comment h _ ih =>
    rw [List.cons_append, List.append_assoc, List.cons_append]
    exact .comment h ih

theorem IsLayout.breaks (h : IsLayout xs) (hne : xs ≠ []) (ys : List UInt8) :
    Breaks (xs ++ ys) := by
  cases h with
  | nil => exact absurd rfl hne
  | blank hb _ => exact breaks_of_isBlank hb
  | comment _ _ => exact breaks_hash

theorem IsLayout.layoutWidth_append (h : IsLayout xs) (ys : List UInt8) :
    layoutWidth false (xs ++ ys) = xs.length + layoutWidth false ys := by
  induction h with
  | nil => simp
  | blank hb _ ih =>
    rw [List.cons_append, layoutWidth, if_pos hb, ih, List.length_cons]
    omega
  | comment htext _ ih =>
    rw [List.cons_append, List.append_assoc, List.cons_append, layoutWidth, if_neg (by decide),
      if_pos (by decide), layoutWidth_comment htext, ih]
    simp only [List.length_cons, List.length_append]
    omega

/-- Layout in front of the end of a source: its last comment may run to the end. -/
def IsLastLayout (bytes : List UInt8) : Prop := IsLayout bytes ∨
  ∃ layout text, bytes = layout ++ hash :: text ∧ IsLayout layout ∧ Position.newline ∉ text

theorem layoutWidth_open (h : Position.newline ∉ text) : layoutWidth true text = text.length := by
  induction text with
  | nil => rfl
  | cons b text ih =>
    obtain ⟨hb, htext⟩ := not_or.1 (List.mem_cons.not.1 h)
    have hopen : (b != Position.newline) = true := bne_iff_ne.2 (Ne.symm hb)
    rw [layoutWidth, hopen, ih htext, List.length_cons]

theorem IsLastLayout.layoutWidth_eq (h : IsLastLayout bytes) :
    layoutWidth false bytes = bytes.length := by
  rcases h with h | ⟨layout, text, rfl, hlayout, htext⟩
  · simpa [layoutWidth] using h.layoutWidth_append []
  · rw [hlayout.layoutWidth_append, layoutWidth, if_neg (by decide), if_pos (by decide),
      layoutWidth_open htext, List.length_append, List.length_cons]

/-- Every source goes on with layout up to its end, or up to a byte of none. -/
theorem exists_layout (bytes : List UInt8) : IsLastLayout bytes ∨ ∃ layout b rest,
    bytes = layout ++ b :: rest ∧ IsLayout layout ∧ isBlank b = false ∧ b ≠ hash := by
  induction hn : bytes.length using Nat.strongRecOn generalizing bytes with
  | ind n ih =>
    -- layout in front of what is split by the hypothesis
    have hbehind (front bytes : List UInt8) (hfront : IsLayout front) (hlt : bytes.length < n) :
        IsLastLayout (front ++ bytes) ∨ ∃ layout b rest, front ++ bytes = layout ++ b :: rest ∧
          IsLayout layout ∧ isBlank b = false ∧ b ≠ hash := by
      rcases ih _ hlt bytes rfl with
        (h | ⟨layout, text, rfl, h, htext⟩) | ⟨layout, b, rest, rfl, h, hb⟩
      · exact .inl (.inl (hfront.append h))
      · exact .inl (.inr ⟨front ++ layout, text, by simp, hfront.append h, htext⟩)
      · exact .inr ⟨front ++ layout, b, rest, by simp, hfront.append h, hb⟩
    cases bytes with
    | nil => exact .inl (.inl .nil)
    | cons b bytes =>
      by_cases hblank : isBlank b = true
      · exact hbehind [b] bytes (.blank hblank .nil) (by simp [← hn])
      · by_cases hhash : b = hash
        · subst hhash
          by_cases hline : Position.newline ∈ bytes
          · obtain ⟨text, more, rfl, htext⟩ := List.eq_append_cons_of_mem hline
            have h := hbehind _ more (.comment htext .nil) (by simp [← hn]; omega)
            simpa using h
          · exact .inl (.inr ⟨[], bytes, rfl, .nil, hline⟩)
        · exact .inr ⟨[], b, bytes, rfl, .nil, Bool.eq_false_iff.2 hblank, hhash⟩

namespace Fault

def moveTo (p : Position) : Fault → Fault
  | invalidCharacter _ b => invalidCharacter p b
  | unterminatedQuote _ => unterminatedQuote p
  | unexpected _ expected found => unexpected p expected found
  | undefined _ n => undefined p n
  | redefined _ n => redefined p n
  | mismatch _ cause => mismatch p cause
  | overflow _ cause => overflow p cause
  | noBeamline => noBeamline

@[simp] theorem moveTo_moveTo (f : Fault) (p q : Position) :
    (f.moveTo p).moveTo q = f.moveTo q := by
  cases f <;> rfl

end Fault

theorem numeral_error {text : String} (h : numeral pos text = .error f) :
    f.position? = some pos ∧ ∀ pos', numeral pos' text = .error (f.moveTo pos') := by
  unfold numeral at h ⊢
  split at h
  · cases h
    exact ⟨rfl, fun _ => rfl⟩
  · split at h
    · cases h
    · rename_i hfinite
      cases h
      exact ⟨rfl, fun _ => if_neg hfinite⟩

theorem stringLiteral_error (h : stringLiteral pos rest = .error f) : ∃ front behind,
    quote :: rest = front ++ behind ∧ f.position? = some (pos.past front) ∧
      ∀ pos', stringLiteral pos' rest = .error (f.moveTo (pos'.past front)) := by
  unfold stringLiteral at h ⊢
  dsimp only at h ⊢
  split at h
  · cases h
    exact ⟨[], quote :: rest, rfl, rfl, fun _ => rfl⟩
  · rename_i c behind hcut
    split at h
    · -- the byte that no text may hold, behind the quote and the bytes in front of it
      cases h
      refine ⟨quote :: rest.takeWhile fun b => b != quote && b != 0, c :: behind, ?_, rfl,
        fun pos' => ?_⟩
      · rw [← hcut, List.cons_append, drop_length_takeWhile, List.takeWhile_append_dropWhile]
      · rename_i hc
        rw [if_pos hc]
        rfl
    · cases h

/-- Where no token can be formed, the fault is that of one of its bytes, and the same one wherever
the bytes stand. -/
theorem scan_error (h : scan pos b rest = .error f) : ∃ front behind,
    b :: rest = front ++ behind ∧ f.position? = some (pos.past front) ∧
      ∀ pos', scan pos' b rest = .error (f.moveTo (pos'.past front)) := by
  unfold scan at h ⊢
  split at h
  · cases h
  · rename_i hname
    split at h
    · rename_i hnumeral
      dsimp only at h ⊢
      generalize ascii ((b :: rest).take (numeralWidth (b :: rest))) = digits at h ⊢
      cases hdigits : numeral pos digits with
      | ok t =>
        rw [hdigits] at h
        cases h
      | error e =>
        rw [hdigits] at h
        cases h
        obtain ⟨hpos, hmoved⟩ := numeral_error hdigits
        refine ⟨[], b :: rest, rfl, hpos, fun pos' => ?_⟩
        rw [if_neg hname, if_pos hnumeral, hmoved]
        rfl
    · rename_i hnumeral
      split at h
      · rename_i hquote
        obtain rfl : b = quote := by simpa using hquote
        exact stringLiteral_error h
      · rename_i hquote
        split at h
        · cases h
        · cases h
          refine ⟨[], b :: rest, rfl, rfl, fun pos' => ?_⟩
          rw [if_neg hname, if_neg hnumeral, if_neg hquote]
          rfl

theorem scan_moved {r : Token × Nat} (h : scan pos b rest = .ok r) (pos' : Position) :
    scan pos' b rest = .ok r := by
  have hopen : scan pos b (rest ++ []) = .ok r := by rwa [List.append_nil]
  have hcut : scan pos' b (rest ++ []) = .ok r := scan_cut hopen (width_le_of_scan h) breaks_nil
  rwa [List.append_nil] at hcut

/-- A token with its bytes, of which there is a first one, and the layout in front of it. -/
structure Lexeme where
  layout : List UInt8
  first : UInt8
  others : List UInt8
  token : Token
deriving DecidableEq

namespace Lexeme

def body (l : Lexeme) : List UInt8 := l.first :: l.others

/-- All bytes up to the last one of the token. -/
def extent (l : Lexeme) : List UInt8 := l.layout ++ l.body

structure Heads (l : Lexeme) (rest : List UInt8) : Prop where
  layout : IsLayout l.layout
  blank : isBlank l.first = false
  hash : l.first ≠ hash
  scan : scan {} l.first (l.others ++ rest) = .ok (l.token, l.others.length)

end Lexeme

/-- The lexemes of a source, up to its end or to the first place where no token can be formed. -/
def lexemes (bytes : List UInt8) : List Lexeme :=
  let skipped := layoutWidth false bytes
  match _h : bytes.drop skipped with
  | [] => []
  | b :: rest =>
    match scan {} b rest with
    | .error _ => []
    | .ok (t, width) =>
      { layout := bytes.take skipped, first := b, others := rest.take width, token := t } ::
        lexemes (rest.drop width)
termination_by bytes.length
decreasing_by
  have shorter := length_lt_of_drop_eq_cons _h
  simp only [List.length_drop]
  omega

inductive Stops : List UInt8 → Prop
  | layout {bytes : List UInt8} (h : IsLastLayout bytes) : Stops bytes
  | fault {layout rest : List UInt8} {b : UInt8} {f : Fault} (h : IsLayout layout)
    (hblank : isBlank b = false) (hhash : b ≠ hash) (hscan : scan {} b rest = .error f) :
    Stops (layout ++ b :: rest)

/-- The bytes start with the lexemes, and nothing stands behind them that forms a token. -/
inductive Lexed : List UInt8 → List Lexeme → Prop
  | stop {bytes : List UInt8} (h : Stops bytes) : Lexed bytes []
  | step {l : Lexeme} {ls : List Lexeme} {rest : List UInt8} (h : l.Heads rest)
    (more : Lexed rest ls) : Lexed (l.extent ++ rest) (l :: ls)

variable {l : Lexeme} {ls : List Lexeme}

theorem lexemes_of_isLastLayout (h : IsLastLayout bytes) : lexemes bytes = [] := by
  have hdrop : bytes.drop (layoutWidth false bytes) = [] := by
    rw [h.layoutWidth_eq, List.drop_length]
  rw [lexemes]
  split
  · rfl
  · rename_i hcons
    rw [hdrop] at hcons
    cases hcons

theorem lexemes_eq (h : IsLayout layout) (hblank : isBlank b = false) (hhash : b ≠ hash) :
    lexemes (layout ++ b :: rest) = match scan {} b rest with
      | .error _ => []
      | .ok (t, width) =>
        ⟨layout, b, rest.take width, t⟩ :: lexemes (rest.drop width) := by
  have hwidth : layoutWidth false (layout ++ b :: rest) = layout.length := by
    rw [h.layoutWidth_append, layoutWidth_eq_zero hblank hhash, Nat.add_zero]
  have hdrop : (layout ++ b :: rest).drop (layoutWidth false (layout ++ b :: rest)) =
      b :: rest := by
    rw [hwidth, List.drop_left]
  rw [lexemes]
  split
  · rename_i hnil
    rw [hdrop] at hnil
    cases hnil
  · rename_i hcons
    obtain ⟨rfl, rfl⟩ := List.cons.inj (hdrop.symm.trans hcons)
    rw [hwidth, List.take_left]

/-- Every source is cut into its lexemes. -/
theorem lexed (bytes : List UInt8) : Lexed bytes (lexemes bytes) := by
  induction hn : bytes.length using Nat.strongRecOn generalizing bytes with
  | ind n ih =>
    rcases exists_layout bytes with h | ⟨layout, b, rest, rfl, hlayout, hblank, hhash⟩
    · rw [lexemes_of_isLastLayout h]
      exact .stop (.layout h)
    · rw [lexemes_eq hlayout hblank hhash]
      cases hscan : scan {} b rest with
      | error f => exact .stop (.fault hlayout hblank hhash hscan)
      | ok r =>
        obtain ⟨t, width⟩ := r
        have hlength : (rest.take width).length = width :=
          List.length_take_of_le (width_le_of_scan hscan)
        let l : Lexeme := { layout, first := b, others := rest.take width, token := t }
        have hheads : l.Heads (rest.drop width) :=
          ⟨hlayout, hblank, hhash, by rw [List.take_append_drop, hlength, hscan]⟩
        have hbytes : layout ++ b :: rest = l.extent ++ rest.drop width := by
          simp [l, Lexeme.extent, Lexeme.body]
        have hlt : (rest.drop width).length < n := by
          rw [← hn, List.length_append, List.length_cons, List.length_drop]
          omega
        rw [hbytes]
        exact .step hheads (ih _ hlt _ rfl)

theorem Lexed.heads_of_mem (h : Lexed bytes ls) (hl : l ∈ ls) : ∃ rest, l.Heads rest := by
  induction h with
  | stop => cases hl
  | step hheads _ ih =>
    rcases List.mem_cons.1 hl with rfl | hl
    · exact ⟨_, hheads⟩
    · exact ih hl

/-- What is looked at behind a token is not seen where layout follows, or nothing. -/
theorem Lexeme.Heads.cut (h : l.Heads (xs ++ ys)) (hzs : Breaks zs) : l.Heads (xs ++ zs) := by
  refine ⟨h.layout, h.blank, h.hash, ?_⟩
  have hscan := h.scan
  rw [← List.append_assoc] at hscan ⊢
  exact scan_cut hscan (by simp) hzs

theorem IsLayout.ofBytes_append (h : IsLayout layout) (pos : Position) (bytes : List UInt8) :
    Stream.ofBytes pos (layout ++ bytes) = .ofBytes (pos.past layout) bytes :=
  ofBytes_skip pos layout (h.layoutWidth_append bytes)

theorem ofBytes_of_isLastLayout (h : IsLastLayout bytes) (pos : Position) :
    Stream.ofBytes pos bytes = .finish (pos.past bytes) := by
  have hwidth : layoutWidth false (bytes ++ []) = bytes.length + layoutWidth false [] := by
    rw [List.append_nil, h.layoutWidth_eq]
    rfl
  have hskip := ofBytes_skip pos bytes hwidth
  rwa [List.append_nil, ofBytes_nil] at hskip

theorem ofBytes_of_heads (h : l.Heads rest) (pos : Position) :
    Stream.ofBytes pos (l.extent ++ rest) =
      .token l.token (pos.past l.layout) (.ofBytes (pos.past l.extent) rest) := by
  have hsplit : l.extent ++ rest = l.layout ++ l.first :: (l.others ++ rest) := by
    simp [Lexeme.extent, Lexeme.body]
  rw [hsplit, h.layout.ofBytes_append, ofBytes_cons h.blank h.hash, scan_moved h.scan,
    Lexeme.extent, Lexeme.body, Position.past_append]
  simp [Position.past]

/-- How the stream goes on behind all lexemes. -/
inductive Ends (before : List UInt8) : List UInt8 → Stream → Prop
  | layout {bytes : List UInt8} (h : IsLastLayout bytes) :
    Ends before bytes (.finish (.behind (before ++ bytes)))
  | fault {layout rest : List UInt8} {b : UInt8} {f : Fault} (h : IsLayout layout)
    (hblank : isBlank b = false) (hhash : b ≠ hash)
    (hscan : scan (.behind (before ++ layout)) b rest = .error f) :
    Ends before (layout ++ b :: rest) (.fault f)

theorem Stops.ends (h : Stops bytes) (before : List UInt8) :
    Ends before bytes (.ofBytes (.behind before) bytes) := by
  cases h with
  | layout h =>
    rw [ofBytes_of_isLastLayout h, past_behind]
    exact .layout h
  | fault h hblank hhash hscan =>
    obtain ⟨front, -, -, -, hmoved⟩ := scan_error hscan
    rw [h.ofBytes_append, ofBytes_cons hblank hhash, past_behind, hmoved]
    exact .fault h hblank hhash (hmoved _)

/-- The tokens of lexemes behind the bytes `before`, each at its first byte. -/
def Stream.ofLexemes (before : List UInt8) : List Lexeme → Stream → Stream
  | [], ending => ending
  | l :: ls, ending =>
    .token l.token (.behind (before ++ l.layout)) (ofLexemes (before ++ l.extent) ls ending)

theorem Lexed.ofBytes_eq (h : Lexed bytes ls) (before : List UInt8) : ∃ remainder ending,
    bytes = ls.flatMap Lexeme.extent ++ remainder ∧
      Ends (before ++ ls.flatMap Lexeme.extent) remainder ending ∧
      Stream.ofBytes (.behind before) bytes = .ofLexemes before ls ending := by
  induction h generalizing before with
  | stop h => exact ⟨_, _, rfl, by simpa using h.ends before, rfl⟩
  | step hheads _ ih =>
    rename_i l ls rest _
    obtain ⟨remainder, ending, rfl, hends, hstream⟩ := ih (before ++ l.extent)
    refine ⟨remainder, ending, ?_, ?_, ?_⟩
    · rw [List.flatMap_cons, List.append_assoc]
    · rwa [List.flatMap_cons, ← List.append_assoc]
    · rw [ofBytes_of_heads hheads, past_behind, past_behind, hstream, Stream.ofLexemes]

end BeamEnvelope.Glps
