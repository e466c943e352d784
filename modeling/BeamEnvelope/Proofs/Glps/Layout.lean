import BeamEnvelope.Proofs.Glps.Partition

/-!
# Layout in front of and behind tokens

Blanks and comments put in next to a token change no token: not the one they stand next to, and not
one in front of it whose scanner looks that far. Sources of the same tokens differ in positions at
most, and a fault of one is found in the other at the token of the same ordinal.
-/

namespace BeamEnvelope.Glps

variable {R : Position → Position → Prop} {l : Lexeme} {ls front behind : List Lexeme}
  {bytes u w ys rest : List UInt8} {s s' : Stream}

namespace Stream

/-- The tokens and the end of a stream, without their positions. -/
def outline : Stream → Stream
  | token t _ rest => token t {} rest.outline
  | finish _ => finish {}
  | fault f => fault (f.moveTo {})

def positions : Stream → List Position
  | token _ pos rest => pos :: rest.positions
  | finish pos => [pos]
  | fault f => f.position?.toList

/-- Positions of tokens, or of the ends, with the same number in two streams. -/
def SameOrdinal (s s' : Stream) (p q : Position) : Prop :=
  ∃ i : Nat, s.positions[i]? = some p ∧ s'.positions[i]? = some q

/-- Whatever relates positions of the same ordinal relates all of two streams of the same tokens.
The ends of both have positions, as each is like itself. -/
theorem alike_of_outline_eq (hs : s.Alike (fun _ _ => True) s)
    (hs' : s'.Alike (fun _ _ => True) s') (houtline : s.outline = s'.outline)
    (hR : ∀ p q, SameOrdinal s s' p q → R p q) : s.Alike R s' := by
  induction s generalizing s' with
  | token t p rest ih =>
    cases hs with
    | token t h more =>
      cases hs' with
      | token t' h' more' =>
        rename_i q rest'
        simp only [outline, token.injEq, true_and] at houtline
        obtain ⟨rfl, hrest⟩ := houtline
        refine .token t (hR p q ⟨0, rfl, rfl⟩) (ih more more' hrest fun p q hpq => ?_)
        obtain ⟨i, hp, hq⟩ := hpq
        exact hR p q ⟨i + 1, hp, hq⟩
      | finish h' => cases houtline
      | fault h' same here there => cases houtline
  | finish p =>
    cases hs' with
    | token t h more => cases houtline
    | finish h => exact .finish (hR _ _ ⟨0, rfl, rfl⟩)
    | fault h same here there => cases houtline
  | fault f =>
    cases hs with
    | fault h same here there =>
      cases hs' with
      | token t h more => cases houtline
      | finish h => cases houtline
      | fault h' same' here' there' =>
        refine .fault (hR _ _ ⟨0, ?_, ?_⟩) (fault.inj houtline) here here'
        · simp [positions, here]
        · simp [positions, here']

end Stream

/-- Everything that is met in a source has a position. -/
theorem alike_ofSource (source : List UInt8) :
    (Stream.ofSource source).Alike (fun _ _ => True) (.ofSource source) := by
  obtain ⟨remainder, ending, -, hends, hstream⟩ := (lexed source).ofBytes_eq []
  have halike := alike_ofLexemes (P := fun _ => True) hends fun _ _ => trivial
  rw [← hstream] at halike
  exact halike

/-- Tokens do not depend on where the bytes stand. -/
theorem outline_ofBytes (bytes : List UInt8) (pos pos' : Position) :
    (Stream.ofBytes pos bytes).outline = (Stream.ofBytes pos' bytes).outline := by
  have hlexed := lexed bytes
  generalize lexemes bytes = ls at hlexed
  induction hlexed generalizing pos pos' with
  | stop h =>
    cases h with
    | layout h =>
      rw [ofBytes_of_isLastLayout h, ofBytes_of_isLastLayout h]
      rfl
    | fault h hblank hhash hscan =>
      obtain ⟨front, -, -, -, hmoved⟩ := scan_error hscan
      rw [h.ofBytes_append, h.ofBytes_append, ofBytes_cons hblank hhash, ofBytes_cons hblank hhash,
        hmoved, hmoved]
      simp [Stream.outline]
  | step hheads _ ih =>
    rw [ofBytes_of_heads hheads, ofBytes_of_heads hheads, Stream.outline, Stream.outline,
      ih (pos.past _) (pos'.past _)]

/-- Behind some lexemes of a source, layout may take the place of other layout. If there was none,
the tokens in front of it are formed again, as none of them goes on with layout. -/
theorem outline_relayout (hu : IsLayout u) (hw : IsLayout w) (hne : w ≠ [])
    (h : Lexed (front.flatMap Lexeme.extent ++ (u ++ ys)) (front ++ behind)) (pos pos' : Position) :
    (Stream.ofBytes pos (front.flatMap Lexeme.extent ++ (w ++ ys))).outline =
      (Stream.ofBytes pos' (front.flatMap Lexeme.extent ++ (u ++ ys))).outline := by
  induction front generalizing pos pos' with
  | nil =>
    rw [List.flatMap_nil, List.nil_append, List.nil_append, hu.ofBytes_append, hw.ofBytes_append]
    exact outline_ofBytes ys _ _
  | cons l front ih =>
    simp only [List.flatMap_cons, List.append_assoc, List.cons_append] at h ⊢
    generalize hbytes : l.extent ++ (front.flatMap Lexeme.extent ++ (u ++ ys)) = bytes at h
    cases h with
    | step hheads more =>
      obtain rfl := List.append_cancel_left hbytes
      have hcut : l.Heads (front.flatMap Lexeme.extent ++ (w ++ ys)) :=
        hheads.cut (hw.breaks hne ys)
      rw [← hbytes, ofBytes_of_heads hcut, ofBytes_of_heads hheads, Stream.outline, Stream.outline,
        ih more (pos.past _) (pos'.past _)]

/-- The source with `w` put in behind its first `offset` bytes. -/
def insertAt (source : List UInt8) (offset : Nat) (w : List UInt8) : List UInt8 :=
  source.take offset ++ (w ++ source.drop offset)

theorem insertAt_append (xs ys w : List UInt8) :
    insertAt (xs ++ ys) xs.length w = xs ++ (w ++ ys) := by
  rw [insertAt, List.take_left, List.drop_left]

/-- The offset of the first byte of a token behind other lexemes. -/
def startBehind (front : List Lexeme) (l : Lexeme) : Nat :=
  (front.flatMap Lexeme.extent ++ l.layout).length

theorem outline_insertAt_start {source : List UInt8} (hl : lexemes source = front ++ l :: behind)
    (hw : IsLayout w) :
    (Stream.ofSource (insertAt source (startBehind front l) w)).outline =
      (Stream.ofSource source).outline := by
  by_cases hne : w = []
  · simp [hne, insertAt]
  · have hlexed := lexed source
    obtain ⟨remainder, ending, hsource, -, -⟩ := hlexed.ofBytes_eq []
    have hlayout : IsLayout l.layout := by
      obtain ⟨rest, hheads⟩ := hlexed.heads_of_mem (l := l) (by simp [hl])
      exact hheads.layout
    have hsplit : source = front.flatMap Lexeme.extent ++
        (l.layout ++ (l.body ++ (behind.flatMap Lexeme.extent ++ remainder))) := by
      rw [hsource, hl]
      simp [Lexeme.extent]
    rw [hl] at hlexed
    generalize l.body ++ (behind.flatMap Lexeme.extent ++ remainder) = ys at hsplit
    subst hsplit
    rw [startBehind, ← List.append_assoc, insertAt_append]
    have hrelayout := outline_relayout hlayout (hlayout.append hw) (by simp [hne]) hlexed {} {}
    simpa [Stream.ofSource] using hrelayout

theorem outline_insertAt_stop {source : List UInt8} (hl : lexemes source = front ++ l :: behind)
    (hw : IsLayout w) :
    (Stream.ofSource (insertAt source (startBehind front l + l.body.length) w)).outline =
      (Stream.ofSource source).outline := by
  by_cases hne : w = []
  · simp [hne, insertAt]
  · have hlexed := lexed source
    obtain ⟨remainder, ending, hsource, -, -⟩ := hlexed.ofBytes_eq []
    have hlexemes : lexemes source = (front ++ [l]) ++ behind := by simp [hl]
    have hsplit : source = (front ++ [l]).flatMap Lexeme.extent ++
        ([] ++ (behind.flatMap Lexeme.extent ++ remainder)) := by
      rw [hsource, hl]
      simp
    have hoffset : startBehind front l + l.body.length =
        ((front ++ [l]).flatMap Lexeme.extent).length := by
      simp [startBehind, Lexeme.extent, Nat.add_assoc]
    rw [hlexemes] at hlexed
    generalize behind.flatMap Lexeme.extent ++ remainder = ys at hsplit
    subst hsplit
    rw [hoffset, List.nil_append, insertAt_append]
    exact outline_relayout .nil hw hne hlexed {} {}

/-- Layout next to a token leaves all tokens and the end as they are, and sources of the same tokens
and the same end are read as the same lattice, or with the same fault at the same ordinal. -/
theorem layout_is_insignificant :
    (∀ (source w : List UInt8) (front behind : List Lexeme) (l : Lexeme),
      lexemes source = front ++ l :: behind → IsLayout w →
      (Stream.ofSource (insertAt source (startBehind front l) w)).outline =
        (Stream.ofSource source).outline ∧
      (Stream.ofSource (insertAt source (startBehind front l + l.body.length) w)).outline =
        (Stream.ofSource source).outline) ∧
    ∀ source source' : List UInt8,
      (Stream.ofSource source).outline = (Stream.ofSource source').outline →
      Agree (Stream.SameOrdinal (.ofSource source) (.ofSource source')) Eq (read source)
        (read source') := by
  refine ⟨fun source w front behind l hl hw => ?_, fun source source' houtline => ?_⟩
  · exact ⟨outline_insertAt_start hl hw, outline_insertAt_stop hl hw⟩
  · exact agree_read (Stream.alike_of_outline_eq (alike_ofSource source) (alike_ofSource source')
      houtline fun _ _ h => h)

/-- `a=1..5;` -/
def pointed : List UInt8 := [97, 61, 49, 46, 46, 53, 59]

theorem lexemes_pointed : lexemes pointed =
    [⟨[], 97, [], .name "a"⟩, ⟨[], 61, [], .mark .equals⟩, ⟨[], 49, [46], .number 1.0⟩] ++
      ⟨[], 46, [53], .number 0.5⟩ :: [⟨[], 59, [], .mark .semicolon⟩] := by
  decide +kernel

/-- A newline between the two numbers, which touch at their points, changes no token. The fault of
the source is found at the second number in front of it and behind it. -/
theorem pointed_layout_is_insignificant :
    (Stream.ofSource (insertAt pointed 4 [Position.newline])).outline =
        (Stream.ofSource pointed).outline ∧
      Agree (Stream.SameOrdinal (.ofSource (insertAt pointed 4 [Position.newline]))
        (.ofSource pointed)) Eq (read (insertAt pointed 4 [Position.newline])) (read pointed) := by
  have hlayout : IsLayout [Position.newline] := .blank rfl .nil
  have houtline :=
    (layout_is_insignificant.1 pointed [Position.newline] _ _ _ lexemes_pointed hlayout).1
  exact ⟨houtline, layout_is_insignificant.2 _ _ houtline⟩

end BeamEnvelope.Glps
