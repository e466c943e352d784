import BeamEnvelope.Proofs.Glps.AlikeStreams

/-!
# A source as a row of lexemes

The tokens that are met from left to right take up the whole source, but for blanks and comments in
front of each and behind the last one. Positions count the newlines in front of a byte and the bytes
since the last of them, and no fault of a source is reported elsewhere than at one of its bytes or
at its end.
-/

namespace BeamEnvelope.Glps

variable {P : Position → Prop} {l : Lexeme} {ls : List Lexeme}
  {before bytes remainder rest : List UInt8} {ending : Stream}

/-- The number of steps to the end of a stream, each of which meets a token, the end of the source
or the fault in its place. -/
def Stream.calls : Stream → Nat
  | token _ _ rest => rest.calls + 1
  | finish _ => 1
  | fault _ => 1

/-- The byte of the source at which `pos` points, or its end. -/
def IsPlaceOf (source : List UInt8) (pos : Position) : Prop :=
  ∃ offset ≤ source.length, pos = .behind (source.take offset)

theorem isPlaceOf_of_prefix {source front : List UInt8} (h : front <+: source) :
    IsPlaceOf source (.behind front) :=
  ⟨front.length, h.length_le, by rw [← List.prefix_iff_eq_take.1 h]⟩

theorem Ends.calls_eq (h : Ends before remainder ending) : ending.calls = 1 := by
  cases h <;> rfl

theorem calls_ofLexemes (before : List UInt8) (ls : List Lexeme) (ending : Stream) :
    (Stream.ofLexemes before ls ending).calls = ls.length + ending.calls := by
  induction ls generalizing before with
  | nil => simp [Stream.ofLexemes]
  | cons l ls ih =>
    rw [Stream.ofLexemes, Stream.calls, ih, List.length_cons]
    omega

/-- No token is empty. -/
theorem length_le_length_flatMap (ls : List Lexeme) :
    ls.length ≤ (ls.flatMap Lexeme.extent).length := by
  induction ls with
  | nil => simp
  | cons l ls ih =>
    simp only [List.length_cons, List.flatMap_cons, List.length_append, Lexeme.extent, Lexeme.body]
    omega

/-- A token is formed of its own bytes alone. -/
theorem Lexeme.Heads.ofSource_body (h : l.Heads rest) : Stream.ofSource l.body =
    .token l.token {} (.finish (.behind l.body)) := by
  have hopen : l.Heads ([] ++ rest) := h
  have hcut : l.Heads ([] ++ []) := hopen.cut breaks_nil
  have halone : ({ l with layout := [] } : Lexeme).Heads [] :=
    ⟨.nil, hcut.blank, hcut.hash, hcut.scan⟩
  have hstream := ofBytes_of_heads halone {}
  have hbody : ({ l with layout := [] } : Lexeme).extent = l.body := rfl
  rw [hbody, List.append_nil, ofBytes_nil] at hstream
  rw [Stream.ofSource, hstream]
  exact congrArg (Stream.token _ _ <| Stream.finish ·) (past_behind [] l.body)

theorem alike_of_ends (hends : Ends before remainder ending)
    (hP : ∀ front, front <+: before ++ remainder → P (.behind front)) :
    ending.Alike (fun p _ => P p) ending := by
  cases hends with
  | layout h => exact .finish (hP _ (List.prefix_refl _))
  | fault h hblank hhash hscan =>
    rename_i layout rest b f
    obtain ⟨front, behind, hsplit, hpos, -⟩ := scan_error hscan
    rw [past_behind] at hpos
    refine .fault (hP _ ?_) rfl hpos hpos
    rw [hsplit]
    simp

theorem alike_ofLexemes (hends : Ends (before ++ ls.flatMap Lexeme.extent) remainder ending)
    (hP : ∀ front, front <+: before ++ (ls.flatMap Lexeme.extent ++ remainder) →
      P (.behind front)) :
    (Stream.ofLexemes before ls ending).Alike (fun p _ => P p) (.ofLexemes before ls ending) := by
  induction ls generalizing before with
  | nil =>
    rw [List.flatMap_nil, List.append_nil] at hends
    exact alike_of_ends hends hP
  | cons l ls ih =>
    refine .token l.token (hP _ ?_) (ih ?_ ?_)
    · simp [Lexeme.extent]
    · rwa [List.append_assoc]
    · intro front hfront
      refine hP front ?_
      simpa using hfront

/-- What is promised of the tokens and the positions of a source. -/
structure IsPartitioned (source : List UInt8) : Prop where
  /-- The lexemes stand one behind the other, and what follows them forms no token. Each token is
  met at the position of its first byte. -/
  covers : ∃ remainder ending, source = (lexemes source).flatMap Lexeme.extent ++ remainder ∧
    Ends ((lexemes source).flatMap Lexeme.extent) remainder ending ∧
    Stream.ofSource source = .ofLexemes [] (lexemes source) ending
  /-- In front of a token stand only blanks and comments that are ended by a newline. -/
  layout : ∀ l ∈ lexemes source, IsLayout l.layout
  /-- The bytes of a token alone are that token and nothing else. -/
  alone : ∀ l ∈ lexemes source, Stream.ofSource l.body =
    .token l.token {} (.finish (.behind l.body))
  /-- The end is met after at most one step for each byte and one more. -/
  calls : (Stream.ofSource source).calls ≤ source.length + 1
  /-- Every fault that has a position is that of a byte of the source, or of its end. -/
  placed : ∀ f pos, read source = .error f → f.position? = some pos → IsPlaceOf source pos

/-- Every source is a row of lexemes, read at exact positions. -/
theorem isPartitioned (source : List UInt8) : IsPartitioned source := by
  have hlexed := lexed source
  obtain ⟨remainder, ending, hsource, hends, hstream⟩ := hlexed.ofBytes_eq []
  rw [List.nil_append] at hends
  have hofSource : Stream.ofSource source = .ofLexemes [] (lexemes source) ending := hstream
  refine ⟨⟨remainder, ending, hsource, hends, hofSource⟩, ?_, ?_, ?_, ?_⟩
  · intro l hl
    obtain ⟨rest, hheads⟩ := hlexed.heads_of_mem hl
    exact hheads.layout
  · intro l hl
    obtain ⟨rest, hheads⟩ := hlexed.heads_of_mem hl
    exact hheads.ofSource_body
  · have hlength := congrArg List.length hsource
    have hle := length_le_length_flatMap (lexemes source)
    rw [List.length_append] at hlength
    rw [hofSource, calls_ofLexemes, hends.calls_eq]
    omega
  · intro f pos hf hpos
    have halike : (Stream.ofSource source).Alike (fun p _ => IsPlaceOf source p)
        (.ofSource source) := by
      rw [hofSource]
      refine alike_ofLexemes (by simpa using hends) fun front hfront => ?_
      rw [List.nil_append, ← hsource] at hfront
      exact isPlaceOf_of_prefix hfront
    have hagree := agree_read halike
    rw [hf] at hagree
    cases hagree with
    | error h =>
      have hplaces := h.places
      rw [hpos] at hplaces
      cases hplaces with
      | some h => exact h

end BeamEnvelope.Glps
