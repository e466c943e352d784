import BeamEnvelope.Proofs.Text.Bytes
import BeamEnvelope.Proofs.Text.Lowercase
import BeamEnvelope.Tlm.Lines

/-!
# Joined lines

However a file is cut into lines and its lines are joined again, no joined line holds the end of a
line or a capital letter of ASCII. A joined line takes one stretch of the lines and bears the
number of the first of them, whatever the stretches in front of it have taken.
-/

namespace BeamEnvelope.Tlm

open Text

variable {line cs front : List Char}

/-- Whether a text can be a line of a file without regard to case. -/
def IsLine (cs : List Char) : Prop := ∀ c ∈ cs, ¬ IsCapital c ∧ c ≠ '\n'

theorem IsLine.mono (h : IsLine cs) (hsub : front ⊆ cs) : IsLine front := fun c hc => h c (hsub hc)

theorem IsLine.append (h : IsLine front) (h' : IsLine cs) : IsLine (front ++ cs) :=
  fun c hc => (List.mem_append.1 hc).elim (h c) (h' c)

/-- The line that a newline ends. It is given backwards. -/
def ended : List UInt8 → List UInt8
  | 13 :: line => line.reverse
  | line => line.reverse

theorem splitLines_go_newline (start rest : List UInt8) :
    splitLines.go start (10 :: rest) = ended start :: splitLines rest := by
  rw [splitLines.go.eq_def]
  rfl

theorem splitLines_go_of_ne {b : UInt8} (h : b ≠ 10) (start rest : List UInt8) :
    splitLines.go start (b :: rest) = splitLines.go (b :: start) rest := by
  rw [splitLines.go.eq_def]
  exact if_neg h

theorem newline_not_mem_splitLines_go {start bytes : List UInt8} (hstart : 10 ∉ start) :
    ∀ line ∈ splitLines.go start bytes, 10 ∉ line := by
  induction bytes generalizing start with
  | nil =>
    rw [splitLines.go]
    split
    · exact fun line h => absurd h List.not_mem_nil
    · intro line h
      obtain rfl := List.mem_singleton.1 h
      simpa using hstart
  | cons b rest ih =>
    rw [splitLines.go.eq_def]
    dsimp only
    split
    · refine List.forall_mem_cons.2 ⟨?_, ih List.not_mem_nil⟩
      split
      · simp only [List.mem_cons, not_or] at hstart
        simpa using hstart.2
      · simpa using hstart
    · rename_i hb
      exact ih (by simpa using ⟨Ne.symm hb, hstart⟩)

theorem isLine_of_lineText? {bytes : List UInt8} (hbytes : 10 ∉ bytes)
    (h : lineText? bytes = some cs) : IsLine cs := by
  obtain ⟨s, hs, rfl⟩ := Option.map_eq_some_iff.1 h
  rw [fromUTF8?_eq_some] at hs
  subst hs
  intro d hd
  obtain ⟨c, hc, hcapital, hbreak⟩ := exists_of_mem_lowercase hd
  refine ⟨hcapital, fun hd => hbytes ((mem_bytesOf (by decide)).2 ?_)⟩
  obtain rfl := hbreak hd
  exact hc

theorem trimStart_subset (cs : List Char) : trimStart cs ⊆ cs := (List.dropWhile_suffix _).subset

theorem trimEnd_subset (cs : List Char) : trimEnd cs ⊆ cs := by
  intro c hc
  exact List.mem_reverse.1 ((List.dropWhile_suffix _).subset (List.mem_reverse.1 hc))

theorem trim_subset (cs : List Char) : trim cs ⊆ cs :=
  fun _ hc => trimStart_subset cs (trimEnd_subset _ hc)

theorem continued?_subset (h : continued? line = some front) : front ⊆ line := by
  unfold continued? at h
  split at h
  · rename_i behind hbehind
    obtain rfl := Option.some.inj h
    intro c hc
    refine trimEnd_subset line (List.mem_reverse.1 ?_)
    rw [hbehind]
    exact List.mem_cons_of_mem _ (List.mem_reverse.1 hc)
  · cases h

section Joining

variable (pending : Option (Nat × List Char)) (number : Nat) (lines : List (Option (List Char)))

theorem joinLines_cons_none : joinLines pending number (none :: lines) =
    [⟨(pending.getD (number, [])).1, none⟩] := rfl

theorem joinLines_cons_some (line : List Char) : joinLines pending number (some line :: lines) =
    match continued? ((pending.getD (number, [])).2 ++ line) with
    | some front => joinLines (some ((pending.getD (number, [])).1, front)) (number + 1) lines
    | none => ⟨(pending.getD (number, [])).1, some ((pending.getD (number, [])).2 ++ line)⟩ ::
        joinLines none (number + 1) lines := rfl

end Joining

theorem isLine_of_mem_joinLines {pending : Option (Nat × List Char)} {number : Nat}
    {lines : List (Option (List Char))} (hpending : ∀ p, pending = some p → IsLine p.2)
    (hlines : ∀ line, some line ∈ lines → IsLine line) :
    ∀ joined ∈ joinLines pending number lines, ∀ text, joined.text? = some text → IsLine text := by
  -- on the lines, with what is pending joined in front of them
  induction lines generalizing pending number with
  | nil =>
    rw [joinLines.eq_def]
    dsimp only
    split
    · exact fun joined h => absurd h List.not_mem_nil
    · intro joined hjoined text htext
      obtain rfl := List.mem_singleton.1 hjoined
      obtain rfl := Option.some.inj htext
      exact hpending _ rfl
  | cons line? lines ih =>
    have hrest (line : List Char) (h : some line ∈ lines) : IsLine line :=
      hlines line (List.mem_cons_of_mem _ h)
    have hfront : IsLine (pending.getD (number, [])).2 := by
      cases pending with
      | none => exact fun c hc => absurd hc List.not_mem_nil
      | some p => exact hpending p rfl
    rw [joinLines.eq_def]
    dsimp only
    generalize pending.getD (number, []) = p at hfront ⊢
    obtain ⟨start, front⟩ := p
    cases line? with
    | none =>
      intro joined hjoined text htext
      obtain rfl := List.mem_singleton.1 hjoined
      cases htext
    | some line =>
      have hline : IsLine (front ++ line) := hfront.append (hlines line List.mem_cons_self)
      dsimp only
      split
      · rename_i more hmore
        refine ih ?_ hrest
        rintro p hp
        obtain rfl := Option.some.inj hp
        -- what stays pending is the line without its ampersand
        exact hline.mono (continued?_subset hmore)
      · refine List.forall_mem_cons.2 ⟨?_, ih nofun hrest⟩
        intro text htext
        obtain rfl := Option.some.inj htext
        exact hline

theorem isLine_of_mem_readLines {bytes : List UInt8} :
    ∀ joined ∈ readLines bytes, ∀ text, joined.text? = some text → IsLine text := by
  refine isLine_of_mem_joinLines nofun fun line hline => ?_
  obtain ⟨line', hsplit, htext⟩ := List.mem_map.1 hline
  exact isLine_of_lineText? (newline_not_mem_splitLines_go List.not_mem_nil line' hsplit) htext

/-- A text that has been read is joined with the lines that continue it one after another. It stays
open if the last one of them is to be continued as well. -/
inductive Joins : List Char → List (List Char) → List Char → Bool → Prop
  | last {front line : List Char} (h : continued? (front ++ line) = none) :
    Joins front [line] (front ++ line) false
  | cutOff {front line more : List Char} (h : continued? (front ++ line) = some more) :
    Joins front [line] more true
  | next {front line more text : List Char} {stretch : List (List Char)} {isOpen : Bool}
    (h : continued? (front ++ line) = some more) (rest : Joins more stretch text isOpen) :
    Joins front (line :: stretch) text isOpen

/-- Lines, the first of which bears the number `n`, fall into stretches that are joined. Only the
last stretch may stay open. -/
inductive JoinsAll : Nat → List (List Char) → List Joined → Prop
  | nil {n} : JoinsAll n [] []
  | closed {n stretch text rest joined} (first : Joins [] stretch text false)
    (behind : JoinsAll (n + stretch.length) rest joined) :
    JoinsAll n (stretch ++ rest) (⟨n, some text⟩ :: joined)
  | opened {n stretch text} (only : Joins [] stretch text true) :
    JoinsAll n stretch [⟨n, some text⟩]

variable {lines : List (List Char)} {n number : Nat} {joined : List Joined}

/-- The first joined line, whether it has been begun before or not. -/
theorem exists_joins (pending : Option (Nat × List Char)) (number : Nat) (hlines : lines ≠ []) :
    (∃ stretch rest text, lines = stretch ++ rest ∧ 0 < stretch.length ∧
      Joins (pending.getD (number, [])).2 stretch text false ∧
      joinLines pending number (lines.map some) = ⟨(pending.getD (number, [])).1, some text⟩ ::
        joinLines none (number + stretch.length) (rest.map some)) ∨
    ∃ text, Joins (pending.getD (number, [])).2 lines text true ∧
      joinLines pending number (lines.map some) =
        [⟨(pending.getD (number, [])).1, some text⟩] := by
  induction lines generalizing pending number with
  | nil => exact absurd rfl hlines
  | cons line lines ih =>
    rw [List.map_cons, joinLines_cons_some]
    cases hcontinued : continued? ((pending.getD (number, [])).2 ++ line) with
    | none => exact .inl ⟨[line], lines, _, rfl, Nat.one_pos, .last hcontinued, rfl⟩
    | some more =>
      dsimp only
      by_cases hrest : lines = []
      · subst hrest
        exact .inr ⟨more, .cutOff hcontinued, rfl⟩
      · rcases ih (some ((pending.getD (number, [])).1, more)) (number + 1) hrest with
          ⟨stretch, rest, text, rfl, -, hjoins, heq⟩ | ⟨text, hjoins, heq⟩
        · refine .inl ⟨line :: stretch, rest, text, rfl, Nat.succ_pos _,
            .next hcontinued hjoins, ?_⟩
          rw [heq, List.length_cons, Nat.add_right_comm]
          rfl
        · exact .inr ⟨text, .next hcontinued hjoins, heq⟩

theorem joinsAll_joinLines (n : Nat) (lines : List (List Char)) :
    JoinsAll n lines (joinLines none n (lines.map some)) := by
  induction hlength : lines.length using Nat.strongRecOn generalizing n lines with
  | ind length ih =>
    by_cases hlines : lines = []
    · subst hlines
      exact .nil
    · rcases exists_joins none n hlines with
        ⟨stretch, rest, text, rfl, hpos, hjoins, heq⟩ | ⟨text, hjoins, heq⟩
      · rw [heq]
        rw [List.length_append] at hlength
        exact .closed hjoins (ih rest.length (by omega) _ rest rfl)
      · rw [heq]
        exact .opened hjoins

/-- What is joined in front of a line takes all lines in front of its stretch. -/
theorem JoinsAll.exists_stretch {front back : List Joined} {line : Joined}
    (h : JoinsAll n lines (front ++ line :: back)) : ∃ before stretch rest text isOpen,
      lines = before ++ stretch ++ rest ∧ JoinsAll n before front ∧
      Joins [] stretch text isOpen ∧ line = ⟨n + before.length, some text⟩ ∧
      (isOpen = true → rest = []) := by
  induction front generalizing n lines with
  | nil =>
    cases h with
    | closed first behind => exact ⟨[], _, _, _, _, rfl, .nil, first, rfl, nofun⟩
    | opened only =>
      exact ⟨[], _, [], _, _, (List.append_nil _).symm, .nil, only, rfl, fun _ => rfl⟩
  | cons joined front ih =>
    rw [List.cons_append] at h
    generalize hall : front ++ line :: back = all at h
    cases h with
    | closed first behind =>
      subst hall
      obtain ⟨before, stretch, rest, text, isOpen, rfl, hbefore, hjoins, rfl, hopen⟩ := ih behind
      refine ⟨_ ++ before, stretch, rest, text, isOpen, by simp, .closed first hbefore, hjoins, ?_,
        hopen⟩
      rw [List.length_append, Nat.add_assoc]
    | opened only => cases front <;> cases hall

end BeamEnvelope.Tlm
