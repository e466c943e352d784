import BeamEnvelope.Glps.Reading
import BeamEnvelope.Proofs.Reader

/-!
# Rows of tokens in front of a stream

`Begins s ts rest` says that the stream `s` starts with the tokens `ts` and goes on with `rest`. The
readers that take one token are described by it; a reader never leaves a place where no token can be
formed directly ahead.
-/

namespace BeamEnvelope.Glps

namespace Stream

/-- All tokens of a stream that ends with its source, none for a stream that ends in a fault. -/
def tokens? : Stream → Option (List Token)
  | token t _ rest => rest.tokens?.map (t :: ·)
  | finish _ => some []
  | fault _ => none

/-- Whether the next token can be formed. -/
def IsSound : Stream → Prop
  | fault _ => False
  | _ => True

inductive Begins : Stream → List Token → Stream → Prop
  | nil (s : Stream) : Begins s [] s
  | cons (t : Token) (pos : Position) {s rest : Stream} {ts : List Token} (h : Begins s ts rest) :
    Begins (token t pos s) (t :: ts) rest

variable {s mid rest : Stream} {ts us : List Token} {t : Token} {m : Mark}

@[simp] theorem begins_nil : s.Begins [] rest ↔ s = rest :=
  ⟨fun h => by cases h; rfl, fun h => h ▸ .nil s⟩

theorem begins_cons : s.Begins (t :: ts) rest ↔ ∃ pos next, s = token t pos next ∧
    next.Begins ts rest := by
  constructor
  · intro h
    cases h with
    | cons _ pos h => exact ⟨pos, _, rfl, h⟩
  · rintro ⟨pos, next, rfl, h⟩
    exact .cons t pos h

theorem begins_append : s.Begins (ts ++ us) rest ↔ ∃ mid, s.Begins ts mid ∧ mid.Begins us rest := by
  induction ts generalizing s with
  | nil => simp
  | cons t ts ih =>
    simp only [List.cons_append, begins_cons, ih]
    constructor
    · rintro ⟨pos, next, rfl, mid, h, h'⟩
      exact ⟨mid, ⟨pos, next, rfl, h⟩, h'⟩
    · rintro ⟨mid, ⟨pos, next, rfl, h⟩, h'⟩
      exact ⟨pos, next, rfl, mid, h, h'⟩

theorem Begins.append (h : s.Begins ts mid) (h' : mid.Begins us rest) : s.Begins (ts ++ us) rest :=
  begins_append.2 ⟨mid, h, h'⟩

theorem Begins.tokens? (h : s.Begins ts rest) : s.tokens? = rest.tokens?.map (ts ++ ·) := by
  induction h with
  | nil s => simp
  | cons t pos _ ih => simp [Stream.tokens?, ih, Function.comp_def]

theorem tokens?_eq_some : s.tokens? = some ts ↔ ∃ pos, s.Begins ts (finish pos) := by
  constructor
  · intro h
    induction s generalizing ts with
    | token t pos rest ih =>
      obtain ⟨us, hus, rfl⟩ := Option.map_eq_some_iff.1 h
      obtain ⟨behind, hb⟩ := ih hus
      exact ⟨behind, .cons t pos hb⟩
    | finish pos =>
      cases h
      exact ⟨pos, .nil _⟩
    | fault f => cases h
  · rintro ⟨pos, h⟩
    simp [h.tokens?, Stream.tokens?]

/-- A stream that begins with tokens behind which it is sound is sound. -/
theorem Begins.isSound (h : s.Begins ts rest) (hr : rest.IsSound) : s.IsSound := by
  cases h with
  | nil => exact hr
  | cons => trivial

@[simp] theorem mark?_token (pos : Position) : (token t pos rest).mark? = t.mark? := rfl

@[simp] theorem mark?_finish (pos : Position) : (finish pos).mark? = none := rfl

theorem mark?_eq_some : s.mark? = some m ↔ ∃ pos next, s = token (.mark m) pos next := by
  cases s with
  | token t pos rest => cases t <;> simp [mark?, head?, Token.mark?]
  | finish pos => simp [mark?, head?]
  | fault f => simp [mark?, head?]

theorem isSound_of_mark? (h : s.mark? = some m) : s.IsSound := by
  obtain ⟨_, _, rfl⟩ := mark?_eq_some.1 h
  trivial

theorem Begins.mark?_ne (h : s.Begins (t :: ts) rest) (ht : t ≠ .mark m) : s.mark? ≠ some m := by
  obtain ⟨pos, next, rfl, -⟩ := begins_cons.1 h
  intro hm
  obtain ⟨_, _, heq⟩ := mark?_eq_some.1 hm
  cases heq
  exact ht rfl

end Stream

open Glps.Stream

namespace SourceReader

variable {α : Type} {s rest : Stream} {pos : Position} {expected : Expected}

theorem reads_accept {accepts : Token → Option α} {a : α × Position} :
    (accept accepts expected).Reads s a rest ↔
      ∃ t, s = .token t a.2 rest ∧ accepts t = some a.1 ∧ rest.IsSound := by
  constructor
  · rintro ⟨r, hr, rfl, rfl⟩
    cases s with
    | finish pos => simp [accept] at hr
    | fault f => simp [accept] at hr
    | token t pos next =>
      cases ht : accepts t with
      | none => simp [accept, ht] at hr
      | some a =>
        cases next with
        | fault f => simp [accept, ht] at hr
        | token u p after =>
          simp only [accept, ht, Except.ok.injEq] at hr
          exact ⟨t, by rw [← hr], by rw [← hr, ht], by rw [← hr]; trivial⟩
        | finish p =>
          simp only [accept, ht, Except.ok.injEq] at hr
          exact ⟨t, by rw [← hr], by rw [← hr, ht], by rw [← hr]; trivial⟩
  · obtain ⟨a, pos⟩ := a
    rintro ⟨t, rfl, ht, hrest⟩
    refine ⟨⟨(a, pos), rest, Nat.lt_succ_self _⟩, ?_, rfl, rfl⟩
    cases rest with
    | fault f => exact hrest.elim
    | token u p r => simp [accept, ht]
    | finish p => simp [accept, ht]

theorem reads_name {n : String × Position} :
    (name expected).Reads s n rest ↔ s = .token (.name n.1) n.2 rest ∧ rest.IsSound := by
  rw [name, reads_accept]
  constructor
  · rintro ⟨t, rfl, ht, hrest⟩
    cases t with
    | name m => cases ht; exact ⟨rfl, hrest⟩
    | number x => cases ht
    | text x => cases ht
    | mark x => cases ht
  · rintro ⟨rfl, hrest⟩
    exact ⟨_, rfl, rfl, hrest⟩

theorem reads_mark {m : Mark} :
    (mark m expected).Reads s pos rest ↔ s = .token (.mark m) pos rest ∧ rest.IsSound := by
  simp only [mark, Reader.reads_check, reads_accept]
  constructor
  · rintro ⟨⟨_, _⟩, ⟨t, rfl, ht, hrest⟩, h⟩
    cases h
    simp only [Option.ite_none_right_eq_some] at ht
    obtain ⟨rfl, -⟩ := ht
    exact ⟨rfl, hrest⟩
  · rintro ⟨rfl, hrest⟩
    exact ⟨((), pos), ⟨_, rfl, by simp, hrest⟩, rfl⟩

/-- The separator of a row. -/
theorem reads_comma {u : Unit} :
    ((mark .comma expected).check fun _ => .ok ()).Reads s u rest ↔
      ∃ pos, s = .token (.mark .comma) pos rest ∧ rest.IsSound := by
  simp [Reader.reads_check, reads_mark]

end SourceReader

end BeamEnvelope.Glps
