import BeamEnvelope.Proofs.Glps.CutTokens
import BeamEnvelope.Proofs.Glps.ErrorPrecedence

/-!
# Windows on the tokens of a source

A reader holds the token ahead and, where it has looked further, the one behind it; tokens are cut
out as they are needed. Through its window a reader sees the stream of all that is left of the
source: taking the token ahead leaves what is behind it, and looking at the second one changes
nothing. How a syntax error shows a token is checked as well. Every token has a description, and no
token of a stream is shown with a question mark, the stand-in for a description that is missing.
-/

namespace BeamEnvelope.Glps

open Bytes

variable {source : List UInt8}

def Token.punctuation? : Token → Option Char
  | mark m => some m.char
  | _ => none

def describe : Option Token → Except Halt String
  | none => .ok "end of input"
  | some (.name s) => .ok ("identifier '" ++ s ++ "'")
  | some (.number x) => .ok ("number " ++ Decimal.positional x)
  | some (.text _) => .ok "string literal"
  | some t =>
    match t.punctuation? with
    | some c => .ok ("'" ++ c.toString ++ "'")
    | none => .error (.breach (.unnamed t))

theorem describe_some (t : Token) : describe (some t) = .ok t.describe := by
  cases t <;> rfl

theorem questionMark_not_mem_identifier {s : String} (h : isIdentifier s = true) :
    '?' ∉ s.toList := by
  have hbyte : 63 ∈ bytesOf s ↔ '?' ∈ s.toList := mem_bytesOf (by decide)
  rw [← hbyte]
  intro hmem
  exact absurd (isName_of_mem_bytesOf h _ hmem) (by decide)

theorem questionMark_not_mem_positional {x : Float} (h : x.isFinite) :
    '?' ∉ (Decimal.positional x).toList := by
  obtain ⟨n, htext, -, hplain⟩ := Decimal.exists_numeral_positional_isPlain h
  have hdigits {cs : List Char} (hcs : ∀ c ∈ cs, c.isDigit) : '?' ∉ cs := fun hmem =>
    absurd (hcs _ hmem) (by decide)
  have hsign : '?' ∉ Decimal.signChars x := by
    rw [Decimal.signChars]
    split <;> decide
  have hpoint : '?' ∉ n.fractionChars := by
    rw [Decimal.Numeral.fractionChars]
    split
    · exact List.not_mem_nil
    · simpa using hdigits n.isDigit_of_mem_fraction
  have hexponent : n.exponentChars = [] := by
    rw [Decimal.Numeral.exponentChars, hplain.exponent]
  rw [htext, String.toList_ofList, Decimal.Numeral.chars, hexponent, List.append_nil,
    List.mem_append, List.mem_append, not_or, not_or]
  exact ⟨hsign, hdigits n.isDigit_of_mem_whole, hpoint⟩

theorem questionMark_not_mem_describe {t : Token} (h : t.IsLexical) :
    '?' ∉ t.describe.toList := by
  cases t with
  | name s =>
    have hs := questionMark_not_mem_identifier h
    simp [Token.describe, hs]
  | number x =>
    have hx := questionMark_not_mem_positional h
    simp [Token.describe, hx]
  | text s =>
    rw [Token.describe]
    decide
  | mark m => cases m <;> decide

/-- A fault that a source can have. No syntax error is about a numeral, and what stands in its place
is described without a question mark. -/
def Fault.IsLive : Fault → Prop
  | unexpected _ expected found => expected ≠ .numeral ∧ '?' ∉ found.toList
  | _ => True

variable {b : UInt8} {bytes rest : List UInt8} {pos : Position} {f : Fault}

theorem isLive_of_scan (h : scan pos b rest = .error f) : f.IsLive := by
  unfold scan at h
  split at h
  · cases h
  · split at h
    · rename_i hnumeral
      obtain ⟨x, hx⟩ := exists_read? hnumeral
      dsimp only at h
      rw [numeral, hx] at h
      dsimp only at h
      split at h
      · cases h
      · cases h
        trivial
    · split at h
      · unfold stringLiteral at h
        dsimp only at h
        split at h
        · cases h
          trivial
        · split at h
          · cases h
            trivial
          · cases h
      · split at h
        · cases h
        · cases h
          trivial

/-- Every token is lexical, and the fault at the end, if there is one, is live. -/
def Stream.IsLexical : Stream → Prop
  | token t _ rest => t.IsLexical ∧ rest.IsLexical
  | finish _ => True
  | fault f => f.IsLive

theorem isLexical_ofBytes (pos : Position) (bytes : List UInt8) :
    (Stream.ofBytes pos bytes).IsLexical := by
  induction hn : bytes.length using Nat.strongRecOn generalizing pos bytes with
  | ind n ih =>
    rw [Stream.ofBytes]
    split
    · trivial
    · rename_i b rest hbytes
      cases hscan : scan (pos.past (bytes.take (layoutWidth false bytes))) b rest with
      | error f => exact isLive_of_scan hscan
      | ok r =>
        have hlt := length_lt_of_drop_eq_cons hbytes
        refine ⟨isLexical_of_scan hscan, ih _ ?_ _ _ rfl⟩
        rw [List.length_drop]
        omega

/-- The token ahead, the one behind it if it has been looked at, and the cursor behind them. -/
structure Window (source : List UInt8) where
  current : Placed
  peeked : Option Placed := none
  cursor : Cursor source

namespace Window

/-- The token behind the one ahead, looked at before or formed now, and the cursor behind it. -/
def pull (w : Window source) : Except Halt (Placed × Cursor source) :=
  match w.peeked with
  | some p => .ok (p, w.cursor)
  | none => w.cursor.next

def advance (w : Window source) : Except Halt (Placed × Window source) := do
  let next ← w.pull
  return (w.current, { current := next.1, cursor := next.2 })

def peek (w : Window source) : Except Halt (Option Token × Window source) := do
  let next ← w.pull
  return (next.1.1, { w with peeked := some next.1, cursor := next.2 })

def unexpected (w : Window source) (expected : Expected) : Halt :=
  match describe w.current.1 with
  | .ok found => .fault (.unexpected w.current.2 expected found)
  | .error e => e

def mark? (w : Window source) : Option Mark := w.current.1.bind Token.mark?

def behind (w : Window source) : Stream :=
  match w.peeked with
  | some p => p.before w.cursor.stream
  | none => w.cursor.stream

def stream (w : Window source) : Stream := w.current.before w.behind

instance : Input (Window source) := ⟨fun w => w.stream.length⟩

variable {w rest : Window source} {taken : Placed} {second : Option Token} {f : Fault}

theorem meets_pull (w : Window source) : Cursor.Meets w.behind w.pull := by
  rw [Window.behind, pull]
  cases w.peeked with
  | none => exact w.cursor.meets_next
  | some p => exact .placed rfl

theorem advance_eq_error {e : Halt} (h : w.advance = .error e) :
    ∃ f, e = .fault f ∧ w.behind = .fault f := by
  rw [advance] at h
  generalize hpull : w.pull = result at h
  cases hpull ▸ w.meets_pull with
  | fault hbehind =>
    cases h
    exact ⟨_, rfl, hbehind⟩
  | placed hbehind => cases h

/-- What is taken is the token ahead, and the stream behind it is ahead then. -/
theorem advance_eq_ok (h : w.advance = .ok (taken, rest)) :
    taken = w.current ∧ w.behind = rest.stream := by
  rw [advance] at h
  generalize hpull : w.pull = result at h
  cases hpull ▸ w.meets_pull with
  | fault hbehind => cases h
  | placed hbehind =>
    cases h
    exact ⟨rfl, hbehind⟩

theorem peek_eq_error {e : Halt} (h : w.peek = .error e) :
    ∃ f, e = .fault f ∧ w.behind = .fault f := by
  rw [peek] at h
  generalize hpull : w.pull = result at h
  cases hpull ▸ w.meets_pull with
  | fault hbehind =>
    cases h
    exact ⟨_, rfl, hbehind⟩
  | placed hbehind => cases h

/-- Looking at the second token changes nothing of what is ahead. -/
theorem peek_eq_ok (h : w.peek = .ok (second, rest)) :
    second = w.behind.head? ∧ rest.current = w.current ∧ rest.stream = w.stream := by
  rw [peek] at h
  generalize hpull : w.pull = result at h
  cases hpull ▸ w.meets_pull with
  | fault hbehind => cases h
  | @placed p behind hbehind =>
    cases h
    have hhead : p.1 = w.behind.head? := by
      rw [hbehind]
      rcases p with ⟨_ | t, pos⟩ <;> rfl
    exact ⟨hhead, rfl, congrArg w.current.before hbehind.symm⟩

theorem stream_of_none (h : w.current.1 = none) : w.stream = .finish w.current.2 := by
  rcases w with ⟨⟨_, pos⟩, peeked, cursor⟩
  subst h
  rfl

theorem stream_of_some {t : Token} (h : w.current.1 = some t) :
    w.stream = .token t w.current.2 w.behind := by
  rcases w with ⟨⟨_, pos⟩, peeked, cursor⟩
  subst h
  rfl

/-- No fault is ahead. -/
theorem isSound_stream (w : Window source) : w.stream.IsSound := by
  cases h : w.current.1 with
  | none =>
    rw [stream_of_none h]
    trivial
  | some t =>
    rw [stream_of_some h]
    trivial

theorem head?_stream (w : Window source) : w.stream.head? = w.current.1 := by
  cases h : w.current.1 with
  | none =>
    rw [stream_of_none h]
    rfl
  | some t => rw [stream_of_some h, Stream.head?]

theorem mark?_stream (w : Window source) : w.stream.mark? = w.mark? := by
  rw [Stream.mark?, head?_stream, mark?]

theorem second?_stream {t : Token} (h : w.current.1 = some t) :
    w.stream.second? = w.behind.head? := by
  rw [stream_of_some h, Stream.second?]

theorem position?_stream (w : Window source) : w.stream.position? = some w.current.2 := by
  cases h : w.current.1 with
  | none => rw [stream_of_none h, Stream.position?]
  | some t => rw [stream_of_some h, Stream.position?]

theorem isFinish_stream (w : Window source) : w.stream.isFinish = w.current.1.isNone := by
  cases h : w.current.1 with
  | none =>
    rw [stream_of_none h]
    rfl
  | some t =>
    rw [stream_of_some h]
    rfl

theorem unexpected_eq (w : Window source) (expected : Expected) :
    w.unexpected expected = .fault (w.stream.unexpected expected) := by
  cases h : w.current.1 with
  | none =>
    rw [stream_of_none h, unexpected, h]
    rfl
  | some t =>
    rw [stream_of_some h, unexpected, h, describe_some]
    rfl

theorem isLive_unexpected (h : w.stream.IsLexical) {expected : Expected}
    (hexpected : expected ≠ .numeral) : (w.stream.unexpected expected).IsLive := by
  cases hcurrent : w.current.1 with
  | none =>
    rw [stream_of_none hcurrent]
    exact ⟨hexpected, by decide⟩
  | some t =>
    rw [stream_of_some hcurrent] at h ⊢
    exact ⟨hexpected, questionMark_not_mem_describe h.1⟩

theorem size_lt_of_advance (h : w.advance = .ok (taken, rest)) (hcurrent : w.current.1.isSome) :
    Input.size rest < Input.size w := by
  obtain ⟨t, ht⟩ := Option.isSome_iff_exists.1 hcurrent
  change rest.stream.length < w.stream.length
  rw [stream_of_some ht, (advance_eq_ok h).2]
  exact Nat.lt_succ_self _

theorem size_eq_of_peek (h : w.peek = .ok (second, rest)) : Input.size rest = Input.size w :=
  congrArg Stream.length (peek_eq_ok h).2.2

end Window

end BeamEnvelope.Glps
