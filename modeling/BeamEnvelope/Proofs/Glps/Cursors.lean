import BeamEnvelope.Proofs.Glps.Lexing

/-!
# Cursors on a source

A cursor goes over a source byte by byte, and the bytes of a token are those between two of its
offsets. A few things are taken for granted in this: that the bytes between two offsets exist, that
those of a name or a numeral are a text, and that a numeral can be read. Each of them is checked
here, and where one did not hold the reading would break off with a breach.

A cursor looks at single bytes only. The list of all bytes behind it is a view for proofs: where a
cursor moves to is told by how many bytes of that list it leaves behind.
-/

namespace BeamEnvelope.Glps

open Bytes

/-- What is taken for granted where a source is read, and does not hold. -/
inductive Breach where
  | outOfBounds (first last : Nat)
  | beforeStart
  | notUtf8 (bytes : List UInt8)
  | notNumeral (text : String)
  | notName (found : Option Token)
  | notText (found : Option Token)
  | unnamed (t : Token)

inductive Halt where
  | fault (f : Fault)
  | breach (b : Breach)

abbrev Placed := Option Token × Position

/-- A stream with the token in front, or the end of one. -/
def Placed.before : Placed → Stream → Stream
  | (some t, pos), s => .token t pos s
  | (none, pos), _ => .finish pos

structure Cursor (source : List UInt8) where
  offset : Nat := 0
  position : Position := {}

def cut (source : List UInt8) (first last : Nat) : Except Halt (List UInt8) :=
  if first ≤ last ∧ last ≤ source.length then .ok ((source.drop first).take (last - first))
  else .error (.breach (.outOfBounds first last))

def before : Nat → Except Halt Nat
  | 0 => .error (.breach .beforeStart)
  | offset + 1 => .ok offset

def utf8 (bytes : List UInt8) : Except Halt String :=
  match String.fromUTF8? ⟨bytes.toArray⟩ with
  | some s => .ok s
  | none => .error (.breach (.notUtf8 bytes))

namespace Cursor

variable {source : List UInt8}

def peek (c : Cursor source) : Option UInt8 := source[c.offset]?

def peekAt (c : Cursor source) (ahead : Nat) : Option UInt8 := source[c.offset + ahead]?

def past (c : Cursor source) (b : UInt8) : Cursor source := ⟨c.offset + 1, c.position.next b⟩

/-- Goes over the byte ahead, and stays at the end of the source. -/
def bump (c : Cursor source) : Cursor source :=
  match c.peek with
  | some b => c.past b
  | none => c

theorem offset_lt_of_peek {c : Cursor source} {b : UInt8} (h : c.peek = some b) :
    c.offset < source.length :=
  (List.getElem?_eq_some_iff.1 h).1

def skipWhile (p : UInt8 → Bool) (c : Cursor source) : Cursor source :=
  match _h : c.peek with
  | some b => if p b then skipWhile p (c.past b) else c
  | none => c
termination_by source.length - c.offset
decreasing_by
  have := offset_lt_of_peek _h
  simp only [past]
  omega

theorem offset_le_skipWhile (p : UInt8 → Bool) (c : Cursor source) :
    c.offset ≤ (c.skipWhile p).offset := by
  fun_induction skipWhile p c with
  | case1 c b h hp ih => exact Nat.le_of_succ_le ih
  | case2 c b h hp => exact Nat.le_refl _
  | case3 c h => exact Nat.le_refl _

theorem offset_le_bump (c : Cursor source) : c.offset ≤ c.bump.offset := by
  unfold bump
  split
  · exact Nat.le_succ _
  · exact Nat.le_refl _

def skipLine (c : Cursor source) : Cursor source := (c.skipWhile (· != Position.newline)).bump

theorem offset_lt_skipLine (c : Cursor source) (b : UInt8) :
    c.offset < (c.past b).skipLine.offset :=
  Nat.le_trans (offset_le_skipWhile _ (c.past b)) (offset_le_bump _)

def skipLayout (c : Cursor source) : Cursor source :=
  match _h : c.peek with
  | some b =>
    if isBlank b then skipLayout (c.past b)
    else if b == hash then skipLayout (c.past b).skipLine
    else c
  | none => c
termination_by source.length - c.offset
decreasing_by
  · have := offset_lt_of_peek _h
    simp only [past]
    omega
  · have := offset_lt_of_peek _h
    have := offset_lt_skipLine c b
    omega

/-- The offset behind the name ahead: `scan` runs on over the bytes that may stand in a name, and
`stop` is behind the last one that may end it. -/
def nameEnd (source : List UInt8) (scan stop : Nat) : Nat :=
  match _h : source[scan]? with
  | some b =>
    if endsName b then nameEnd source (scan + 1) (scan + 1)
    else if b == colon then nameEnd source (scan + 1) stop
    else stop
  | none => stop
termination_by source.length - scan
decreasing_by
  all_goals
    have := (List.getElem?_eq_some_iff.1 _h).1
    omega

def name (c : Cursor source) : Except Halt (Token × Cursor source) := do
  let stop := nameEnd source c.offset c.offset
  let s ← utf8 (← cut source c.offset stop)
  return (.name s, bump^[stop - c.offset] c)

def fraction (c : Cursor source) : Cursor source :=
  if c.peek = some dot then c.bump.skipWhile isDigit else c

/-- Behind an exponent, if a digit follows its letter and its sign. -/
def exponent (c : Cursor source) : Cursor source :=
  if c.peek = some 101 ∨ c.peek = some 69 then
    let ahead := if c.peekAt 1 = some 43 ∨ c.peekAt 1 = some 45 then 2 else 1
    if (c.peekAt ahead).any isDigit then (bump^[ahead] c).skipWhile isDigit else c
  else c

def number (c : Cursor source) : Except Halt (Token × Cursor source) := do
  let behind := (c.skipWhile isDigit).fraction.exponent
  let text ← utf8 (← cut source c.offset behind.offset)
  match Decimal.read? text with
  | none => .error (.breach (.notNumeral text))
  | some x =>
    if x.isFinite then .ok (.number x, behind)
    else .error (.fault (.overflow c.position (.literal text)))

def standsInText (b : UInt8) : Bool := b != quote && b != 0

/-- A string literal. Its bytes end in front of the quote that the cursor has gone over last. -/
def string (c : Cursor source) : Except Halt (Token × Cursor source) :=
  let body := c.bump
  let stop := body.skipWhile standsInText
  match stop.peek with
  | none => .error (.fault (.unterminatedQuote c.position))
  | some b =>
    if b = 0 then .error (.fault (.invalidCharacter stop.position 0))
    else do
      let last ← before stop.bump.offset
      return (.text (decode (← cut source body.offset last)), stop.bump)

/-- The token that starts with the byte `b` ahead, and the cursor behind it. -/
def token (c : Cursor source) (b : UInt8) : Except Halt (Token × Cursor source) :=
  if startsName b then c.name
  else if isDigit b || (b == dot && (c.peekAt 1).any isDigit) then c.number
  else if b == quote then c.string
  else match Mark.ofByte? b with
    | some m => .ok (.mark m, c.bump)
    | none => .error (.fault (.invalidCharacter c.position b))

def next (c : Cursor source) : Except Halt (Placed × Cursor source) :=
  let here := c.skipLayout
  match here.peek with
  | none => .ok ((none, here.position), here)
  | some b => (here.token b).map fun r => ((some r.1, here.position), r.2)

def rest (c : Cursor source) : List UInt8 := source.drop c.offset

def forward (c : Cursor source) (n : Nat) : Cursor source :=
  ⟨c.offset + n, c.position.past (c.rest.take n)⟩

/-- What a reader of the bytes behind the cursor meets. -/
def stream (c : Cursor source) : Stream := .ofBytes c.position c.rest

variable {c : Cursor source} {b : UInt8} {bytes : List UInt8} {n : Nat}

theorem peek_eq (c : Cursor source) : c.peek = c.rest.head? := List.head?_drop.symm

theorem peekAt_eq (c : Cursor source) (n : Nat) : c.peekAt n = c.rest[n]? := by
  rw [peekAt, rest, List.getElem?_drop]

theorem peek_of_nil (h : c.rest = []) : c.peek = none := by
  rw [peek_eq, h]
  rfl

theorem peek_of_cons (h : c.rest = b :: bytes) : c.peek = some b := by
  rw [peek_eq, h]
  rfl

theorem rest_past (h : c.rest = b :: bytes) : (c.past b).rest = bytes := by
  rw [rest, past, ← List.tail_drop, ← rest, h]
  rfl

theorem rest_forward (c : Cursor source) (n : Nat) : (c.forward n).rest = c.rest.drop n := by
  rw [rest, rest, forward, List.drop_drop]

theorem forward_zero (c : Cursor source) : c.forward 0 = c := rfl

theorem forward_succ (h : c.rest = b :: bytes) (n : Nat) :
    c.forward (n + 1) = (c.past b).forward n := by
  simp only [forward, rest_past h, h, List.take_succ_cons]
  rw [past, Nat.add_assoc, Nat.add_comm 1]
  rfl

theorem forward_forward (c : Cursor source) (m n : Nat) :
    (c.forward m).forward n = c.forward (m + n) := by
  have hpast : (c.forward m).position.past ((c.forward m).rest.take n) =
      c.position.past (c.rest.take (m + n)) := by
    rw [rest_forward, List.take_add, Position.past_append]
    rfl
  rw [forward, hpast, forward, forward, Nat.add_assoc]

theorem bump_of_nil (h : c.rest = []) : c.bump = c := by
  rw [bump, peek_of_nil h]

theorem bump_of_cons (h : c.rest = b :: bytes) : c.bump = c.past b := by
  rw [bump, peek_of_cons h]

theorem bump_eq_forward (h : c.rest = b :: bytes) : c.bump = c.forward 1 := by
  rw [bump_of_cons h, forward_succ h, forward_zero]

theorem iterate_bump (h : n ≤ c.rest.length) : bump^[n] c = c.forward n := by
  induction n generalizing c with
  | zero => rfl
  | succ n ih =>
    obtain ⟨b, bytes, hrest⟩ := List.exists_cons_of_length_pos (Nat.zero_lt_of_lt h)
    rw [Function.iterate_succ_apply, bump_of_cons hrest, forward_succ hrest]
    refine ih ?_
    rw [rest_past hrest]
    rw [hrest, List.length_cons] at h
    omega

theorem skipWhile_eq (p : UInt8 → Bool) (c : Cursor source) :
    c.skipWhile p = c.forward (c.rest.takeWhile p).length := by
  induction hrest : c.rest generalizing c with
  | nil =>
    rw [skipWhile]
    split
    · rename_i h
      rw [peek_of_nil hrest] at h
      cases h
    · rfl
  | cons b bytes ih =>
    rw [skipWhile]
    split
    · rename_i b' h
      obtain rfl := Option.some.inj ((peek_of_cons hrest).symm.trans h)
      rw [List.takeWhile_cons]
      split
      · rw [ih _ (rest_past hrest), List.length_cons, forward_succ hrest]
      · rfl
    · rename_i h
      rw [peek_of_cons hrest] at h
      cases h

theorem skipLine_of_nil (h : c.rest = []) : c.skipLine = c := by
  rw [skipLine, skipWhile_eq, h, List.takeWhile_nil, List.length_nil, forward_zero, bump_of_nil h]

theorem skipLine_of_cons (h : c.rest = b :: bytes) :
    c.skipLine = if b = Position.newline then c.past b else (c.past b).skipLine := by
  rw [skipLine, skipWhile_eq, h, List.takeWhile_cons]
  split
  · rename_i hb
    rw [if_neg (by simpa using hb), List.length_cons, forward_succ h, skipLine, skipWhile_eq,
      rest_past h]
  · rename_i hb
    rw [if_pos (by simpa using hb), List.length_nil, forward_zero, bump_of_cons h]

theorem skipLayout_of_nil (h : c.rest = []) : c.skipLayout = c := by
  rw [skipLayout]
  split
  · rename_i hpeek
    rw [peek_of_nil h] at hpeek
    cases hpeek
  · rfl

theorem skipLayout_of_cons (h : c.rest = b :: bytes) :
    c.skipLayout = if isBlank b then (c.past b).skipLayout
      else if b == hash then (c.past b).skipLine.skipLayout else c := by
  rw [skipLayout]
  split
  · rename_i b' hpeek
    obtain rfl := Option.some.inj ((peek_of_cons h).symm.trans hpeek)
    rfl
  · rename_i hpeek
    rw [peek_of_cons h] at hpeek
    cases hpeek

/-- Both in front of a line and inside a comment the cursor goes on as far as the layout does. -/
theorem skipLayout_eq (o : Bool) (c : Cursor source) :
    (if o then c.skipLine else c).skipLayout = c.forward (layoutWidth o c.rest) := by
  induction hrest : c.rest generalizing c o with
  | nil =>
    rw [skipLine_of_nil hrest, ite_self, skipLayout_of_nil hrest, layoutWidth, forward_zero]
  | cons b bytes ih =>
    have hnext (o : Bool) := ih o (c.past b) (rest_past hrest)
    cases o with
    | false =>
      rw [if_neg Bool.false_ne_true, skipLayout_of_cons hrest, layoutWidth]
      split
      · rw [forward_succ hrest, ← hnext, if_neg Bool.false_ne_true]
      · split
        · rw [forward_succ hrest, ← hnext, if_pos rfl]
        · rfl
    | true =>
      rw [if_pos rfl, skipLine_of_cons hrest, layoutWidth, forward_succ hrest, ← hnext]
      congr 1
      by_cases hb : b = Position.newline <;> simp [hb]

end Cursor

end BeamEnvelope.Glps
