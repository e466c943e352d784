import BeamEnvelope.Glps.Scope
import BeamEnvelope.Glps.Stream

/-!
# Reading lattice sources

A source is read from left to right in one pass: expressions are evaluated and names resolved as
soon as their last token has been taken, so the first fault of a source is the one reported.
Taking a token looks at the next one, and a place where no token can be formed is reported then.

    program    = { statement }
    statement  = NAME "=" expression ";"
               | NAME ":" KIND { "," NAME "=" expression } ";"
               | NAME ":" line "=" "(" item { "," item } ")" ";"
    item       = NAME | unary "*" NAME
    expression = term { ("+" | "-") term }
    term       = unary { ("*" | "/") unary }
    unary      = "-" unary | primary
    primary    = NUMBER | TEXT | NAME | FUNCTION "(" expression ")" | "(" expression ")"
               | "[" [ expression { "," expression } ] "]"

Unary expressions nest at most `maxNesting` deep.
-/

namespace BeamEnvelope.Glps

namespace Stream

/-- The fault of finding what is ahead where `expected` should be. -/
def unexpected (expected : Expected) : Stream → Fault
  | token t pos _ => .unexpected pos expected t.describe
  | finish pos => .unexpected pos expected "end of input"
  | fault f => f

def position? : Stream → Option Position
  | token _ pos _ => some pos
  | finish pos => some pos
  | fault f => f.position?

def head? : Stream → Option Token
  | token t _ _ => some t
  | _ => none

def second? : Stream → Option Token
  | token _ _ rest => rest.head?
  | _ => none

def mark? (s : Stream) : Option Mark := s.head?.bind Token.mark?

end Stream

abbrev SourceReader (α : Type) := Reader Stream Fault α

namespace SourceReader

variable {α : Type}

/-- Takes the token in front if `accepts` makes something of it, together with its position. -/
def accept (accepts : Token → Option α) (expected : Expected) :
    SourceReader (α × Position)
  | .token t pos rest =>
    match accepts t, rest with
    | none, _ => .error ((Stream.token t pos rest).unexpected expected)
    | some _, .fault f => .error f
    | some a, rest => .ok ⟨(a, pos), rest, Nat.lt_succ_self _⟩
  | s => .error (s.unexpected expected)

def name (expected : Expected) : SourceReader (String × Position) :=
  accept (fun | .name s => some s | _ => none) expected

def mark (m : Mark) (expected : Expected) : SourceReader Position :=
  (accept (fun t => if t = .mark m then some () else none) expected).check fun t => .ok t.2

def literal : SourceReader Value :=
  (accept (fun | .number x => some (.scalar x) | .text s => some (.text s) | _ => none)
    .expression).check fun t => .ok t.1

def commaSeparated (item : α → SourceReader α) (expected : Expected) (state : α) :
    SourceReader α :=
  Reader.separated item ((mark .comma expected).check fun _ => .ok ())
    (·.mark? == some .comma) state

/-- Continues a row of operands that associates to the left, as long as an operator is ahead. -/
def chainFrom (operand : SourceReader Value) (operator? : Mark → Option Operator) {s : Stream}
    (left : Reading Value s) : Except Fault (Reading Value s) :=
  if (left.rest.mark?.bind operator?).isNone then .ok left
  else do
    let op ← accept (fun t => t.mark?.bind operator?) .expression left.rest
    let right ← operand op.rest
    let v ← binary op.value.2 op.value.1 left.value right.value
    chainFrom operand operator? ⟨v, right.rest, by
      have := left.shorter; have := op.shorter; have := right.shorter; omega⟩
termination_by left.rest.length
decreasing_by exact Nat.lt_trans right.shorter op.shorter

def chain (operand : SourceReader Value) (operator? : Mark → Option Operator) :
    SourceReader Value := fun s => do
  chainFrom operand operator? (← operand s)

end SourceReader

open SourceReader

def additive? : Mark → Option Operator
  | .plus => some .add
  | .minus => some .sub
  | _ => none

def multiplicative? : Mark → Option Operator
  | .star => some .mul
  | .slash => some .div
  | _ => none

def expressionOf (unary : SourceReader Value) : SourceReader Value :=
  chain (chain unary multiplicative?) additive?

def enclosed (unary : SourceReader Value) : SourceReader Value :=
  (mark .openParen .openParen).bind fun _ =>
    (expressionOf unary).bind fun v => (mark .closeParen .closeParen).check fun _ => .ok v

/-- One more entry of a vector; a fault of its kind is reported where the entry starts. -/
def vectorEntry (unary : SourceReader Value) (entries : List Float) :
    SourceReader (List Float) := fun s =>
  (expressionOf unary).check
    (fun v => return entries ++ [← entry (s.position?.getD {}) v]) s

def vector (unary : SourceReader Value) : SourceReader Value :=
  (mark .openBracket .expression).bind fun _ s =>
    if s.mark? = some .closeBracket then
      (mark .closeBracket .entryEnd).check (fun _ => .ok (.vector [])) s
    else
      ((commaSeparated (vectorEntry unary) .entryEnd []).bind fun xs =>
        (mark .closeBracket .entryEnd).check fun _ => .ok (.vector xs)) s

/-- A name in an expression: a call if it is that of a function and a parenthesis follows, else the
value that it stands for. -/
def nameOrCall (scope : Scope) (unary : SourceReader Value) (n : String) :
    SourceReader Value := fun s =>
  match Function.ofName? n with
  | some f =>
    if s.second? = some (.mark .openParen) then
      ((name .expression).bind fun t => (enclosed unary).check (call t.2 f)) s
    else (name .expression).check (fun t => scope.value n t.2) s
  | none => (name .expression).check (fun t => scope.value n t.2) s

def primary (scope : Scope) (unary : SourceReader Value) : SourceReader Value := fun s =>
  match s.head? with
  | some (.name n) => nameOrCall scope unary n s
  | some (.mark .openParen) => enclosed unary s
  | some (.mark .openBracket) => vector unary s
  | _ => literal s

/-- The deepest nesting of prefix minuses, parentheses, calls and vectors. -/
def maxNesting : Nat := 256

/-- A unary expression that may nest `depth` deep. -/
def unary (scope : Scope) : (depth : Nat) → SourceReader Value
  | 0 => fun s => .error (s.unexpected .shallower)
  | depth + 1 => fun s =>
    if s.mark? = some .minus then
      ((mark .minus .expression).bind fun pos => (unary scope depth).check (negate pos)) s
    else primary scope (unary scope depth) s

def expression (scope : Scope) : SourceReader Value := expressionOf (unary scope maxNesting)

/-- `= expression ;` -/
def valueDefinition (scope : Scope) (n : String) (pos : Position) : SourceReader Scope :=
  (mark .equals .equals).bind fun _ =>
    (expression scope).bind fun v =>
      (mark .semicolon .semicolon).check fun _ => scope.define n (.value v) pos

/-- `NAME = expression`, a parameter whose name must be new. -/
def parameter (scope : Scope) (params : Dictionary Value) : SourceReader (Dictionary Value) :=
  (name .parameterName).bind fun n =>
    (mark .equals .equals).bind fun _ =>
      (expression scope).check fun v =>
        if params.contains n.1 then .error (.redefined n.2 n.1) else .ok (params.insert n.1 v)

/-- The parameters of an element up to and including the semicolon. -/
def parameters (scope : Scope) (params : Dictionary Value) :
    SourceReader (Dictionary Value) := fun s =>
  if s.mark? = some .comma then do
    let comma ← mark .comma .parameterEnd s
    let one ← parameter scope params comma.rest
    let more ← parameters scope one.value one.rest
    return ⟨more.value, more.rest, by
      have := comma.shorter; have := one.shorter; have := more.shorter; omega⟩
  else (mark .semicolon .parameterEnd).check (fun _ => .ok params) s
termination_by s => s.length
decreasing_by exact Nat.lt_trans one.shorter comma.shorter

def elementDefinition (scope : Scope) (n : String) (pos : Position) (kind : String) :
    SourceReader Scope :=
  (parameters scope ∅).check fun params => scope.define n (.element { name := n, kind, params }) pos

/-- `factor * NAME`; the factor is judged after the name has been taken. -/
def repeatedItem (scope : Scope) (built : List Component) :
    SourceReader (List Component) := fun s =>
  ((unary scope maxNesting).bind fun factor =>
    (mark .star .star).bind fun _ =>
      (name .target).check fun n => do
        append scope built n.1 (← repeatCount (s.position?.getD {}) factor) n.2) s

/-- An item of a line; a name in front of a star or a parenthesis starts a factor. -/
def lineItem (scope : Scope) (built : List Component) : SourceReader (List Component) := fun s =>
  match s.head?, s.second? with
  | some (.name _), some (.mark .star) => repeatedItem scope built s
  | some (.name _), some (.mark .openParen) => repeatedItem scope built s
  | some (.name _), _ => (name .target).check (fun n => append scope built n.1 1 n.2) s
  | _, _ => repeatedItem scope built s

def lineDefinition (scope : Scope) (n : String) (pos : Position) : SourceReader Scope :=
  (mark .equals .equals).bind fun _ =>
    (mark .openParen .openParen).bind fun _ =>
      (commaSeparated (lineItem scope) .itemEnd []).bind fun built =>
        (mark .closeParen .itemEnd).bind fun _ =>
          (mark .semicolon .semicolon).check fun _ => scope.define n (.line built) pos

/-- The kind that makes a definition with `=` behind it a line, in any case. -/
def isLineKeyword (kind : String) : Bool := kind.map Char.toLower == "line"

/-- What follows the name and the colon of a definition. -/
def componentDefinition (scope : Scope) (n : String) (pos : Position) : SourceReader Scope :=
  (mark .colon .afterName).bind fun _ =>
    (name .elementType).bind fun kind s =>
      if isLineKeyword kind.1 && s.mark? = some .equals then lineDefinition scope n pos s
      else elementDefinition scope n pos kind.1 s

def statement (scope : Scope) : SourceReader Scope :=
  (name .statement).bind fun n s =>
    match s.mark? with
    | some .equals => valueDefinition scope n.1 n.2 s
    | some .colon => componentDefinition scope n.1 n.2 s
    | _ => .error (s.unexpected .afterName)

namespace Stream

def isFinish : Stream → Bool
  | finish _ => true
  | _ => false

end Stream

def program (scope : Scope) (s : Stream) : Except Fault Scope :=
  if s.isFinish then .ok scope
  else do
    let one ← statement scope s
    program one.value one.rest
termination_by s.length
decreasing_by exact one.shorter

def read (source : List UInt8) : Except Fault Lattice := do
  (← program {} (.ofSource source)).lattice

end BeamEnvelope.Glps
