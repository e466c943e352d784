import BeamEnvelope.Proofs.Glps.Windows

/-!
# Reading with checks

Sources are read through windows by the same grammar, token by token as they are needed. A token is
taken for its kind and then opened as what was taken; where the two differed, reading would break
off with a breach. The second token is looked at in two places only, behind a name that may be
called or may start a factor.
-/

namespace BeamEnvelope.Glps

variable {source : List UInt8} {α β γ δ : Type}

abbrev CheckedReader (source : List UInt8) (α : Type) := Reader (Window source) Halt α

def lift (x : Except Fault α) : Except Halt α := x.mapError .fault

namespace CheckedReader

/-- Takes the token ahead if it is of a kind. What that kind holds is then looked for in the token
that was handed back. -/
def take (isOfKind : Token → Bool) (content : Option Token → Except Breach α)
    (expected : Expected) : CheckedReader source (α × Position) := fun w =>
  if hw : w.current.1.any isOfKind then
    match h : w.advance with
    | .error e => .error e
    | .ok (taken, rest) => do
      let a ← (content taken.1).mapError .breach
      return ⟨(a, taken.2), rest, Window.size_lt_of_advance h (Option.isSome_of_any hw)⟩
  else .error (w.unexpected expected)

def name (expected : Expected) : CheckedReader source (String × Position) :=
  take (fun | .name _ => true | _ => false)
    (fun | some (.name s) => .ok s | t => .error (.notName t)) expected

def mark (m : Mark) (expected : Expected) : CheckedReader source Position :=
  (take (· = .mark m) (fun _ => .ok ()) expected).check fun t => .ok t.2

def numberLiteral (x : Float) : CheckedReader source Value :=
  (take (fun | .number _ => true | _ => false) (fun _ => .ok (.scalar x)) .expression).check
    fun t => .ok t.1

def textLiteral : CheckedReader source Value :=
  (take (fun | .text _ => true | _ => false)
    (fun | some (.text s) => .ok (.text s) | t => .error (.notText t)) .expression).check
    fun t => .ok t.1

def looking (next : Option Token → CheckedReader source α) : CheckedReader source α := fun w =>
  match h : w.peek with
  | .error e => .error e
  | .ok (second, rest) => do
    let a ← next second rest
    return ⟨a.value, a.rest, Window.size_eq_of_peek h ▸ a.shorter⟩

def commaSeparated (item : α → CheckedReader source α) (expected : Expected) (state : α) :
    CheckedReader source α :=
  Reader.separated item ((mark .comma expected).check fun _ => .ok ())
    (·.mark? == some .comma) state

def chainFrom (operand : CheckedReader source Value) (operator? : Mark → Option Operator)
    {w : Window source} (left : Reading Value w) : Except Halt (Reading Value w) :=
  match left.rest.mark?.bind operator? with
  | none => .ok left
  | some op => do
    let sign ← take (fun t => (t.mark?.bind operator?).isSome) (fun _ => .ok op) .expression
      left.rest
    let right ← operand sign.rest
    let v ← lift (binary sign.value.2 sign.value.1 left.value right.value)
    chainFrom operand operator? ⟨v, right.rest,
      Nat.lt_trans right.shorter (Nat.lt_trans sign.shorter left.shorter)⟩
termination_by Input.size left.rest
decreasing_by exact Nat.lt_trans right.shorter sign.shorter

def chain (operand : CheckedReader source Value) (operator? : Mark → Option Operator) :
    CheckedReader source Value := fun w => do
  chainFrom operand operator? (← operand w)

end CheckedReader

namespace Checked

open CheckedReader

def expressionOf (unary : CheckedReader source Value) : CheckedReader source Value :=
  chain (chain unary multiplicative?) additive?

def enclosed (unary : CheckedReader source Value) : CheckedReader source Value :=
  (mark .openParen .openParen).bind fun _ =>
    (expressionOf unary).bind fun v => (mark .closeParen .closeParen).check fun _ => .ok v

def vectorEntry (unary : CheckedReader source Value) (entries : List Float) :
    CheckedReader source (List Float) := fun w =>
  (expressionOf unary).check (fun v => lift (return entries ++ [← entry w.current.2 v])) w

def vector (unary : CheckedReader source Value) : CheckedReader source Value :=
  (mark .openBracket .expression).bind fun _ w =>
    if w.mark? = some .closeBracket then
      (mark .closeBracket .entryEnd).check (fun _ => .ok (.vector [])) w
    else
      ((commaSeparated (vectorEntry unary) .entryEnd []).bind fun xs =>
        (mark .closeBracket .entryEnd).check fun _ => .ok (.vector xs)) w

/-- Whether a name is called is looked at before the name is taken. -/
def nameOrCall (scope : Scope) (unary : CheckedReader source Value) (n : String) :
    CheckedReader source Value :=
  looking fun second =>
    match Function.ofName? n with
    | some f =>
      if second = some (.mark .openParen) then
        (name .expression).bind fun t => (enclosed unary).check fun v => lift (call t.2 f v)
      else (name .expression).check fun t => lift (scope.value n t.2)
    | none => (name .expression).check fun t => lift (scope.value n t.2)

def primary (scope : Scope) (unary : CheckedReader source Value) : CheckedReader source Value :=
  fun w =>
    match w.current.1 with
    | some (.name n) => nameOrCall scope unary n w
    | some (.mark .openParen) => enclosed unary w
    | some (.mark .openBracket) => vector unary w
    | some (.number x) => numberLiteral x w
    | some (.text _) => textLiteral w
    | _ => .error (w.unexpected .expression)

def unary (scope : Scope) : (depth : Nat) → CheckedReader source Value
  | 0 => fun w => .error (w.unexpected .shallower)
  | depth + 1 => fun w =>
    if w.mark? = some .minus then
      ((mark .minus .expression).bind fun pos =>
        (unary scope depth).check fun v => lift (negate pos v)) w
    else primary scope (unary scope depth) w

def expression (scope : Scope) : CheckedReader source Value :=
  expressionOf (unary scope maxNesting)

def valueDefinition (scope : Scope) (n : String) (pos : Position) : CheckedReader source Scope :=
  (mark .equals .equals).bind fun _ =>
    (expression scope).bind fun v =>
      (mark .semicolon .semicolon).check fun _ => lift (scope.define n (.value v) pos)

def parameter (scope : Scope) (params : Dictionary Value) :
    CheckedReader source (Dictionary Value) :=
  (name .parameterName).bind fun n =>
    (mark .equals .equals).bind fun _ =>
      (expression scope).check fun v => lift <|
        if params.contains n.1 then .error (.redefined n.2 n.1) else .ok (params.insert n.1 v)

def parameters (scope : Scope) (params : Dictionary Value) :
    CheckedReader source (Dictionary Value) := fun w =>
  if w.mark? = some .comma then do
    let comma ← mark .comma .parameterEnd w
    let one ← parameter scope params comma.rest
    let more ← parameters scope one.value one.rest
    return ⟨more.value, more.rest,
      Nat.lt_trans more.shorter (Nat.lt_trans one.shorter comma.shorter)⟩
  else (mark .semicolon .parameterEnd).check (fun _ => .ok params) w
termination_by w => Input.size w
decreasing_by exact Nat.lt_trans one.shorter comma.shorter

def elementDefinition (scope : Scope) (n : String) (pos : Position) (kind : String) :
    CheckedReader source Scope :=
  (parameters scope ∅).check fun params =>
    lift (scope.define n (.element { name := n, kind, params }) pos)

def repeatedItem (scope : Scope) (built : List Component) :
    CheckedReader source (List Component) := fun w =>
  ((unary scope maxNesting).bind fun factor =>
    (mark .star .star).bind fun _ =>
      (name .target).check fun n => lift do
        append scope built n.1 (← repeatCount w.current.2 factor) n.2) w

/-- Whether a name starts a factor is looked at before it is taken. -/
def lineItem (scope : Scope) (built : List Component) : CheckedReader source (List Component) :=
  fun w =>
    match w.current.1 with
    | some (.name _) =>
      looking (fun second =>
        match second with
        | some (.mark .star) => repeatedItem scope built
        | some (.mark .openParen) => repeatedItem scope built
        | _ => (name .target).check fun n => lift (append scope built n.1 1 n.2)) w
    | _ => repeatedItem scope built w

def lineDefinition (scope : Scope) (n : String) (pos : Position) : CheckedReader source Scope :=
  (mark .equals .equals).bind fun _ =>
    (mark .openParen .openParen).bind fun _ =>
      (commaSeparated (lineItem scope) .itemEnd []).bind fun built =>
        (mark .closeParen .itemEnd).bind fun _ =>
          (mark .semicolon .semicolon).check fun _ => lift (scope.define n (.line built) pos)

def componentDefinition (scope : Scope) (n : String) (pos : Position) :
    CheckedReader source Scope :=
  (mark .colon .afterName).bind fun _ =>
    (name .elementType).bind fun kind w =>
      if isLineKeyword kind.1 && w.mark? = some .equals then lineDefinition scope n pos w
      else elementDefinition scope n pos kind.1 w

def statement (scope : Scope) : CheckedReader source Scope :=
  (name .statement).bind fun n w =>
    match w.mark? with
    | some .equals => valueDefinition scope n.1 n.2 w
    | some .colon => componentDefinition scope n.1 n.2 w
    | _ => .error (w.unexpected .afterName)

def program (scope : Scope) (w : Window source) : Except Halt Scope :=
  if w.current.1.isNone then .ok scope
  else do
    let one ← statement scope w
    program one.value one.rest
termination_by Input.size w
decreasing_by exact one.shorter

def read (source : List UInt8) : Except Halt Lattice := do
  let first ← ({} : Cursor source).next
  let scope ← program ⟨[], List.nodup_nil⟩ { current := first.1, cursor := first.2 }
  lift scope.lattice

end Checked

end BeamEnvelope.Glps
