import BeamEnvelope.Decimal.Ratio
import BeamEnvelope.Glps.Scope
import BeamEnvelope.Glps.Stream

/-!
# The grammar of lattice sources and the meaning of its trees

A tree is a derivation in the grammar: its constructors are the productions, and `tokens` is the row
of tokens it derives. Operators of one level associate to the left because their left operand is of
the same level and their right operand of the next one. A tree is evaluated on its own, after all of
it is known, in an environment that holds the definitions in front of it.
-/

namespace BeamEnvelope.Glps.Grammar

inductive Literal where
  | number (x : Float)
  | text (s : String)

inductive Additive where
  | add | sub

inductive Multiplicative where
  | mul | div

mutual

inductive Expression where
  | term (t : Term)
  | sum (left : Expression) (op : Additive) (right : Term)

inductive Term where
  | unary (u : Unary)
  | product (left : Term) (op : Multiplicative) (right : Unary)

inductive Unary where
  | negative (u : Unary)
  | primary (p : Primary)

inductive Primary where
  | literal (l : Literal)
  | name (n : String)
  | call (f : Function) (argument : Expression)
  | parens (e : Expression)
  | emptyVector
  | vector (entries : Entries)

/-- The entries of a vector, at least one. -/
inductive Entries where
  | last (e : Expression)
  | cons (e : Expression) (rest : Entries)

end

inductive Item where
  | once (target : String)
  | repeated (factor : Unary) (target : String)

/-- The word between colon and equals sign of a line is `line` in any case. -/
inductive Statement where
  | value (name : String) (e : Expression)
  | element (name kind : String) (params : List (String × Expression))
  | line (name keyword : String) (isLine : keyword.toLower = "line") (first : Item)
      (others : List Item)

abbrev Program := List Statement

def Literal.token : Literal → Token
  | number x => .number x
  | text s => .text s

def Additive.operator : Additive → Operator
  | add => .add
  | sub => .sub

def Multiplicative.operator : Multiplicative → Operator
  | mul => .mul
  | div => .div

mutual

def Expression.tokens : Expression → List Token
  | .term t => t.tokens
  | .sum l op r => l.tokens ++ .mark op.operator.mark :: r.tokens

def Term.tokens : Term → List Token
  | .unary u => u.tokens
  | .product l op r => l.tokens ++ .mark op.operator.mark :: r.tokens

def Unary.tokens : Unary → List Token
  | .negative u => .mark .minus :: u.tokens
  | .primary p => p.tokens

def Primary.tokens : Primary → List Token
  | .literal l => [l.token]
  | .name n => [.name n]
  | .call f e => .name f.name :: .mark .openParen :: (e.tokens ++ [.mark .closeParen])
  | .parens e => .mark .openParen :: (e.tokens ++ [.mark .closeParen])
  | .emptyVector => [.mark .openBracket, .mark .closeBracket]
  | .vector es => .mark .openBracket :: (es.tokens ++ [.mark .closeBracket])

def Entries.tokens : Entries → List Token
  | .last e => e.tokens
  | .cons e es => e.tokens ++ .mark .comma :: es.tokens

end

def Item.tokens : Item → List Token
  | once n => [.name n]
  | repeated u n => u.tokens ++ [.mark .star, .name n]

def parameterTokens (param : String × Expression) : List Token :=
  .mark .comma :: .name param.1 :: .mark .equals :: param.2.tokens

/-- Further items of a line, each with the comma in front of it. -/
def otherItemTokens (i : Item) : List Token := .mark .comma :: i.tokens

namespace Statement

def tokens : Statement → List Token
  | value n e => .name n :: .mark .equals :: (e.tokens ++ [.mark .semicolon])
  | element n kind params =>
    .name n :: .mark .colon :: .name kind :: (params.flatMap parameterTokens ++ [.mark .semicolon])
  | line n keyword _ first others =>
    .name n :: .mark .colon :: .name keyword :: .mark .equals :: .mark .openParen ::
      (first.tokens ++ others.flatMap otherItemTokens ++ [.mark .closeParen, .mark .semicolon])

end Statement

def Program.tokens (p : Program) : List Token := p.flatMap Statement.tokens

mutual

/-- The greatest number of unary expressions one inside the other. -/
def Expression.nesting : Expression → Nat
  | .term t => t.nesting
  | .sum l _ r => max l.nesting r.nesting

def Term.nesting : Term → Nat
  | .unary u => u.nesting
  | .product l _ r => max l.nesting r.nesting

def Unary.nesting : Unary → Nat
  | .negative u => u.nesting + 1
  | .primary p => p.nesting + 1

def Primary.nesting : Primary → Nat
  | .call _ e | .parens e => e.nesting
  | .vector es => es.nesting
  | _ => 0

def Entries.nesting : Entries → Nat
  | .last e => e.nesting
  | .cons e es => max e.nesting es.nesting

end

def Item.NestsWithin (depth : Nat) : Item → Prop
  | once _ => True
  | repeated u _ => u.nesting ≤ depth

def Statement.NestsWithin (depth : Nat) : Statement → Prop
  | value _ e => e.nesting ≤ depth
  | element _ _ params => ∀ p ∈ params, p.2.nesting ≤ depth
  | line _ _ _ first others => ∀ i ∈ first :: others, i.NestsWithin depth

/-- The bindings made so far, in their order. -/
abbrev Environment := List (String × Symbol)

def finite? (x : Float) : Option Float := if x.isFinite then some x else none

/-- The value of an operator on two values; texts have none, nor have vectors of unequal lengths. -/
def combine? (op : Operator) : Value → Value → Option Value
  | .scalar a, .scalar b => (finite? (op.apply a b)).map .scalar
  | .vector xs, .scalar b => (xs.mapM fun x => finite? (op.apply x b)).map .vector
  | .scalar a, .vector ys => (ys.mapM fun y => finite? (op.apply a y)).map .vector
  | .vector xs, .vector ys =>
    if xs.length = ys.length then ((xs.zipWith op.apply ys).mapM finite?).map .vector else none
  | _, _ => none

def opposite? : Value → Option Value
  | .scalar x => some (.scalar (-x))
  | .vector xs => some (.vector (xs.map (- ·)))
  | .text _ => none

def result? (f : Function) : Value → Option Value
  | .scalar x => (finite? (f.apply x)).map .scalar
  | _ => none

def Literal.value : Literal → Value
  | number x => .scalar x
  | text s => .text s

mutual

def Expression.value? (env : Environment) : Expression → Option Value
  | .term t => t.value? env
  | .sum l op r => do combine? op.operator (← l.value? env) (← r.value? env)

def Term.value? (env : Environment) : Term → Option Value
  | .unary u => u.value? env
  | .product l op r => do combine? op.operator (← l.value? env) (← r.value? env)

def Unary.value? (env : Environment) : Unary → Option Value
  | .negative u => do opposite? (← u.value? env)
  | .primary p => p.value? env

def Primary.value? (env : Environment) : Primary → Option Value
  | .literal l => some l.value
  | .name n => do (← env.lookup n).value?
  | .call f e => do result? f (← e.value? env)
  | .parens e => e.value? env
  | .emptyVector => some (.vector [])
  | .vector es => do return .vector (← es.values? env)

def Entries.values? (env : Environment) : Entries → Option (List Float)
  | .last e => do return [← (← e.value? env).scalar?]
  | .cons e es => do return (← (← e.value? env).scalar?) :: (← es.values? env)

end

def components? : Symbol → Option (List Component)
  | .value _ => none
  | .element c => some [c]
  | .line cs => some cs

/-- The count that a repeat factor stands for: its whole part, from 0 to `maxElements`. -/
def count? : Value → Option Nat
  | .scalar x =>
    let whole := (Ratio.ofFloat x).floor
    if x.isFinite && whole ≤ maxElements && (whole == 0 || 0.0 < x) then some whole else none
  | _ => none

def Item.components? (env : Environment) : Item → Option (List Component)
  | once n => do Grammar.components? (← env.lookup n)
  | repeated u n => do
    let count ← count? (← u.value? env)
    let items ← Grammar.components? (← env.lookup n)
    return (List.replicate count items).flatten

def parameterValue? (env : Environment) (p : String × Expression) : Option (String × Value) := do
  return (p.1, ← p.2.value? env)

namespace Statement

def name : Statement → String
  | value n _ | element n _ _ | line n _ _ _ _ => n

/-- What a statement binds its name to. The parameters of an element have distinct names; a line has
at most `maxElements` components. -/
def symbol? (env : Environment) : Statement → Option Symbol
  | value _ e => do return .value (← e.value? env)
  | element n kind params => do
    let values ← params.mapM (parameterValue? env)
    if (params.map (·.1)).Nodup then return .element { name := n, kind, params := .ofList values }
    else none
  | line _ _ _ first others => do
    let parts ← (first :: others).mapM (Item.components? env)
    if parts.flatten.length ≤ maxElements then return .line parts.flatten else none

/-- The environment behind a statement, whose name must not be bound before it. -/
def extend? (env : Environment) (s : Statement) : Option Environment := do
  let symbol ← s.symbol? env
  if (env.lookup s.name).isSome then none else return env ++ [(s.name, symbol)]

end Statement

/-- The last line of an environment and all its values. -/
def Environment.lattice? (env : Environment) : Option Lattice := do
  let (name, components) ← (env.filterMap fun b => b.2.line?.map (b.1, ·)).getLast?
  return { name, components, globals := .ofList (env.filterMap fun b => b.2.value?.map (b.1, ·)) }

namespace Program

/-- Whether no expression of the program nests deeper than `depth`. -/
def NestsWithin (depth : Nat) (p : Program) : Prop := ∀ s ∈ p, s.NestsWithin depth

/-- The lattice that the statements of a program describe, evaluated in their order. -/
def lattice? (p : Program) : Option Lattice := do
  (← p.foldlM Statement.extend? ([] : Environment)).lattice?

end Program

end BeamEnvelope.Glps.Grammar
