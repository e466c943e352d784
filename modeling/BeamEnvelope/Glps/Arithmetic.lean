import BeamEnvelope.Glps.Fault

/-!
# Arithmetic on values

Scalars combine as doubles do. A vector combines entry by entry with a scalar or with a vector of
the same length; texts do not combine. An operator or function whose result is infinite or not a
number faults, as does one applied to values of the wrong kind. Negation keeps every number finite
that was finite, so it checks nothing.
-/

namespace BeamEnvelope.Glps

namespace Operator

def apply : Operator → Float → Float → Float
  | add => (· + ·)
  | sub => (· - ·)
  | mul => (· * ·)
  | div => (· / ·)

end Operator

inductive Function where
  | sin | cos | tan | asin | acos | atan | sqrt | exp | ln | deg2rad | rad2deg
deriving DecidableEq

namespace Function

def name : Function → String
  | sin => "sin"
  | cos => "cos"
  | tan => "tan"
  | asin => "asin"
  | acos => "acos"
  | atan => "atan"
  | sqrt => "sqrt"
  | exp => "exp"
  | ln => "ln"
  | deg2rad => "deg2rad"
  | rad2deg => "rad2deg"

def all : List Function := [sin, cos, tan, asin, acos, atan, sqrt, exp, ln, deg2rad, rad2deg]

def ofName? (s : String) : Option Function := all.find? fun f => f.name == s

theorem ofName?_name (f : Function) : ofName? f.name = some f := by
  cases f <;> decide

theorem name_of_ofName? {s : String} {f : Function} (h : ofName? s = some f) : f.name = s := by
  simpa using List.find?_some h

def apply : Function → Float → Float
  | sin => Float.sin
  | cos => Float.cos
  | tan => Float.tan
  | asin => Float.asin
  | acos => Float.acos
  | atan => Float.atan
  | sqrt => Float.sqrt
  | exp => Float.exp
  | ln => Float.log
  | deg2rad => (· * 0.017453292519943295)
  | rad2deg => (· * 57.29577951308232)

end Function

def finite (pos : Position) (what : String) (x : Float) : Except Fault Float :=
  if x.isFinite then .ok x else .error (.overflow pos (.result what))

def binary (pos : Position) (op : Operator) : Value → Value → Except Fault Value
  | .scalar a, .scalar b => return .scalar (← finite pos op.noun (op.apply a b))
  | .vector xs, .scalar b => return .vector (← xs.mapM fun x => finite pos op.noun (op.apply x b))
  | .scalar a, .vector ys => return .vector (← ys.mapM fun y => finite pos op.noun (op.apply a y))
  | .vector xs, .vector ys =>
    if xs.length ≠ ys.length then .error (.mismatch pos (.lengths op xs.length ys.length))
    else return .vector (← (xs.zipWith op.apply ys).mapM (finite pos op.noun))
  | l, r => .error (.mismatch pos (.operands op l.kindName r.kindName))

def negate (pos : Position) : Value → Except Fault Value
  | .scalar x => .ok (.scalar (-x))
  | .vector xs => .ok (.vector (xs.map (- ·)))
  | v => .error (.mismatch pos (.negation v.kindName))

def call (pos : Position) (f : Function) : Value → Except Fault Value
  | .scalar x => return .scalar (← finite pos f.name (f.apply x))
  | v => .error (.mismatch pos (.argument f.name v.kindName))

/-- A call by name; a name that is no function is undefined. -/
def callNamed (pos : Position) (name : String) (argument : Value) : Except Fault Value :=
  match Function.ofName? name with
  | some f => call pos f argument
  | none => .error (.undefined pos name)

def entry (pos : Position) : Value → Except Fault Float
  | .scalar x => .ok x
  | v => .error (.mismatch pos (.entry v.kindName))

/-- The count that a repeat factor stands for: its whole part, from 0 to `maxElements`. -/
def repeatCount (pos : Position) : Value → Except Fault Nat
  | .scalar x =>
    if -1.0 < x && x < Float.ofNat (maxElements + 1) then .ok x.toUInt64.toNat
    else .error (.overflow pos (.factor x))
  | v => .error (.mismatch pos (.factor v.kindName))

end BeamEnvelope.Glps
