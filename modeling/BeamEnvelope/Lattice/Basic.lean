import BeamEnvelope.Dictionary

/-!
# Lattices

A lattice is a flat list of named components, the order in which the beam meets them, with a set
of global values beside it. A component's parameters are not interpreted here: they are the values
that a lattice source gave them.
-/

namespace BeamEnvelope

inductive Value where
  | scalar (x : Float)
  | vector (xs : List Float)
  | text (s : String)
deriving BEq, Inhabited

namespace Value

def kindName : Value → String
  | scalar _ => "scalar"
  | vector _ => "vector"
  | text _ => "string"

def scalar? : Value → Option Float
  | scalar x => some x
  | _ => none

def vector? : Value → Option (List Float)
  | vector xs => some xs
  | _ => none

def text? : Value → Option String
  | text s => some s
  | _ => none

end Value

/-- A component as a source describes it; `kind` is not yet known to be a kind of element. -/
structure Component where
  name : String
  kind : String
  params : Dictionary Value := ∅
deriving BEq, Inhabited

structure Lattice where
  name : String
  globals : Dictionary Value := ∅
  components : List Component := []
deriving BEq, Inhabited

/-- A component's own parameter, else the global value of that name. -/
def Component.lookup? (globals : Dictionary Value) (component : Component) (key : String) :
    Option Value :=
  (component.params.get? key).or (globals.get? key)

end BeamEnvelope
