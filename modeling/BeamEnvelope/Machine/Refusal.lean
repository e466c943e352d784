import BeamEnvelope.Glps.Fault
import BeamEnvelope.Machine.Element

/-!
# Refusals

Why a component is not an element, and why a lattice is not a machine.
-/

namespace BeamEnvelope

inductive Shape where
  | scalar | matrix | moments | aperture
deriving DecidableEq

namespace Shape

def text : Shape → String
  | scalar => "a scalar"
  | matrix => "a vector of 49 values"
  | moments => "a vector of 6 or 7 values"
  | aperture => "a scalar or vector"

def foundText (shape : Shape) (value : Value) : String :=
  match shape, value with
  | matrix, .vector xs | moments, .vector xs => "a vector of " ++ toString xs.length ++ " values"
  | _, value => value.kindName

end Shape

inductive Element.Refusal where
  | unknownType (name : String)
  | missing (key : String)
  | mistyped (key : String) (shape : Shape) (found : Value)
  | negativeLength (length : Float)
  | longMarker (length : Float)
  | sharpBend

def Element.Refusal.message : Element.Refusal → String
  | unknownType name => "unknown element type '" ++ name ++ "'"
  | missing key => "missing required parameter '" ++ key ++ "'"
  | mistyped key shape found =>
    "parameter '" ++ key ++ "' must be " ++ shape.text ++ ", not " ++ shape.foundText found
  | negativeLength length => "negative length " ++ Decimal.positional length
  | longMarker length => "marker must have zero length, not " ++ Decimal.positional length
  | sharpBend => "sbend with zero length cannot bend"

inductive Machine.Refusal where
  | unread (fault : Glps.Fault)
  | noSimulationType
  | otherSimulationType (found : Value)
  | element (index : Nat) (name : String) (cause : Element.Refusal)

def Machine.Refusal.message : Machine.Refusal → String
  | unread fault => fault.message
  | noSimulationType => "Configuration does not declare 'sim_type'"
  | otherSimulationType (.text s) => "Unsupported sim_type '" ++ s ++ "'"
  | otherSimulationType found => "Unsupported sim_type '<" ++ found.kindName ++ ">'"
  | element index name cause =>
    "Error while initializing element " ++ toString index ++ " '" ++ name ++ "': " ++ cause.message

end BeamEnvelope
