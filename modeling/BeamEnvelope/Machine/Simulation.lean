import BeamEnvelope.Glps.Reading
import BeamEnvelope.Machine.Propagation

/-!
# Simulations

A simulation reads a lattice source, builds the machine and carries a fresh beam through a range of
its elements. Overrides would be lost in the first source; unless the start is chosen, a simulation
with overrides begins behind it. What happens on the way is told as events.
-/

namespace BeamEnvelope

structure Request where
  overrides : Overrides Float := {}
  start? : Option Nat := none
  stop? : Option Nat := none
  /-- Whether the state behind every element is kept. -/
  trace : Bool := false

inductive Event where
  | phaseStart (name : String)
  | phaseFinish
  | message (text : String)
  | propagationStart (count : Nat)
  | elementAdvanced (index : Nat)
  | propagationFinish
deriving DecidableEq

structure Outcome where
  start : Nat
  stop : Nat
  state : State Float
  trace : List (Nat × State Float)

namespace Simulation

inductive Refusal where
  | machine (cause : Machine.Refusal)
  | range (start stop count : Nat)

def Refusal.message : Refusal → String
  | machine cause => cause.message
  | range start stop count =>
    "Invalid element range " ++ toString start ++ ".." ++ toString stop ++
      " for a machine of " ++ toString count ++ " elements"

/-- A result with the events and warnings on the way to it. -/
structure Account (α : Type) where
  result : α
  events : List Event
  warnings : List Warning

/-- Where a simulation begins by itself: at the first element, or with overrides behind the first
source. -/
def defaultStart (m : Machine Float) (overrides : Overrides Float) : Nat :=
  if overrides.isEmpty then 0
  else ((m.ofType .source).head?.map (·.index + 1)).getD 0

/-- The chosen start, or the default one with a message if it skips elements. -/
def chooseStart (m : Machine Float) (request : Request) : Nat × List Event :=
  match request.start? with
  | some start => (start, [])
  | none =>
    let start := defaultStart m request.overrides
    if start = 0 then (start, [])
    else (start, [.message ("Starting at element " ++ toString start ++
      " so that overrides are not reseeded by the source.")])

/-- Carries a fresh beam through the requested elements of a machine. -/
def simulate (m : Machine Float) (request : Request) : Account (Except Refusal Outcome) :=
  let count := m.elements.length
  let (start, announced) := chooseStart m request
  let stop := request.stop?.getD count
  if stop < start || count < stop then
    { result := .error (.range start stop count), events := announced, warnings := [] }
  else
    let span := Span.between start stop
    let fresh := m.freshState request.overrides
    let trace := m.trace span fresh
    { result := .ok {
        start, stop
        state := m.propagate span fresh
        trace := if request.trace then trace else [] }
      events := announced ++ .propagationStart (stop - start) ::
        trace.map (fun entry => .elementAdvanced entry.1) ++ [.propagationFinish]
      warnings := m.warnings span fresh }

def run (source : List UInt8) (request : Request) :
    Account (Except Refusal (Machine Float × Outcome)) :=
  let opening := Event.phaseStart "Building machine"
  match Glps.read source with
  | .error fault => ⟨.error (.machine (.unread fault)), [opening], []⟩
  | .ok lattice =>
    let warnings := Machine.buildWarnings lattice
    match Machine.ofLattice lattice with
    | .error cause => ⟨.error (.machine cause), [opening], warnings⟩
    | .ok m =>
      let account := simulate m request
      { result := account.result.map fun outcome => (m, outcome)
        events := opening :: .phaseFinish :: account.events
        warnings := warnings ++ account.warnings }

end Simulation

end BeamEnvelope
