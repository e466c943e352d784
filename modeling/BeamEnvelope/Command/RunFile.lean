import BeamEnvelope.Beam.State
import BeamEnvelope.Toml.Reading

/-!
# Run files

A TOML document may hold the settings of a run: the beam, the range of elements and the output. Each
section is a table of its keys, or an array of all its values in their order. There are no other
keys than those named here.
-/

namespace BeamEnvelope.Command

structure RunFile where
  charge : Option Float := none
  restEnergy : Option Float := none
  kineticEnergy : Option Float := none
  moments : Option (List Float) := none
  matrix : Option (List Float) := none
  start : Option Nat := none
  stop : Option Nat := none
  trace : Option Bool := none
  output : Option String := none

namespace RunFile

open Toml

def values? (keys : List String) : Option Node → Option (List (Option Node))
  | none => some (keys.map fun _ => none)
  | some (.table _ entries) =>
    if entries.all fun e => keys.contains e.1 then some (keys.map fun key => entries.lookup key)
    else none
  | some (.array items) =>
    if keys.length ≤ items.length then some ((items.take keys.length).map some) else none
  | some _ => none

/-- A value that may be absent but not of another kind. -/
def optional? {α : Type} (read : Node → Option α) : Option Node → Option (Option α)
  | none => some none
  | some node => (read node).map some

def index? : Node → Option Nat
  | .integer n => if 0 ≤ n && n < Int.pow 2 64 then some n.toNat else none
  | _ => none

def boolean? : Node → Option Bool
  | .boolean b => some b
  | _ => none

def ofText? (text : String) : Option RunFile := do
  let entries ← Toml.read? text
  let [beam, range, output] ← values? ["beam", "range", "output"] (some (.table .header entries))
    | none
  let [z, es, ek, vector, matrix] ←
    values? ["ion-z", "ion-es", "ion-ek", "moment-vector", "moment-matrix"] beam | none
  let [start, stop] ← values? ["start", "end"] range | none
  let [trace, path] ← values? ["trace", "path"] output | none
  return {
    charge := ← optional? Node.number? z
    restEnergy := ← optional? Node.number? es
    kineticEnergy := ← optional? Node.number? ek
    moments := ← optional? Node.numbers? vector
    matrix := ← optional? Node.numbers? matrix
    start := ← optional? index? start
    stop := ← optional? index? stop
    trace := ← optional? boolean? trace
    output := ← optional? Node.text? path }

end RunFile

end BeamEnvelope.Command
