/-!
# Readers that take from the front

A reader takes a value from the front of some input and leaves less of it than it found. The
result carries that fact, so a grammar whose loops run over readers terminates by the size of what
is left.
-/

namespace BeamEnvelope

/-- Inputs that are used up from the front. -/
class Input (σ : Type) where
  size : σ → Nat

instance {τ : Type} : Input (List τ) := ⟨List.length⟩

/-- A value read from the front of an input, and the smaller rest. -/
structure Reading {σ : Type} [Input σ] (α : Type) (s : σ) where
  value : α
  rest : σ
  shorter : Input.size rest < Input.size s

abbrev Reader (σ ε α : Type) [Input σ] := (s : σ) → Except ε (Reading α s)

namespace Reader

variable {σ ε α β : Type} [Input σ]

/-- Reads on with what the first reader found. -/
def bind (p : Reader σ ε α) (f : α → Reader σ ε β) : Reader σ ε β := fun s => do
  let a ← p s
  let b ← f a.value a.rest
  return ⟨b.value, b.rest, Nat.lt_trans b.shorter a.shorter⟩

def check (p : Reader σ ε α) (f : α → Except ε β) : Reader σ ε β := fun s => do
  let a ← p s
  return ⟨← f a.value, a.rest, a.shorter⟩

/-- Items with a separator between them, as long as one is ahead. Each item is read with the state
that the items before it left. -/
def separated (item : α → Reader σ ε α) (separator : Reader σ ε Unit) (ahead : σ → Bool)
    (state : α) : Reader σ ε α := fun s => do
  let one ← item state s
  if ahead one.rest then
    let gap ← separator one.rest
    let more ← separated item separator ahead one.value gap.rest
    return ⟨more.value, more.rest,
      Nat.lt_trans more.shorter (Nat.lt_trans gap.shorter one.shorter)⟩
  else return one
termination_by s => Input.size s
decreasing_by exact Nat.lt_trans gap.shorter one.shorter

end Reader

end BeamEnvelope
