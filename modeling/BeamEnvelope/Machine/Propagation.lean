import BeamEnvelope.Machine.Building

/-!
# Propagation

A beam is carried through a span of consecutive elements. An observer sees it behind each of them;
the passages record what it was on both sides, and the warnings are read off them.
-/

namespace BeamEnvelope

/-- One end of a span of indices. -/
inductive Bound where
  | included (index : Nat)
  | excluded (index : Nat)
  | unbounded
deriving DecidableEq

structure Span where
  start : Bound := .unbounded
  stop : Bound := .unbounded
deriving DecidableEq

namespace Span

/-- The largest index that a bound can name. -/
def maxIndex : Nat := Nat.pow 2 64 - 1

/-- The index behind another one; there is none behind the largest. -/
def next (index : Nat) : Nat := min (index + 1) maxIndex

def first (span : Span) : Nat :=
  match span.start with
  | .included i => i
  | .excluded i => next i
  | .unbounded => 0

/-- The index behind the last one of a span among `count` elements. -/
def limit (span : Span) (count : Nat) : Nat :=
  match span.stop with
  | .included i => next i
  | .excluded i => i
  | .unbounded => count

/-- A span confined to `count` elements, as its first index and the one behind its last. -/
def clamp (span : Span) (count : Nat) : Nat × Nat :=
  let stop := min (span.limit count) count
  (min span.first stop, stop)

def select {α : Type} (span : Span) (xs : List α) : List α :=
  (xs.take (span.clamp xs.length).2).drop (span.clamp xs.length).1

/-- The indices from `start` on that are less than `stop`. -/
def between (start stop : Nat) : Span := ⟨.included start, .excluded stop⟩

end Span

variable {K : Type} [Scalar K]

def passages (frequency : K) : State K → List (Element K) → List (Passage K)
  | _, [] => []
  | st, e :: rest =>
    let behind := e.advance frequency st
    ⟨e, st, behind⟩ :: passages frequency behind rest

/-- What an observer makes of an element with the state behind it. -/
abbrev Observer (K σ : Type) := σ → Element K → State K → σ

def Observer.trace : Observer K (Array (Nat × State K)) :=
  fun entries e behind => entries.push (e.index, behind)

namespace Machine

/-- Carries a state through a span of elements, with an observer behind each of them if there is
one. -/
def run {σ : Type} (m : Machine K) (span : Span) (observer : Option (Observer K σ))
    (start : State K × σ) : State K × σ :=
  (span.select m.elements).foldl (fun (st, seen) e =>
    let behind := e.advance m.frequency st
    (behind, match observer with
      | some view => view seen e behind
      | none => seen)) start

def propagate (m : Machine K) (span : Span) (st : State K) : State K :=
  (m.run span (none : Option (Observer K Unit)) (st, ())).1

def observe {σ : Type} (m : Machine K) (span : Span) (view : Observer K σ) (st : State K)
    (seen : σ) : State K × σ :=
  m.run span (some view) (st, seen)

def trace (m : Machine K) (span : Span) (st : State K) : List (Nat × State K) :=
  (m.observe span Observer.trace st #[]).2.toList

def passages (m : Machine K) (span : Span) (st : State K) : List (Passage K) :=
  BeamEnvelope.passages m.frequency st (span.select m.elements)

def warnings (m : Machine K) (span : Span) (st : State K) : List Warning :=
  (m.passages span st).flatMap fun p => p.element.warnings m.frequency p.before

/-- A fresh beam: seeded by the first source, then overridden. -/
def freshState (m : Machine K) (overrides : Overrides K) : State K :=
  let start : State K := .start
  ((m.elements.findSome? Element.seed?).elim start start.seed).override overrides

/-- The element of a name, `nth` others of that name before it. -/
def find? (m : Machine K) (name : String) (nth : Nat) : Option (Element K) :=
  (m.elements.filter fun e => e.name == name)[nth]?

def ofType (m : Machine K) (type : ElementType) : List (Element K) :=
  m.elements.filter fun e => e.type == type

end Machine

end BeamEnvelope
