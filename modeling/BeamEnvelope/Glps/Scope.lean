import BeamEnvelope.Glps.Arithmetic

/-!
# Scopes and flattened lines

All names of a source share one scope, and each is defined at most once. A line is kept as the flat
list of its components: using a line or an element in a later line appends copies of them, up to
`maxElements` in all. The lattice of a source is its last line together with all its values.
-/

namespace BeamEnvelope.Glps

inductive Symbol where
  | value (v : Value)
  | element (c : Component)
  | line (cs : List Component)

namespace Symbol

def role : Symbol → Role
  | value _ => .value
  | element _ => .element
  | line _ => .line

def value? : Symbol → Option Value
  | value v => some v
  | _ => none

def line? : Symbol → Option (List Component)
  | line cs => some cs
  | _ => none

end Symbol

/-- The definitions made so far, the latest one first. -/
structure Scope where
  definitions : List (String × Symbol) := []
  distinct : (definitions.map (·.1)).Nodup := by simp

namespace Scope

def get? (scope : Scope) (name : String) : Option Symbol := scope.definitions.lookup name

def define (scope : Scope) (name : String) (symbol : Symbol) (pos : Position) :
    Except Fault Scope :=
  if h : name ∈ scope.definitions.map (·.1) then .error (.redefined pos name)
  else .ok ⟨(name, symbol) :: scope.definitions, List.nodup_cons.2 ⟨h, scope.distinct⟩⟩

/-- A name used inside an expression. -/
def value (scope : Scope) (name : String) (pos : Position) : Except Fault Value :=
  match scope.get? name with
  | some (.value v) => .ok v
  | some symbol => .error (.mismatch pos (.notValue name symbol.role))
  | none => .error (.undefined pos name)

/-- A name used inside a line. -/
def components (scope : Scope) (name : String) (pos : Position) :
    Except Fault (List Component) :=
  match scope.get? name with
  | some (.element c) => .ok [c]
  | some (.line cs) => .ok cs
  | some symbol => .error (.mismatch pos (.notBeamline name symbol.role))
  | none => .error (.undefined pos name)

def globals (scope : Scope) : Dictionary Value :=
  .ofList (scope.definitions.filterMap fun d => d.2.value?.map (d.1, ·))

def lastLine? (scope : Scope) : Option (String × List Component) :=
  scope.definitions.findSome? fun d => d.2.line?.map (d.1, ·)

def lattice (scope : Scope) : Except Fault Lattice :=
  match scope.lastLine? with
  | some (name, components) => .ok { name, globals := scope.globals, components }
  | none => .error .noBeamline

end Scope

/-- `count` copies of a list in a row; an empty list is not even repeated. -/
def copies {α : Type} (count : Nat) (items : List α) : List α :=
  if items.isEmpty then [] else (List.replicate count items).flatten

theorem copies_eq_flatten {α : Type} (count : Nat) (items : List α) :
    copies count items = (List.replicate count items).flatten := by
  unfold copies
  split
  · rename_i h
    simp [List.isEmpty_iff.1 h]
  · rfl

/-- Appends `count` copies of what `name` stands for to a line under construction. -/
def append (scope : Scope) (built : List Component) (name : String) (count : Nat)
    (pos : Position) : Except Fault (List Component) := do
  let items ← scope.components name pos
  if built.length + count * items.length ≤ maxElements then
    return built ++ copies count items
  else .error (.overflow pos .expansion)

end BeamEnvelope.Glps
