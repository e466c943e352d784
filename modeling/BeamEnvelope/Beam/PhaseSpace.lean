import BeamEnvelope.Beam.Scalar

/-!
# Phase space

A point of phase space has six coordinates and a seventh that is always 1, so that linear maps can
also shift it: `x` and `y` in mm, their slopes in rad, a phase `s` in rad and an energy offset `ps`
in MeV per nucleon. Sums run over the axes in order from the first product on.
-/

namespace BeamEnvelope

abbrev Axis := Fin 7

namespace Axis

def x : Axis := 0
def px : Axis := 1
def y : Axis := 2
def py : Axis := 3
def s : Axis := 4
def ps : Axis := 5
/-- The homogeneous coordinate. -/
def one : Axis := 6

def all : List Axis := List.finRange 7

end Axis

structure PhaseVector (K : Type) where
  entries : Vector K 7
deriving BEq

structure PhaseMatrix (K : Type) where
  rows : Vector (Vector K 7) 7
deriving BEq

variable {K : Type}

namespace PhaseVector

instance : CoeFun (PhaseVector K) fun _ => Axis → K := ⟨fun v i => v.entries[i]⟩

def ofFn (f : Axis → K) : PhaseVector K := ⟨Vector.ofFn f⟩

@[simp] theorem ofFn_apply (f : Axis → K) (i : Axis) : ofFn f i = f i := by
  simp [ofFn]

def set (v : PhaseVector K) (i : Axis) (a : K) : PhaseVector K :=
  ofFn fun j => if j = i then a else v j

def toList (v : PhaseVector K) : List K := Axis.all.map v

/-- The first moments with six entries given; a seventh one gives way to `one`. -/
def ofMoments? (one : K) (xs : List K) : Option (PhaseVector K) :=
  if h : xs.length = 6 ∨ xs.length = 7 then
    some (ofFn fun i => if hi : i.val < 6 then xs.get ⟨i.val, by omega⟩ else one)
  else none

end PhaseVector

namespace PhaseMatrix

instance : CoeFun (PhaseMatrix K) fun _ => Axis → Axis → K := ⟨fun m i j => m.rows[i][j]⟩

def ofFn (f : Axis → Axis → K) : PhaseMatrix K := ⟨Vector.ofFn fun i => Vector.ofFn (f i)⟩

@[simp] theorem ofFn_apply (f : Axis → Axis → K) (i j : Axis) : ofFn f i j = f i j := by
  simp [ofFn]

def set (m : PhaseMatrix K) (i j : Axis) (a : K) : PhaseMatrix K :=
  ofFn fun k l => if k = i ∧ l = j then a else m k l

def toLists (m : PhaseMatrix K) : List (List K) := Axis.all.map fun i => Axis.all.map (m i)

def ofEntries? (xs : List K) : Option (PhaseMatrix K) :=
  if h : xs.length = 49 then some (ofFn fun i j => xs.get ⟨7 * i.val + j.val, by omega⟩) else none

def transpose (m : PhaseMatrix K) : PhaseMatrix K := ofFn fun i j => m j i

section Arithmetic

variable [Scalar K]

def identity : PhaseMatrix K := ofFn fun i j => if i = j then 1.0 else 0.0

/-- The sum over all axes, the first one first. -/
def sumAxes (f : Axis → K) : K := f 0 + f 1 + f 2 + f 3 + f 4 + f 5 + f 6

def mul (a b : PhaseMatrix K) : PhaseMatrix K := ofFn fun i j => sumAxes fun k => a i k * b k j

instance : Mul (PhaseMatrix K) := ⟨mul⟩

def apply (a : PhaseMatrix K) (v : PhaseVector K) : PhaseVector K :=
  .ofFn fun i => sumAxes fun k => a i k * v k

end Arithmetic

end PhaseMatrix

end BeamEnvelope
