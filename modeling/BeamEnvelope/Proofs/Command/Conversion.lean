import BeamEnvelope.Command.Execution
import BeamEnvelope.Proofs.Files.Store

/-!
# What a conversion does to files

A conversion writes to its target and to no other file. It is refused before anything is written if
the paths of input and target are spelled alike, that is, if they have the same components. One file
has many spellings, though: if they differ and lead to one place, creating the target empties the
input, and a conversion without elements follows. In every other case the input is read behind the
conversion as it was in front of it.

This is about the conversion alone, and about files none of which is a link to another one. A log
file that a call asks for is created before the conversion, whatever its path, and a link would be
one more way for two paths to lead to one file.
-/

namespace BeamEnvelope.Command

variable {α β : Type} {store opened : FileStore} {input : String} {output : Option String}
  {place : Location} {bytes : List UInt8}

theorem probe_apply (path : String) (store : FileStore) :
    (FileAccess.probe path : StateM FileStore _) store = (store.probe path, store) := rfl

theorem write_apply (path : String) (bytes : List UInt8) (store : FileStore) :
    (FileAccess.write path bytes : StateM FileStore _) store = match store.write path bytes with
      | .ok behind => (.ok (), behind)
      | .error fault => (.error fault, store) := rfl

theorem create_eq (path : String) :
    (FileAccess.create path : StateM FileStore _) = FileAccess.write path [] := rfl

theorem run_onFiles_bind (operation : StateM FileStore (Except FileFault α))
    (k : α → ExceptT Failure (StateM FileStore) β) (store : FileStore) :
    (onFiles operation >>= k).run.run store = match operation store with
      | (.ok a, behind) => (k a).run.run behind
      | (.error fault, behind) => (.error (.files fault), behind) := by
  have hrun : (onFiles operation).run.run store =
      ((operation store).1.mapError .files, (operation store).2) := rfl
  rw [ExceptT.run_bind, StateT.run_bind, hrun]
  rcases operation store with ⟨fault | a, behind⟩ <;> rfl

theorem run_read_bind (path : String)
    (k : Except FileFault (List UInt8) → ExceptT Failure (StateM FileStore) β)
    (store : FileStore) : (ExceptT.lift (FileAccess.read path) >>= k).run.run store =
      (k (store.read path)).run.run store := rfl

/-- A conversion on the files of a store: how it ends, and the store behind it. No log is kept. -/
def converted (store : FileStore) (input : String) (output : Option String) :
    Except Failure String × FileStore :=
  ((convert input output : ExceptT Failure (StateM FileStore) String).run).run store

/-- The paths of the input and of the target have the same components. -/
def SpelledAlike (input : String) (output : Option String) : Prop :=
  Path.components (convertTarget input output).toList = Path.components input.toList

/-- What is written to the target and how the conversion ends, by what is read from the input when
the target has been created. -/
def report (input : String) : Except FileFault (List UInt8) → String × Except Failure String
  | .error fault => (Tlm.head, .error (.files fault))
  | .ok bytes =>
    let conversion := Tlm.convert bytes
    (conversion.text, match conversion.failure? with
      | none => .ok ""
      | some .unreadable => .error (.files .notText)
      | some failure => .error (.conversion input failure))

theorem converted_of_spelledAlike (h : SpelledAlike input output) :
    converted store input output = (.error (.overwrite input), store) := by
  unfold converted convert
  dsimp only
  rw [if_pos (show Path.components _ = _ from h)]
  rfl

theorem converted_of_not_spelledAlike (h : ¬ SpelledAlike input output) :
    converted store input output = match store.probe input with
      | .error fault => (.error (.files fault), store)
      | .ok () => match store.write (convertTarget input output) [] with
        | .error fault => (.error (.files fault), store)
        | .ok opened =>
          let written := report input (opened.read input)
          match opened.write (convertTarget input output) (bytesOf written.1) with
          | .error fault => (.error (.files fault), opened)
          | .ok behind => (written.2, behind) := by
  unfold converted convert
  dsimp only
  rw [if_neg (show ¬ Path.components _ = _ from h), run_onFiles_bind, probe_apply]
  cases store.probe input with
  | error fault => rfl
  | ok u =>
    dsimp only
    rw [run_onFiles_bind, create_eq, write_apply]
    cases store.write (convertTarget input output) [] with
    | error fault => rfl
    | ok opened =>
      dsimp only
      rw [run_read_bind]
      cases opened.read input with
      | error fault =>
        dsimp only [report]
        rw [run_onFiles_bind, write_apply]
        cases opened.write (convertTarget input output) (bytesOf Tlm.head) <;> rfl
      | ok bytes =>
        dsimp only [report]
        rw [run_onFiles_bind, write_apply]
        cases opened.write (convertTarget input output) (bytesOf (Tlm.convert bytes).text) with
        | error fault => rfl
        | ok behind => rcases (Tlm.convert bytes).failure? with _ | _ | _ | _ <;> rfl

/-- Once the target has been created, all that is written goes there. -/
theorem converted_of_write (h : ¬ SpelledAlike input output) (hprobe : store.probe input = .ok ())
    (hplace : store.LeadsTo (convertTarget input output) place)
    (hdirectory : store.isDirectory place = false) :
    converted store input output =
      ((report input ((store.put place []).read input)).2, (store.put place []).put place
        (bytesOf (report input ((store.put place []).read input)).1)) := by
  rw [converted_of_not_spelledAlike h, hprobe,
    FileStore.write_eq_ok.2 ⟨place, hplace, hdirectory, rfl⟩]
  dsimp only
  rw [FileStore.write_put hplace hdirectory]

/-- Nothing is written, or the target is. -/
theorem converted_cases (store : FileStore) (input : String) (output : Option String) :
    (converted store input output).2 = store ∨
      ¬ SpelledAlike input output ∧ ∃ place bytes,
        store.LeadsTo (convertTarget input output) place ∧
        (converted store input output).2 = (store.put place []).put place bytes := by
  by_cases h : SpelledAlike input output
  · rw [converted_of_spelledAlike h]
    exact .inl rfl
  · cases hprobe : store.probe input with
    | error fault =>
      rw [converted_of_not_spelledAlike h, hprobe]
      exact .inl rfl
    | ok u =>
      cases hcreate : store.write (convertTarget input output) [] with
      | error fault =>
        rw [converted_of_not_spelledAlike h, hprobe, hcreate]
        exact .inl rfl
      | ok opened =>
        obtain ⟨place, hplace, hdirectory, -⟩ := FileStore.write_eq_ok.1 hcreate
        rw [converted_of_write h hprobe hplace hdirectory]
        exact .inr ⟨h, place, _, hplace, rfl⟩

theorem contents?_converted
    (h : ¬ store.LeadsTo (convertTarget input output) place) :
    (converted store input output).2.contents? place = store.contents? place := by
  obtain heq | ⟨-, other, bytes, hother, heq⟩ := converted_cases store input output
  · rw [heq]
  · have hne : place ≠ other := by
      rintro rfl
      exact h hother
    rw [heq, FileStore.contents?_put, if_neg hne, FileStore.contents?_put, if_neg hne]

theorem read_converted (hread : store.read input = .ok bytes)
    (h : store.SamePlace input (convertTarget input output) → SpelledAlike input output) :
    (converted store input output).2.read input = .ok bytes := by
  obtain heq | ⟨hspelling, place, written, hplace, heq⟩ := converted_cases store input output
  · rw [heq]
    exact hread
  · have hne : ¬ store.LeadsTo input place := fun hinput =>
      hspelling (h ⟨place, hinput, hplace⟩)
    have hopened := FileStore.read_put_of_ne hread hplace hne []
    have hne' : ¬ (store.put place []).LeadsTo input place := by
      obtain ⟨other, hother, -⟩ := FileStore.read_eq_ok.1 hread
      intro hinput
      exact hne ((hother.put hplace []).unique hinput ▸ hother)
    rw [heq]
    exact FileStore.read_put_of_ne hopened (hplace.put hplace []) hne' written

theorem converted_samePlace (hread : store.read input = .ok bytes)
    (hplace : store.SamePlace input (convertTarget input output))
    (h : ¬ SpelledAlike input output) :
    (converted store input output).1 = .error (.conversion input .noElements) ∧
      (converted store input output).2.read input = .ok (bytesOf Tlm.head) := by
  obtain ⟨place, hinput, htarget⟩ := hplace
  obtain ⟨other, hother, hdirectory, -⟩ := FileStore.read_eq_ok.1 hread
  obtain rfl := hother.unique hinput
  have hprobe : store.probe input = .ok () := by
    rw [FileStore.probe, hread]
  have hopened := FileStore.read_put_self hread hother []
  have hempty : report input (.ok []) = (Tlm.head, .error (.conversion input .noElements)) := rfl
  rw [converted_of_write h hprobe htarget hdirectory, hopened, hempty]
  exact ⟨rfl, FileStore.read_put_self hopened (hother.put hother []) _⟩

/-- What is promised of the files behind a conversion, if no log is kept and no file is a link. -/
structure WritesTarget (store : FileStore) (input : String) (output : Option String) : Prop where
  /-- An input that is spelled like the target is refused before any file is written. -/
  refused : SpelledAlike input output →
    converted store input output = (.error (.overwrite input), store)
  /-- No file changes but the one that the target leads to. -/
  others : ∀ place, ¬ store.LeadsTo (convertTarget input output) place →
    (converted store input output).2.contents? place = store.contents? place
  /-- However the conversion ends, the input is kept if the target lies elsewhere, or is spelled
  like it. -/
  kept : ∀ bytes, store.read input = .ok bytes →
    (store.SamePlace input (convertTarget input output) → SpelledAlike input output) →
    (converted store input output).2.read input = .ok bytes
  /-- In every other case it is lost. -/
  lost : ∀ bytes, store.read input = .ok bytes →
    store.SamePlace input (convertTarget input output) → ¬ SpelledAlike input output →
    (converted store input output).1 = .error (.conversion input .noElements) ∧
      (converted store input output).2.read input = .ok (bytesOf Tlm.head)

theorem writesTarget (store : FileStore) (input : String) (output : Option String) :
    WritesTarget store input output where
  refused := converted_of_spelledAlike
  others _ := contents?_converted
  kept _ := read_converted
  lost _ := converted_samePlace

def workshop : FileStore :=
  { directory := ["work"]
    files := [(["work", "cell.tlm"], bytesOf "drift d1 0.1 0.02\n")] }

/-- A dot in front of the target hides from the check that it is the input. -/
theorem dottedTarget_overwrites :
    workshop.read "cell.tlm" = .ok (bytesOf "drift d1 0.1 0.02\n") ∧
      workshop.SamePlace "cell.tlm" "./cell.tlm" ∧
      (converted workshop "cell.tlm" (some "./cell.tlm")).1 =
        .error (.conversion "cell.tlm" .noElements) ∧
      (converted workshop "cell.tlm" (some "./cell.tlm")).2.read "cell.tlm" ≠
        .ok (bytesOf "drift d1 0.1 0.02\n") := by
  refine ⟨rfl, ⟨["work", "cell.tlm"], ⟨_, _, _, rfl, rfl, rfl, rfl⟩, ⟨_, _, _, rfl, rfl, rfl, rfl⟩⟩,
    rfl, by decide⟩

end BeamEnvelope.Command
