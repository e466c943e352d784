import BeamEnvelope.Files.Store
import BeamEnvelope.Proofs.Result

/-!
# Files of a store that are written and read

A path leads through directories to the place of a file. What is written lies at one place: no other
file changes, no directory comes or goes, and every path that led to a place still leads there. So a
file that is read through a path is read again through it, unless something has been written to its
place. That a path leads to one place rests on there being no links in a store.
-/

namespace BeamEnvelope.FileStore

variable {store next : FileStore} {place other : Location} {path : String} {bytes : List UInt8}

/-- The place that a path leads to, whether there is a file or not. No slash follows the name. -/
def LeadsTo (store : FileStore) (path : String) (place : Location) : Prop :=
  ∃ directory route name, store.locate path = .ok (directory, route) ∧ route.name = some name ∧
    route.slashed = false ∧ find directory (String.ofList name) = .ok place

theorem LeadsTo.unique (h : store.LeadsTo path place) (h' : store.LeadsTo path other) :
    place = other := by
  obtain ⟨directory, route, name, hlocate, hname, -, hfind⟩ := h
  obtain ⟨_, _, _, hlocate', hname', -, hfind'⟩ := h'
  obtain ⟨rfl, rfl⟩ := Prod.mk.inj (Except.ok.inj (hlocate.symm.trans hlocate'))
  obtain rfl := Option.some.inj (hname.symm.trans hname')
  exact Except.ok.inj (hfind.symm.trans hfind')

theorem read_eq_ok : store.read path = .ok bytes ↔ ∃ place, store.LeadsTo path place ∧
    store.isDirectory place = false ∧ store.contents? place = some bytes := by
  constructor
  · intro h
    obtain ⟨⟨directory, route⟩, hlocate, h⟩ := bind_eq_ok.1 h
    dsimp only at h
    split at h
    · rename_i name hname
      obtain ⟨place, hfind, h⟩ := bind_eq_ok.1 h
      split at h
      · cases h
      · rename_i hdirectory
        split at h
        · cases h
        · rename_i found hfound
          split at h
          · cases h
          · rename_i hslashed
            cases h
            exact ⟨place, ⟨directory, route, name, hlocate, hname, by simpa using hslashed, hfind⟩,
              by simpa using hdirectory, hfound⟩
    · cases h
  · rintro ⟨place, ⟨directory, route, name, hlocate, hname, hslashed, hfind⟩, hdirectory, hfound⟩
    rw [read, bind_of_eq_ok hlocate]
    dsimp only
    rw [hname]
    dsimp only
    rw [bind_of_eq_ok hfind, hdirectory, hfound, hslashed]
    rfl

theorem write_eq_ok : store.write path bytes = .ok next ↔ ∃ place, store.LeadsTo path place ∧
    store.isDirectory place = false ∧ next = store.put place bytes := by
  constructor
  · intro h
    obtain ⟨⟨directory, route⟩, hlocate, h⟩ := bind_eq_ok.1 h
    dsimp only at h
    split at h
    · rename_i name hname
      split at h
      · cases h
      · rename_i hslashed
        obtain ⟨place, hfind, h⟩ := bind_eq_ok.1 h
        split at h
        · cases h
        · rename_i hdirectory
          cases h
          exact ⟨place, ⟨directory, route, name, hlocate, hname, by simpa using hslashed, hfind⟩,
            by simpa using hdirectory, rfl⟩
    · cases h
  · rintro ⟨place, ⟨directory, route, name, hlocate, hname, hslashed, hfind⟩, hdirectory, rfl⟩
    rw [write, bind_of_eq_ok hlocate]
    dsimp only
    rw [hname]
    dsimp only
    rw [hslashed, if_neg Bool.false_ne_true, bind_of_eq_ok hfind, hdirectory]
    rfl

theorem lookup_map_replace (files : List (Location × List UInt8)) (place other : Location)
    (bytes : List UInt8) :
    (files.map fun file => if file.1 = place then (place, bytes) else file).lookup other =
      if other = place then (files.lookup place).map fun _ => bytes else files.lookup other := by
  induction files with
  | nil => simp
  | cons file files ih =>
    obtain ⟨key, found⟩ := file
    rw [List.map_cons, List.lookup_cons, List.lookup_cons, List.lookup_cons, ih]
    by_cases hkey : key = place
    · subst hkey
      by_cases hother : other = key
      · simp [hother]
      · have hne : (other == key) = false := by simpa using hother
        simp [hother, hne]
    · by_cases hother : other = place
      · subst hother
        have hne : (other == key) = false := by simpa using Ne.symm hkey
        simp [hkey, hne]
      · simp [hkey, hother]

/-- A file holds what was written to its place last. -/
theorem contents?_put (store : FileStore) (place other : Location) (bytes : List UInt8) :
    (store.put place bytes).contents? other =
      if other = place then some bytes else store.contents? other := by
  unfold put contents?
  dsimp only
  split
  · rename_i hfound
    rw [lookup_map_replace]
    obtain ⟨found, hfound⟩ := Option.isSome_iff_exists.1 hfound
    rw [hfound]
    rfl
  · rename_i hnone
    have hnone : store.files.lookup place = none := Option.not_isSome_iff_eq_none.1 hnone
    rw [List.lookup_append]
    by_cases hother : other = place
    · subst hother
      simp [hnone]
    · have hne : (other == place) = false := by simpa using hother
      simp [List.lookup_cons, hne, hother]

def places (store : FileStore) : List Location := store.files.map (·.1)

theorem isDirectory_iff : store.isDirectory place = true ↔ place <+: store.directory ∨
    ∃ file ∈ store.places, place <+: file ∧ place.length < file.length := by
  simp [isDirectory, places, List.isPrefixOf_iff_prefix]

theorem isDirectory_of_prefix (h : store.isDirectory place = true) (habove : other <+: place) :
    store.isDirectory other = true := by
  rw [isDirectory_iff] at h ⊢
  rcases h with h | ⟨file, hfile, h, hlt⟩
  · exact .inl (habove.trans h)
  · exact .inr ⟨file, hfile, habove.trans h, Nat.lt_of_le_of_lt habove.length_le hlt⟩

theorem isDirectory_enter {step : String} (h : store.isDirectory place = true)
    (henter : store.enter place step = .ok other) : store.isDirectory other = true := by
  unfold enter at henter
  split at henter
  · cases henter
    exact isDirectory_of_prefix h (List.dropLast_prefix place)
  · obtain ⟨found, -, henter⟩ := bind_eq_ok.1 henter
    split at henter
    · rename_i hfound
      cases henter
      exact hfound
    · cases henter

theorem isDirectory_foldlM_enter {steps : List String} (h : store.isDirectory place = true)
    (hsteps : steps.foldlM store.enter place = .ok other) : store.isDirectory other = true := by
  induction steps generalizing place with
  | nil =>
    cases hsteps
    exact h
  | cons step steps ih =>
    rw [List.foldlM_cons] at hsteps
    obtain ⟨behind, henter, hsteps⟩ := bind_eq_ok.1 hsteps
    exact ih (isDirectory_enter h henter) hsteps

def start (store : FileStore) (path : String) : Location :=
  if Path.isAbsolute path.toList then [] else store.directory

theorem isDirectory_start (store : FileStore) (path : String) :
    store.isDirectory (store.start path) = true := by
  rw [isDirectory_iff, start]
  split
  · exact .inl List.nil_prefix
  · exact .inl (List.prefix_refl _)

/-- What can be said of a path before any directory is looked up. -/
def pathFault? (path : String) : Option FileFault :=
  if path.toList.contains '\x00' then some .nulInPath
  else if path.toList = [] then some .missing
  else if maxPath < path.utf8ByteSize then some .nameTooLong
  else none

theorem locate_eq (store : FileStore) (path : String) :
    store.locate path = match pathFault? path with
      | some fault => .error fault
      | none => (fun directory => (directory, Path.route path.toList)) <$>
          ((Path.route path.toList).through.map String.ofList).foldlM store.enter
            (store.start path) := by
  unfold locate pathFault?
  by_cases hnul : path.toList.contains '\x00' = true
  · rw [if_pos hnul, if_pos hnul]
    rfl
  · by_cases hnil : path.toList = []
    · rw [if_neg hnul, if_neg hnul, if_pos hnil]
      simp only [hnil]
      rfl
    · by_cases hlong : maxPath < path.utf8ByteSize
      · simp only [hnul, hnil, hlong]
        rfl
      · simp only [hnul, hnil, hlong]
        rfl

theorem locate_eq_ok {directory : Location} {route : Path.Route} :
    store.locate path = .ok (directory, route) ↔ pathFault? path = none ∧
      Path.route path.toList = route ∧
      (route.through.map String.ofList).foldlM store.enter (store.start path) = .ok directory := by
  rw [locate_eq]
  cases pathFault? path with
  | some fault => simp
  | none =>
    rw [map_eq_ok]
    constructor
    · rintro ⟨found, hfound, h⟩
      cases h
      exact ⟨rfl, rfl, hfound⟩
    · rintro ⟨-, rfl, hfound⟩
      exact ⟨directory, hfound, rfl⟩

/-- Files lie in directories. -/
theorem LeadsTo.exists_directory (h : store.LeadsTo path place) :
    ∃ directory name, place = directory ++ [name] ∧ store.isDirectory directory = true := by
  obtain ⟨directory, route, name, hlocate, -, -, hfind⟩ := h
  obtain ⟨-, -, hsteps⟩ := locate_eq_ok.1 hlocate
  have hdirectory := isDirectory_foldlM_enter (isDirectory_start store path) hsteps
  unfold find at hfind
  split at hfind
  · cases hfind
  · cases hfind
    exact ⟨directory, String.ofList name, rfl, hdirectory⟩

theorem places_put (store : FileStore) (place : Location) (bytes : List UInt8) :
    (store.put place bytes).places =
      if (store.contents? place).isSome then store.places else store.places ++ [place] := by
  have hkey (file : Location × List UInt8) :
      (if file.1 = place then (place, bytes) else file).1 = file.1 := by
    split
    · rename_i h
      exact h.symm
    · rfl
  unfold put places
  dsimp only
  split
  · rw [List.map_map]
    exact List.map_congr_left fun file _ => hkey file
  · exact List.map_append

/-- A file that is written in a directory makes no new directory. -/
theorem isDirectory_put {directory : Location} (h : store.isDirectory directory = true)
    (name : String) (bytes : List UInt8) (other : Location) :
    (store.put (directory ++ [name]) bytes).isDirectory other = store.isDirectory other := by
  rw [Bool.eq_iff_iff]
  constructor
  · intro hother
    by_cases hold : ∃ file ∈ store.places, other <+: file ∧ other.length < file.length
    · exact isDirectory_iff.2 (.inr hold)
    · rcases isDirectory_iff.1 hother with habove | ⟨file, hfile, habove, hlt⟩
      · exact isDirectory_iff.2 (.inl habove)
      · -- only the new file is left, and what it lies in is the directory or above it
        rw [places_put] at hfile
        split at hfile
        · exact absurd ⟨file, hfile, habove, hlt⟩ hold
        · rcases List.mem_append.1 hfile with hfile | hfile
          · exact absurd ⟨file, hfile, habove, hlt⟩ hold
          · obtain rfl := List.mem_singleton.1 hfile
            rw [List.length_append, List.length_singleton] at hlt
            have hparent : other <+: directory :=
              List.prefix_of_prefix_length_le habove (List.prefix_append _ _)
                (Nat.le_of_lt_succ hlt)
            exact isDirectory_of_prefix h hparent
  · intro hother
    rw [isDirectory_iff] at hother ⊢
    refine hother.imp id fun ⟨file, hfile, habove⟩ => ⟨file, ?_, habove⟩
    rw [places_put]
    split
    · exact hfile
    · exact List.mem_append_left _ hfile

theorem foldlM_enter_mono {steps : List String} (hdirectories : ∀ p, next.isDirectory p =
    store.isDirectory p) (h : steps.foldlM store.enter place = .ok other) :
    steps.foldlM next.enter place = .ok other := by
  induction steps generalizing place with
  | nil => exact h
  | cons step steps ih =>
    rw [List.foldlM_cons] at h ⊢
    obtain ⟨behind, henter, hsteps⟩ := bind_eq_ok.1 h
    have hentered : next.enter place step = .ok behind := by
      unfold enter at henter ⊢
      split at henter
      · rename_i hup
        rw [if_pos hup]
        exact henter
      · rename_i hdown
        obtain ⟨found, hfind, henter⟩ := bind_eq_ok.1 henter
        rw [if_neg hdown, bind_of_eq_ok hfind, hdirectories]
        split at henter
        · rename_i hfound
          rw [if_pos hfound]
          exact henter
        · cases henter
    rw [bind_of_eq_ok hentered]
    exact ih hsteps

/-- Wherever a path led, it leads when a file has been written. -/
theorem LeadsTo.put {target : String} (h : store.LeadsTo path other)
    (htarget : store.LeadsTo target place) (bytes : List UInt8) :
    (store.put place bytes).LeadsTo path other := by
  obtain ⟨parent, last, rfl, hparent⟩ := htarget.exists_directory
  obtain ⟨directory, route, name, hlocate, hname⟩ := h
  obtain ⟨hfault, hroute, hsteps⟩ := locate_eq_ok.1 hlocate
  have hsteps' := foldlM_enter_mono (isDirectory_put hparent last bytes) hsteps
  exact ⟨directory, route, name, locate_eq_ok.2 ⟨hfault, hroute, hsteps'⟩, hname⟩

theorem LeadsTo.isDirectory_put (h : store.LeadsTo path place) (bytes : List UInt8)
    (other : Location) :
    (store.put place bytes).isDirectory other = store.isDirectory other := by
  obtain ⟨directory, name, rfl, hdirectory⟩ := h.exists_directory
  exact FileStore.isDirectory_put hdirectory name bytes other

/-- What was written to a place is read there, through any path. -/
theorem read_put_self {found : List UInt8} (h : store.read path = .ok found)
    (hplace : store.LeadsTo path place) (bytes : List UInt8) :
    (store.put place bytes).read path = .ok bytes := by
  obtain ⟨other, hother, hdirectory, -⟩ := read_eq_ok.1 h
  obtain rfl := hother.unique hplace
  refine read_eq_ok.2 ⟨other, hother.put hplace bytes, ?_, ?_⟩
  · rw [hplace.isDirectory_put]
    exact hdirectory
  · rw [contents?_put, if_pos rfl]

/-- What lies at another place is read as before. -/
theorem read_put_of_ne {found : List UInt8} {target : String} (h : store.read path = .ok found)
    (htarget : store.LeadsTo target place) (hne : ¬ store.LeadsTo path place)
    (bytes : List UInt8) : (store.put place bytes).read path = .ok found := by
  obtain ⟨other, hother, hdirectory, hfound⟩ := read_eq_ok.1 h
  have hplaces : other ≠ place := by
    rintro rfl
    exact hne hother
  refine read_eq_ok.2 ⟨other, hother.put htarget bytes, ?_, ?_⟩
  · rw [htarget.isDirectory_put]
    exact hdirectory
  · rw [contents?_put, if_neg hplaces]
    exact hfound

/-- A path that has been written to can be written to again. -/
theorem write_put (h : store.LeadsTo path place) (hdirectory : store.isDirectory place = false)
    (bytes more : List UInt8) :
    (store.put place bytes).write path more = .ok ((store.put place bytes).put place more) := by
  refine write_eq_ok.2 ⟨place, h.put h bytes, ?_, rfl⟩
  rw [h.isDirectory_put]
  exact hdirectory

def SamePlace (store : FileStore) (path other : String) : Prop :=
  ∃ place, store.LeadsTo path place ∧ store.LeadsTo other place

end BeamEnvelope.FileStore
