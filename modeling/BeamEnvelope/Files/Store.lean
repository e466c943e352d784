import BeamEnvelope.Files.Path

/-!
# File stores

Commands use files through four operations that may fail. A store of files in memory has them too:
it resolves paths from a working directory, follows dots, and knows the directories that its files
lie in. The files form a tree without links: a file lies at one place, and two paths lead to it only
if they are two spellings of that place.
-/

namespace BeamEnvelope

inductive FileFault where
  | missing | notDirectory | isDirectory | nameTooLong | nulInPath | notText
  | other (text : String)
deriving DecidableEq

def FileFault.message : FileFault → String
  | missing => "No such file or directory (os error 2)"
  | notDirectory => "Not a directory (os error 20)"
  | isDirectory => "Is a directory (os error 21)"
  | nameTooLong => "File name too long (os error 36)"
  | nulInPath => "file name contained an unexpected NUL byte"
  | notText => "stream did not contain valid UTF-8"
  | other text => text

class FileAccess (m : Type → Type) where
  /-- Opens for reading, without reading. -/
  probe : String → m (Except FileFault Unit)
  read : String → m (Except FileFault (List UInt8))
  /-- Makes an empty file, also of one that exists. -/
  create : String → m (Except FileFault Unit)
  /-- Replaces the contents of a file, which is made if need be. -/
  write : String → List UInt8 → m (Except FileFault Unit)

/-- Where a file lies, from the root on. -/
abbrev Location := List String

/-- Files in memory, none of which is a link to another one. -/
structure FileStore where
  /-- The working directory. -/
  directory : Location
  files : List (Location × List UInt8)

namespace FileStore

def contents? (store : FileStore) (place : Location) : Option (List UInt8) :=
  store.files.lookup place

/-- The working directory and what lies above it or above a file. -/
def isDirectory (store : FileStore) (place : Location) : Bool :=
  place.isPrefixOf store.directory ||
    store.files.any fun file => place.isPrefixOf file.1 && place.length < file.1.length

def maxName : Nat := 255

def maxPath : Nat := 4095

/-- Finds a name in a directory, whether there is something of that name or not. -/
def find (place : Location) (name : String) : Except FileFault Location :=
  if maxName < name.utf8ByteSize then .error .nameTooLong else .ok (place ++ [name])

def enter (store : FileStore) (place : Location) (step : String) : Except FileFault Location :=
  if step = ".." then .ok place.dropLast
  else do
    let next ← find place step
    if store.isDirectory next then return next
    else .error (if (store.contents? next).isSome then .notDirectory else .missing)

/-- The directory that a path goes through last, and the route to it. -/
def locate (store : FileStore) (path : String) : Except FileFault (Location × Path.Route) := do
  let cs := path.toList
  if cs.contains '\x00' then .error .nulInPath
  if cs = [] then .error .missing
  if maxPath < path.utf8ByteSize then .error .nameTooLong
  let route := Path.route cs
  let start := if Path.isAbsolute cs then [] else store.directory
  return (← (route.through.map String.ofList).foldlM store.enter start, route)

def put (store : FileStore) (place : Location) (bytes : List UInt8) : FileStore :=
  { store with files :=
      if (store.contents? place).isSome then
        store.files.map fun file => if file.1 = place then (place, bytes) else file
      else store.files ++ [(place, bytes)] }

def read (store : FileStore) (path : String) : Except FileFault (List UInt8) := do
  let (directory, route) ← store.locate path
  let some name := route.name | .error .isDirectory
  let place ← find directory (String.ofList name)
  if store.isDirectory place then .error .isDirectory
  else
    match store.contents? place with
    | none => .error .missing
    | some bytes => if route.slashed then .error .notDirectory else .ok bytes

/-- A directory opens but cannot be read. -/
def probe (store : FileStore) (path : String) : Except FileFault Unit :=
  match store.read path with
  | .ok _ | .error .isDirectory => .ok ()
  | .error fault => .error fault

/-- Slashes behind the name of a file to be written are refused before the name is looked up. -/
def write (store : FileStore) (path : String) (bytes : List UInt8) :
    Except FileFault FileStore := do
  let (directory, route) ← store.locate path
  let some name := route.name | .error .isDirectory
  if route.slashed then .error .isDirectory
  let place ← find directory (String.ofList name)
  if store.isDirectory place then .error .isDirectory
  else .ok (store.put place bytes)

/-- A write that leaves the store alone if it fails. -/
def tryWrite (path : String) (bytes : List UInt8) : StateM FileStore (Except FileFault Unit) :=
  fun store =>
    match store.write path bytes with
    | .ok next => (.ok (), next)
    | .error fault => (.error fault, store)

instance : FileAccess (StateM FileStore) where
  probe path := fun store => (store.probe path, store)
  read path := fun store => (store.read path, store)
  create path := tryWrite path []
  write := tryWrite

end FileStore

end BeamEnvelope
