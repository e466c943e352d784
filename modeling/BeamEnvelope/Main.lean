import BeamEnvelope.Command.Execution

/-!
# The program

The commands on the files of the system.
-/

namespace BeamEnvelope.Command

/-- System error numbers come with either sign. -/
def errorNumber (code : UInt32) : UInt32 := if code < 0x80000000 then code else -code

def faultOf : IO.Error → FileFault
  | .noFileOrDirectory .. => .missing
  | .inappropriateType _ code _ =>
    if errorNumber code = 21 then .isDirectory else .notDirectory
  | error@(.invalidArgument _ code _) =>
    if errorNumber code = 36 then .nameTooLong else .other error.toString
  | error => .other error.toString

def guarded {α : Type} (action : IO α) : IO (Except FileFault α) :=
  try
    return .ok (← action)
  catch error => return .error (faultOf error)

instance : FileAccess IO where
  probe path := guarded do
    let _ ← IO.FS.Handle.mk path .read
  read path := guarded do return (← IO.FS.readBinFile path).data.toList
  create path := guarded do
    let _ ← IO.FS.Handle.mk path .write
  write path bytes := guarded (IO.FS.writeBinFile path ⟨bytes.toArray⟩)

def Ending.tell : Ending → IO Unit
  | done text => IO.print text
  | failed failure => IO.eprintln ("\n❌ Error: " ++ failure.message)
  | misused => IO.eprint helpText

end BeamEnvelope.Command

def main (args : List String) : IO UInt32 := do
  let ending : BeamEnvelope.Command.Ending ← BeamEnvelope.Command.runProgram args
  ending.tell
  return ending.exitCode.toUInt32
