import BeamEnvelope.Command.Arguments
import BeamEnvelope.Command.RunFile
import BeamEnvelope.Files.Store
import BeamEnvelope.Glps.Printing
import BeamEnvelope.Lattice.Toml
import BeamEnvelope.Machine.Report
import BeamEnvelope.Machine.Simulation
import BeamEnvelope.Text.Bytes
import BeamEnvelope.Tlm.Conversion

/-!
# Execution

A command reads its files, computes, and writes its result to a file or hands it over as text. It
runs wherever files can be used. The first failure ends it; files written until then stay written.
-/

namespace BeamEnvelope.Command

inductive Failure where
  | files (fault : FileFault)
  | momentCount (found : Nat)
  | matrixCount (found : Nat)
  | runFile (path : String)
  | lattice (path : String) (fault : Glps.Fault)
  | conversion (path : String) (failure : Tlm.Failure)
  | simulation (refusal : Simulation.Refusal)
  | unprintable
  | overwrite (path : String)

namespace Failure

def parseText (path cause : String) : String :=
  "Failed to parse file '" ++ path ++ "': " ++ cause

def message : Failure → String
  | files fault => "I/O error: " ++ fault.message
  | momentCount n =>
    "Configuration error: 'moment-vector' must have 6 or 7 values, found " ++ toString n
  | matrixCount n =>
    "Configuration error: 'moment-matrix' must have 49 values, found " ++ toString n
  | runFile path => parseText path "not a valid run file"
  | lattice path fault => parseText path fault.message
  | conversion path failure => parseText path failure.message
  | simulation refusal => refusal.message
  | unprintable => "Failed to print GLPS"
  | overwrite path => "Invalid argument: output would overwrite the input file '" ++ path ++ "'"

end Failure

/-- Overrides of the command line, else of the run file. -/
def overrides (options : RunOptions) (file : RunFile) : Except Failure (Overrides Float) := do
  let centroid ← match file.moments with
    | none => pure none
    | some xs =>
      match PhaseVector.ofMoments? 1.0 xs with
      | some v => pure (some v)
      | none => .error (.momentCount xs.length)
  let sigma ← match file.matrix with
    | none => pure none
    | some xs =>
      match PhaseMatrix.ofEntries? xs with
      | some m => pure (some m)
      | none => .error (.matrixCount xs.length)
  return {
    sigma, centroid
    charge := options.charge.or file.charge
    restEnergy := options.restEnergy.or file.restEnergy
    kineticEnergy := options.kineticEnergy.or file.kineticEnergy }

def request (options : RunOptions) (file : RunFile) : Except Failure Request := do
  return {
    overrides := ← overrides options file
    start? := options.start.or file.start
    stop? := options.stop.or file.stop
    trace := options.trace || file.trace.getD false }

/-- The text of a run: the states behind the elements, if kept, and the final one. -/
def resultText (m : Machine Float) (outcome : Outcome) : String :=
  let passed (entry : Nat × State Float) : String :=
    match m.elements[entry.1]? with
    | some e => "After " ++ e.title ++ "\n" ++ entry.2.report ++ "\n\n"
    | none => ""
  String.join (outcome.trace.map passed) ++
    "Beamline '" ++ m.name ++ "', elements " ++ toString outcome.start ++ ".." ++
    toString outcome.stop ++ " of " ++ toString m.elements.length ++ "\n" ++
    outcome.state.report ++ "\n"

variable {m : Type → Type} [Monad m] [FileAccess m]

/-- Runs an operation on files whose fault ends the command. -/
def onFiles {α : Type} (operation : m (Except FileFault α)) : ExceptT Failure m α :=
  ExceptT.mk do return (← operation).mapError .files

def textOf? (bytes : List UInt8) : Option String := String.fromUTF8? ⟨bytes.toArray⟩

def deliver (output : Option String) (text : String) : ExceptT Failure m String :=
  match output with
  | none => return text
  | some path => do
    onFiles (FileAccess.write path (bytesOf text))
    return ""

def readRunFile (path : String) : ExceptT Failure m RunFile := do
  let some text := textOf? (← onFiles (FileAccess.read path)) | throw (.files .notText)
  let some file := RunFile.ofText? text | throw (.runFile path)
  return file

def run (options : RunOptions) : ExceptT Failure m String := do
  let file ← match options.config with
    | some path => readRunFile path
    | none => pure {}
  let request ← ExceptT.mk (pure (request options file))
  let source ← onFiles (FileAccess.read options.lattice)
  match (Simulation.run source request).result with
  | .ok (machine, outcome) => deliver (options.output.or file.output) (resultText machine outcome)
  | .error (.machine (.unread fault)) => throw (.lattice options.lattice fault)
  | .error refusal => throw (.simulation refusal)

def parse (path : String) (format : Format) (output : Option String) :
    ExceptT Failure m String := do
  match Glps.read (← onFiles (FileAccess.read path)) with
  | .error fault => throw (.lattice path fault)
  | .ok lattice =>
    match format with
    | .toml => deliver output lattice.toToml
    | .glps =>
      match Glps.print lattice with
      | .ok text => deliver output text
      | .error _ => throw .unprintable

/-- The path that a conversion writes to: the given one, or the input with the extension of
lattices. -/
def convertTarget (input : String) (output : Option String) : String :=
  output.getD (String.ofList (Path.withExtension input.toList "lat".toList))

/-- Converts a file. The output exists from the start on and keeps what was written before a
failure. -/
def convert (input : String) (output : Option String) : ExceptT Failure m String := do
  let target := convertTarget input output
  if Path.components target.toList = Path.components input.toList then throw (.overwrite input)
  onFiles (FileAccess.probe input)
  onFiles (FileAccess.create target)
  match ← ExceptT.lift (FileAccess.read input) with
  | .error fault =>
    onFiles (FileAccess.write target (bytesOf Tlm.head))
    throw (.files fault)
  | .ok bytes =>
    let conversion := Tlm.convert bytes
    onFiles (FileAccess.write target (bytesOf conversion.text))
    match conversion.failure? with
    | none => return ""
    | some .unreadable => throw (.files .notText)
    | some failure => throw (.conversion input failure)

/-- Does what a call asks for and gives the text for the standard output. -/
def Call.execute (call : Call) : ExceptT Failure m String := do
  if let some path := call.logFile then onFiles (FileAccess.create path)
  match call.task with
  | .run options => run options
  | .parse lattice format output => parse lattice format output
  | .convert input output => convert input output

inductive Ending where
  | done (output : String)
  | failed (failure : Failure)
  | misused

def Ending.exitCode : Ending → Nat
  | done _ => 0
  | failed _ => 1
  | misused => 2

def programName : String := "beamenv-cli"

def programVersion : String := "0.1.0-alpha.1"

def versionText (subcommand : Option Subcommand) : String :=
  programName ++ (subcommand.elim "" fun c => "-" ++ c.name) ++ " " ++ programVersion ++ "\n"

def helpText : String :=
  "Usage: beamenv [OPTIONS] <COMMAND>\n\n" ++
  "Commands:\n" ++
  "  run      Propagate a beam envelope through a GLPS lattice and print the final state\n" ++
  "  parse    Parse a GLPS lattice and print the flattened configuration\n" ++
  "  convert  Convert a TLM flat file into a GLPS lattice\n"

def runProgram (args : List String) : m Ending :=
  match Call.ofArguments args with
  | .error .misuse => return .misused
  | .error (.version subcommand) => return .done (versionText subcommand)
  | .error .help => return .done helpText
  | .ok call => do
    match ← call.execute.run with
    | .ok text => return .done text
    | .error failure => return .failed failure

end BeamEnvelope.Command
