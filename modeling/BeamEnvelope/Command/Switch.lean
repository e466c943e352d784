/-!
# Switches

The subcommands of the program and the switches that each of them knows.
-/

namespace BeamEnvelope.Command

inductive Key where
  | verbose | quiet | logFile | version | help
  | config | start | stop | trace | charge | restEnergy | kineticEnergy | output
  | format
deriving DecidableEq

structure Switch where
  key : Key
  short : Option Char := none
  long : String
  takesValue : Bool := true

def globalSwitches : List Switch := [
  { key := .verbose, short := some 'v', long := "verbose", takesValue := false },
  { key := .quiet, short := some 'q', long := "quiet", takesValue := false },
  { key := .logFile, long := "log-file" },
  { key := .version, short := some 'V', long := "version", takesValue := false },
  { key := .help, short := some 'h', long := "help", takesValue := false }]

def outputSwitch : Switch := { key := .output, short := some 'o', long := "output" }

inductive Subcommand where
  | run | parse | convert
deriving DecidableEq

namespace Subcommand

def name : Subcommand → String
  | run => "run"
  | parse => "parse"
  | convert => "convert"

def ofName? (s : String) : Option Subcommand := [run, parse, convert].find? fun c => c.name == s

def switches : Subcommand → List Switch
  | run => globalSwitches ++ [
      { key := .config, short := some 'c', long := "config" },
      { key := .start, long := "start" },
      { key := .stop, long := "end" },
      { key := .trace, long := "trace", takesValue := false },
      { key := .charge, long := "ion-z" },
      { key := .restEnergy, long := "ion-es" },
      { key := .kineticEnergy, long := "ion-ek" },
      outputSwitch]
  | parse => globalSwitches ++
      [{ key := .format, short := some 'f', long := "format" }, outputSwitch]
  | convert => globalSwitches ++ [outputSwitch]

end Subcommand

end BeamEnvelope.Command
