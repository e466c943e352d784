import BeamEnvelope.Command.Switch
import BeamEnvelope.Decimal.Reading

/-!
# Arguments

The command line has global switches, a subcommand, and the switches and the one operand of the
subcommand. Arguments count in their order: what comes first decides whether a call is refused or
answered with a version.
-/

namespace BeamEnvelope.Command

/-- What arguments turn out to be. An operand comes with the arguments behind it; a verbatim one
stands behind `--`. -/
inductive Item where
  | flag (key : Key)
  | value (key : Key) (text : String)
  | operand (text : String) (rest : List String)
  | verbatim (text : String)
  | malformed

/-- The items of short switches in one argument, and a switch among them that waits for its value in
the next one. -/
def cluster (switches : List Switch) : List Char → List Item × Option Key
  | [] => ([], none)
  | c :: rest =>
    match switches.find? fun s => s.short == some c with
    | none => ([.malformed], none)
    | some s =>
      if s.takesValue then
        match rest with
        | [] => ([], some s.key)
        | '=' :: text | text => ([.value s.key (String.ofList text)], none)
      else
        let (items, waiting) := cluster switches rest
        (.flag s.key :: items, waiting)

/-- The item of a long switch, or the switch if it waits for its value in the next argument. -/
def longSwitch (switches : List Switch) (cs : List Char) : List Item × Option Key :=
  let name := String.ofList (cs.takeWhile (· != '='))
  let attached := (cs.dropWhile (· != '=')).tail?
  match switches.find? fun s => s.long == name, attached with
  | none, _ => ([.malformed], none)
  | some s, some text =>
    if s.takesValue then ([.value s.key (String.ofList text)], none) else ([.malformed], none)
  | some s, none => if s.takesValue then ([], some s.key) else ([.flag s.key], none)

def switchItems (switches : List Switch) : List Char → List Item × Option Key
  | '-' :: '-' :: cs => longSwitch switches cs
  | cs => cluster switches cs.tail

/-- A single dash is an operand. -/
def isSwitch (arg : String) : Bool := arg.startsWith "-" && arg != "-"

def scan (switches : List Switch) : List String → List Item
  | [] => []
  | arg :: rest =>
    if arg = "--" then rest.map .verbatim
    else if isSwitch arg then
      match switchItems switches arg.toList, rest with
      | (items, none), rest => items ++ scan switches rest
      | (items, some _), [] => items ++ [.malformed]
      | (items, some key), text :: rest =>
        items ++ if isSwitch text then [.malformed] else .value key text :: scan switches rest
    else .operand arg rest :: scan switches rest

/-- Indices and counts are less than 2^64. -/
def index? (text : String) : Option Nat :=
  let digits := match text.toList with
    | '+' :: ds => ds
    | ds => ds
  if digits.isEmpty || !digits.all Char.isDigit then none
  else
    let n := Nat.ofDigitChars 10 digits 0
    if n < Nat.pow 2 64 then some n else none

inductive Format where
  | glps | toml
deriving DecidableEq

def Format.ofName? : String → Option Format
  | "glps" => some glps
  | "toml" => some toml
  | _ => none

def Key.admits (key : Key) (text : String) : Bool :=
  match key with
  | start | stop => (index? text).isSome
  | charge | restEnergy | kineticEnergy => (Decimal.read? text).isSome
  | format => (Format.ofName? text).isSome
  | _ => !text.isEmpty

namespace Item

def key? : Item → Option Key
  | flag key | value key _ => some key
  | _ => none

def operand? : Item → Option String
  | operand text _ | verbatim text => some text
  | _ => none

end Item

inductive Halt where
  | misuse
  | version (subcommand : Option Subcommand)
  | help
deriving DecidableEq

/-- Checks items one after another, with those before them at hand. All but `verbose` may be given
once. -/
def check (subcommand : Option Subcommand) : (before : List Item) → List Item → Except Halt Unit
  | _, [] => .ok ()
  | before, item :: rest =>
    let repeated := item.key? != some .verbose && before.any (·.key? == item.key?)
    match item with
    | .flag .version => .error (.version subcommand)
    | .flag .help => .error .help
    | .flag _ => if repeated then .error .misuse else check subcommand (item :: before) rest
    | .value key text =>
      if repeated || !key.admits text then .error .misuse
      else check subcommand (item :: before) rest
    | .operand text _ | .verbatim text =>
      if repeated || text.isEmpty then .error .misuse
      else check subcommand (item :: before) rest
    | .malformed => .error .misuse

structure Choices where
  items : List Item

namespace Choices

def has (c : Choices) (key : Key) : Bool := c.items.any (·.key? == some key)

def text? (c : Choices) (key : Key) : Option String :=
  c.items.findSome? fun
    | .value k text => if k = key then some text else none
    | _ => none

def number? (c : Choices) (key : Key) : Option Float := (c.text? key).bind Decimal.read?

def index? (c : Choices) (key : Key) : Option Nat := (c.text? key).bind Command.index?

def operand? (c : Choices) : Option String := c.items.findSome? Item.operand?

/-- A level that is quiet cannot be verbose. -/
def ofItems (subcommand : Option Subcommand) (items : List Item) : Except Halt Choices := do
  check subcommand [] items
  let c : Choices := ⟨items⟩
  if c.has .quiet && c.has .verbose then .error .misuse else .ok c

end Choices

structure RunOptions where
  lattice : String
  config : Option String := none
  start : Option Nat := none
  stop : Option Nat := none
  trace : Bool := false
  charge : Option Float := none
  restEnergy : Option Float := none
  kineticEnergy : Option Float := none
  output : Option String := none

inductive Task where
  | run (options : RunOptions)
  | parse (lattice : String) (format : Format) (output : Option String)
  | convert (input : String) (output : Option String)

def Task.ofChoices (c : Choices) (operand : String) : Subcommand → Task
  | .run => .run {
      lattice := operand
      config := c.text? .config
      start := c.index? .start
      stop := c.index? .stop
      trace := c.has .trace
      charge := c.number? .charge
      restEnergy := c.number? .restEnergy
      kineticEnergy := c.number? .kineticEnergy
      output := c.text? .output }
  | .parse =>
    .parse operand (((c.text? .format).bind Format.ofName?).getD .glps) (c.text? .output)
  | .convert => .convert operand (c.text? .output)

structure Call where
  logFile : Option String
  task : Task

/-- Help is given on the whole program or on one subcommand. -/
def helpHalt : List String → Halt
  | [] => .help
  | [name] => if name = "help" || (Subcommand.ofName? name).isSome then .help else .misuse
  | _ => .misuse

def isOperand : Item → Bool
  | .operand .. => true
  | _ => false

/-- Reads the arguments of a call. A log file behind the subcommand goes before one in front. -/
def Call.ofArguments (args : List String) : Except Halt Call := do
  let items := scan globalSwitches args
  let front := items.takeWhile (!isOperand ·)
  check none [] front
  let some (.operand name rest) := items.find? isOperand | .error .misuse
  if name = "help" then .error (helpHalt rest)
  let some subcommand := Subcommand.ofName? name | .error .misuse
  let inner ← Choices.ofItems (some subcommand) (scan subcommand.switches rest)
  let some operand := inner.operand? | .error .misuse
  let outer ← Choices.ofItems none front
  return {
    logFile := (inner.text? .logFile).or (outer.text? .logFile)
    task := .ofChoices inner operand subcommand }

end BeamEnvelope.Command
