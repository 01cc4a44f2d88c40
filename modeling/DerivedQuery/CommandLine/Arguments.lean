import DerivedQuery.Config

/-!
# Command line arguments

The program has three commands:

* `tokens DESCRIPTOR`
* `parse FILE [--pretty] [--config FILE] [--strategy NAME]`
* `check PATH... [--config FILE] [--strategy NAME]`

Switches have a long and a short form and may stand anywhere behind the
command, each at most once. Short forms can be joined, and a value may be
attached to its switch. Behind `--` everything is an operand. `--verbose` is
also taken in front of the command.

Arguments are judged from left to right, so help is given only if nothing in
front of the request is wrong. `help` as a command may be followed by the name
of a command and by nothing else.
-/

namespace DerivedQuery

namespace CommandLine

/-- Where the configuration comes from. -/
structure Target where
  /-- The file of the configuration, if it is not the standard one. -/
  config : Option String
  /-- The split strategy that replaces the configured one. -/
  strategy : Option SplitStrategy
  deriving DecidableEq, Repr

/-- What the program is asked to do. -/
inductive Command
  /-- Show how a descriptor is cut into words. -/
  | tokens (descriptor : String)
  /-- Compile a file and write the results. -/
  | parse (file : String) (pretty : Bool) (target : Target)
  /-- Compile files and report the methods that fail. -/
  | check (paths : List String) (target : Target)
  deriving DecidableEq, Repr

/-- Why arguments name no command. -/
inductive Refusal
  /-- Help is asked for. -/
  | help
  /-- The arguments do not follow the rules. -/
  | usage
  deriving DecidableEq, Repr

/-- The switches. -/
inductive Switch
  | help
  | verbose
  | pretty
  | config
  | strategy
  deriving DecidableEq, Repr

namespace Switch

/-- The long form of a switch, without its hyphens. -/
def long : Switch -> String
  | .help => "help"
  | .verbose => "verbose"
  | .pretty => "pretty"
  | .config => "config"
  | .strategy => "strategy"

/-- The short form of a switch, without its hyphen. -/
def short : Switch -> Char
  | .help => 'h'
  | .verbose => 'v'
  | .pretty => 'p'
  | .config => 'c'
  | .strategy => 's'

/-- Whether a value belongs to a switch. -/
def takesValue : Switch -> Bool
  | .config | .strategy => true
  | .help | .verbose | .pretty => false

end Switch

/-- What may follow a command. -/
structure Form where
  switches : List Switch
  /-- The greatest number of operands, if there is one. -/
  most : Option Nat
  /-- Whether an operand may be empty. -/
  takesEmpty : Bool
  deriving DecidableEq, Repr

namespace Form

/-- What may stand in front of the command. -/
def leading : Form :=
  ⟨[.help, .verbose], some 0, false⟩

/-- The form of a `tokens` command. -/
def tokens : Form :=
  ⟨[.help, .verbose], some 1, true⟩

/-- The form of a `parse` command. -/
def parse : Form :=
  ⟨[.help, .verbose, .pretty, .config, .strategy], some 1, false⟩

/-- The form of a `check` command. -/
def check : Form :=
  ⟨[.help, .verbose, .config, .strategy], none, false⟩

/-- Whether an operand may follow a number of others. -/
def admits (form : Form) (count : Nat) (operand : String) : Bool :=
  form.most.all (count < ·) && (form.takesEmpty || !operand.isEmpty)

end Form

/-- What the arguments read so far have given. -/
structure Given where
  verbose : Bool := false
  pretty : Bool := false
  config : Option String := none
  strategy : Option SplitStrategy := none
  operands : List String := []
  deriving DecidableEq, Repr

namespace Given

/-- Take a switch that has no value. -/
def addFlag (given : Given) : Switch -> Except Refusal Given
  | .help => .error .help
  | .verbose => if given.verbose then .error .usage else .ok { given with verbose := true }
  | .pretty => if given.pretty then .error .usage else .ok { given with pretty := true }
  | .config | .strategy => .error .usage

/-- Take a switch with its value. -/
def addValue (given : Given) (value : String) : Switch -> Except Refusal Given
  | .config =>
      if given.config.isSome || value.isEmpty then
        .error .usage
      else
        .ok { given with config := some value }
  | .strategy =>
      match given.strategy, SplitStrategy.ofName? value with
      | none, some strategy => .ok { given with strategy := some strategy }
      | _, _ => .error .usage
  | .help | .verbose | .pretty => .error .usage

/-- Take an operand. -/
def addOperand (given : Given) (form : Form) (operand : String) : Except Refusal Given :=
  if form.admits given.operands.length operand then
    .ok { given with operands := given.operands ++ [operand] }
  else
    .error .usage

/-- The configuration that has been given. -/
def target (given : Given) : Target :=
  ⟨given.config, given.strategy⟩

end Given

/-- A position between two arguments. -/
structure Scan where
  given : Given
  /-- The switch whose value comes next. -/
  pending : Option Switch := none
  /-- Whether only operands follow. -/
  operandsOnly : Bool := false
  deriving DecidableEq, Repr

namespace Scan

/-- Read joined short switches. The first that takes a value takes all that
follows it, or else the next argument. -/
def readShort (allowed : List Switch) (given : Given) : List Char -> Except Refusal Scan
  | [] => .ok { given := given }
  | char :: rest =>
      match allowed.find? (·.short == char) with
      | none => .error .usage
      | some switch =>
          if switch.takesValue then
            match rest with
            | [] => .ok { given := given, pending := some switch }
            | '=' :: value =>
                (given.addValue (String.ofList value) switch).map fun after =>
                  { given := after }
            | value =>
                (given.addValue (String.ofList value) switch).map fun after =>
                  { given := after }
          else
            match given.addFlag switch with
            | .error refusal => .error refusal
            | .ok after => readShort allowed after rest

/-- Read a long switch behind its hyphens. -/
def readLong (allowed : List Switch) (given : Given) (text : List Char) :
    Except Refusal Scan :=
  let name := String.ofList (text.takeWhile (· != '='))
  match allowed.find? (·.long == name), text.dropWhile (· != '=') with
  | none, _ => .error .usage
  | some switch, [] =>
      if switch.takesValue then
        .ok { given := given, pending := some switch }
      else
        (given.addFlag switch).map fun after => { given := after }
  | some switch, _ :: value =>
      (given.addValue (String.ofList value) switch).map fun after => { given := after }

/-- Read one argument. -/
def step (form : Form) (scan : Scan) (argument : String) : Except Refusal Scan :=
  if scan.operandsOnly then
    (scan.given.addOperand form argument).map fun after => { scan with given := after }
  else
    match scan.pending, argument.toList with
    | some switch, ['-'] =>
        (scan.given.addValue argument switch).map fun after => { given := after }
    | some _, '-' :: _ => .error .usage
    | some switch, _ =>
        (scan.given.addValue argument switch).map fun after => { given := after }
    | none, ['-', '-'] => .ok { scan with operandsOnly := true }
    | none, '-' :: '-' :: text => readLong form.switches scan.given text
    | none, '-' :: char :: text => readShort form.switches scan.given (char :: text)
    | none, _ =>
        (scan.given.addOperand form argument).map fun after => { given := after }

end Scan

namespace Given

/-- Read the arguments behind a command. -/
def read (form : Form) (arguments : List String) : Except Refusal Given :=
  match arguments.foldlM (Scan.step form) { given := {} } with
  | .error refusal => .error refusal
  | .ok scan => if scan.pending.isSome then .error .usage else .ok scan.given

end Given

namespace Command

/-- Read a `tokens` command. -/
def readTokens (arguments : List String) : Except Refusal Command :=
  match Given.read Form.tokens arguments with
  | .error refusal => .error refusal
  | .ok given =>
      match given.operands with
      | [descriptor] => .ok (.tokens descriptor)
      | _ => .error .usage

/-- Read a `parse` command. -/
def readParse (arguments : List String) : Except Refusal Command :=
  match Given.read Form.parse arguments with
  | .error refusal => .error refusal
  | .ok given =>
      match given.operands with
      | [file] => .ok (.parse file given.pretty given.target)
      | _ => .error .usage

/-- Read a `check` command. -/
def readCheck (arguments : List String) : Except Refusal Command :=
  (Given.read Form.check arguments).map fun given => .check given.operands given.target

/-- The names that help can be asked about. -/
def topics : List String :=
  ["tokens", "parse", "check", "help"]

/-- Read the arguments behind `help`. -/
def readHelp : List String -> Refusal
  | [] => .help
  | [topic] => if topics.contains topic then .help else .usage
  | _ => .usage

/-- Read arguments, given what stands in front of the command. -/
def readBehind (given : Given) : List String -> Except Refusal Command
  | [] => .error .usage
  | argument :: rest =>
      if argument = "tokens" then readTokens rest
      else if argument = "parse" then readParse rest
      else if argument = "check" then readCheck rest
      else if argument = "help" then .error (readHelp rest)
      else
        match Scan.step Form.leading { given := given } argument with
        | .error refusal => .error refusal
        | .ok scan => if scan.operandsOnly then .error .usage else readBehind scan.given rest

/-- Read the arguments of the program. -/
def read (arguments : List String) : Except Refusal Command :=
  readBehind {} arguments

end Command

end CommandLine

end DerivedQuery
