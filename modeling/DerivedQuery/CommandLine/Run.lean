import DerivedQuery.Codec.Document
import DerivedQuery.CommandLine.Arguments
import DerivedQuery.CommandLine.FileTree
import DerivedQuery.Config.Codec
import DerivedQuery.Json.Printer
import DerivedQuery.Method.Codec
import DerivedQuery.Report

/-!
# Running commands

What a command writes and which exit code it ends with, as a function of its
arguments and the files.
-/

namespace DerivedQuery

namespace CommandLine

/-- What a command tells about its inputs, apart from its output. -/
inductive Notice
  | unreadableFile (path : String)
  | invalidConfig (path : String) (error : DocumentError)
  | invalidFile (path : String) (error : DocumentError)
  | failedMethod (error : MethodError)
  | failedInterface (path name : String) (failed total : Nat)
  deriving DecidableEq, Repr

namespace Notice

/-- The text of a notice. -/
def render : Notice -> String
  | .unreadableFile path => "Error reading " ++ path ++ ": not a readable text file"
  | .invalidConfig path error => "Invalid config " ++ path ++ ": " ++ error.message
  | .invalidFile path error => "Invalid interface file " ++ path ++ ": " ++ error.message
  | .failedMethod error => "[" ++ error.kind.code ++ "] Error: " ++ error.display
  | .failedInterface path name failed total =>
      "✗ " ++ path ++ " - " ++ name ++ ": " ++ failed.repr ++ " of " ++ total.repr ++
        " methods failed"

end Notice

/-- How a command ends. -/
structure Outcome where
  exitCode : Nat := 0
  output : String := ""
  notices : List Notice := []
  deriving DecidableEq, Repr

namespace Outcome

/-- One outcome after another, which fails if either does. -/
def append (first second : Outcome) : Outcome where
  exitCode := max first.exitCode second.exitCode
  output := first.output ++ second.output
  notices := first.notices ++ second.notices

/-- Outcomes one after another. -/
def concat (outcomes : List Outcome) : Outcome :=
  outcomes.foldr append {}

/-- The failure that a notice tells of. -/
def failure (notice : Notice) : Outcome where
  exitCode := 1
  notices := [notice]

end Outcome

/-- A text filled up with blanks to a least number of characters. -/
def padded (width : Nat) (text : String) : String :=
  text ++ String.ofList (List.replicate (width - text.length) ' ')

/-- A line of the `tokens` command. -/
def wordLine (word : Word) : String :=
  padded 16 word.text ++ " " ++ word.span.start.repr ++ ".." ++ word.span.stop.repr ++ "\n"

/-- Run the `tokens` command. -/
def runTokens (descriptor : String) : Outcome where
  output := String.join ((Word.segment descriptor).map wordLine)

/-- Read a configuration. -/
def readConfig (files : FileSystem) : Option String -> Except Notice Config
  | none => .ok Config.standard
  | some path =>
      match (files path).bind FileTree.text? with
      | none => .error (.unreadableFile path)
      | some text => (Config.codec.ofText text).mapError (.invalidConfig path)

/-- The configuration of a command. -/
def loadConfig (files : FileSystem) (target : Target) : Except Notice Config :=
  (readConfig files target.config).map fun config =>
    match target.strategy with
    | none => config
    | some strategy => config.withSplitStrategy strategy

/-- Read the interfaces of an input. -/
def readInput (input : Input) : Except Notice InterfaceFile :=
  match input.text? with
  | none => .error (.unreadableFile input.path)
  | some text => (InterfaceFile.codec.ofText text).mapError (.invalidFile input.path)

/-- Notices about the methods of an interface that failed. -/
def methodNotices (compiled : CompiledInterface) : List Notice :=
  compiled.errors.map .failedMethod

/-- The exit code of a command that compiled an interface. -/
def exitCodeOf (compiled : CompiledInterface) : Nat :=
  if compiled.isOk then 0 else 1

/-- Write the results of a file. -/
def parseFile (config : Config) (layout : Json.Layout) (file : InterfaceFile) : Outcome :=
  let compiled := file.compile config
  let reports := compiled.map fun interface =>
    { exitCode := exitCodeOf interface, notices := methodNotices interface }
  let results := Json.array (compiled.map CompiledInterface.toJson)
  (Outcome.concat reports).append { output := results.render layout ++ "\n" }

/-- Run the `parse` command. -/
def runParse (files : FileSystem) (path : String) (pretty : Bool) (target : Target) : Outcome :=
  match loadConfig files target with
  | .error notice => .failure notice
  | .ok config =>
      match readInput ⟨path, files path⟩ with
      | .error notice => .failure notice
      | .ok file => parseFile config (if pretty then .pretty else .compact) file

/-- Tell whether the methods of an interface compile. -/
def checkInterface (config : Config) (path : String) (interface : Interface) : Outcome :=
  let compiled := interface.compile config
  let total := compiled.results.length
  if compiled.isOk then
    { output := "✓ " ++ path ++ " - " ++ interface.name ++ ": " ++ total.repr ++ " methods\n" }
  else
    { exitCode := 1
      notices := methodNotices compiled ++
        [.failedInterface path interface.name compiled.errors.length total] }

/-- Tell whether the methods of an input compile. -/
def checkInput (config : Config) (input : Input) : Outcome :=
  match readInput input with
  | .error notice => .failure notice
  | .ok file => .concat (file.interfaces.map (checkInterface config input.path))

/-- Run the `check` command. -/
def runCheck (files : FileSystem) (paths : List String) (target : Target) : Outcome :=
  match loadConfig files target with
  | .error notice => .failure notice
  | .ok config => .concat ((Input.ofPaths files paths).map (checkInput config))

/-- Run a command. -/
def Command.run (files : FileSystem) : Command -> Outcome
  | .tokens descriptor => runTokens descriptor
  | .parse file pretty target => runParse files file pretty target
  | .check paths target => runCheck files paths target

/-- The summary that is shown on request. -/
def helpText : String :=
  "Commands:\n" ++
    "  tokens DESCRIPTOR\n" ++
    "  parse FILE [-p|--pretty] [-c|--config FILE] [-s|--strategy legacy|nested]\n" ++
    "  check PATH... [-c|--config FILE] [-s|--strategy legacy|nested]\n"

/-- How a refusal ends. -/
def Refusal.outcome : Refusal -> Outcome
  | .help => { output := helpText }
  | .usage => { exitCode := 2 }

/-- Run the program. -/
def run (files : FileSystem) (arguments : List String) : Outcome :=
  match Command.read arguments with
  | .error refusal => refusal.outcome
  | .ok command => command.run files

end CommandLine

end DerivedQuery
