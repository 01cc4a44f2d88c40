import DerivedQuery.Binding
import DerivedQuery.Config

/-!
# Scopes

What every reader of a descriptor may look at while it compiles one method,
and the small rules that the grammars of several operations share.
-/

namespace DerivedQuery

/-- The fixed inputs of the compilation of one method. -/
structure Scope where
  method : Method
  schema : Schema
  config : Config

/-- How a write is asked for. -/
inductive Invocation
  /-- As the operation of the method: its signature is checked, and every
  parameter must be bound. -/
  | standalone
  /-- As a step of a Bulk or Transaction: a word tells the mode, and only the
  parameters of the step are bound. -/
  | nested
  deriving DecidableEq, Repr

namespace Scope

/-- The fault of words that have no place in the grammar. -/
def unexpected (run : List Word) (place : String) : Fault :=
  Fault.on (.unexpectedWords (Word.texts run) place) run

/-- Take the mode word off the front of a nested operation. -/
def nestedMode (run : List Word) (operation : Keyword) : Except Fault (Mode × List Word) :=
  match run with
  | [] => .error (Fault.on (.missingMode operation) run)
  | word :: rest =>
      if word.is .one then .ok (.one, rest)
      else if word.is .many then .ok (.many, rest)
      else .error (Fault.on (.missingMode operation) run)

/-- Whether a word starts the query of an operation. -/
def startsQuery (word : Word) : Bool :=
  word.is .byQuery || word.is .allQuery

/-- Divide a run in front of its first `By` or `All`. -/
def splitAtQuery (run : List Word) : Except Fault (List Word × List Word) :=
  match run.dropWhile (!startsQuery ·) with
  | [] => .error (Fault.on .missingQuery run)
  | query => .ok (run.takeWhile (!startsQuery ·), query)

end Scope

end DerivedQuery
