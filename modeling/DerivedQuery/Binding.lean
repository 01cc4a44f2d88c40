import DerivedQuery.Fault
import DerivedQuery.Method

/-!
# Binding parameters

Readers of descriptors bind method parameters strictly from the left. Their
state is the list of parameters not bound yet; it is kept when a reader fails,
so what a failed reader has bound stays visible.
-/

namespace DerivedQuery

/-- A reader that binds parameters from the left and may fail. -/
abbrev Binding := ExceptT Fault (StateM (List Param))

namespace Binding

/-- Run a reader on the parameters not bound yet. -/
def start {α : Type} (binding : Binding α) (params : List Param) :
    Except Fault α × List Param :=
  binding.run.run params

/-- Fail about a run of words. -/
def refuse {α : Type} (cause : Cause) (run : List Word) : Binding α :=
  throw (Fault.on cause run)

/-- A result that binds no parameters. -/
def ofResult {α : Type} : Except Fault α -> Binding α
  | .ok value => pure value
  | .error fault => throw fault

/-- The result of a check that is about no particular words. -/
def ofCheck {α : Type} : Except Cause α -> Binding α
  | .ok value => pure value
  | .error cause => throw (Fault.overall cause)

/-- The next parameters, or nothing if fewer are left. -/
def takeParams (count : Nat) (params : List Param) : Option (List Param) × List Param :=
  if count ≤ params.length then
    (some (params.take count), params.drop count)
  else
    (none, params)

/-- Bind the context parameter. -/
def takeContext : Binding String :=
  ExceptT.mk fun
    | [] => (.error (Fault.overall (.fewParams 1)), [])
    | param :: rest => (.ok param.name, rest)

/-- Bind one parameter on behalf of a run. -/
def takeParam (run : List Word) : Binding Param :=
  ExceptT.mk fun
    | [] => (.error (Fault.on .missingParams run), [])
    | param :: rest => (.ok param, rest)

/-- The names of parameters that must all have one type. -/
def namesOfType (required : TypeExpr) (run : List Word) :
    List Param -> Except Fault (List String)
  | [] => .ok []
  | param :: rest =>
      if param.type = required then
        (namesOfType required run rest).map (param.name :: ·)
      else
        .error (Fault.on (.fieldType param.type param.name required) run)

/-- Bind parameters that must all have one type, on behalf of a run. They are
bound also when one of them has another type. -/
def takeNames (required : TypeExpr) (count : Nat) (run : List Word) :
    Binding (List String) :=
  ExceptT.mk fun params =>
    match takeParams count params with
    | (none, rest) => (.error (Fault.on .missingParams run), rest)
    | (some taken, rest) => (namesOfType required run taken, rest)

/-- Fail if parameters are left over. -/
def ensureExhausted : Binding Unit :=
  ExceptT.mk fun
    | [] => (.ok (), [])
    | param :: rest => (.error (Fault.overall (.unusedParams param.name)), param :: rest)

/-- Bind the longest row of parameters of one type. -/
def takeWhileType (type : TypeExpr) : Binding (List Param) :=
  ExceptT.mk fun params =>
    (.ok (params.takeWhile (·.type == type)), params.dropWhile (·.type == type))

end Binding

end DerivedQuery
