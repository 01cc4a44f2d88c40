import DerivedQuery.Operation.Batch
import DerivedQuery.Operation.Search
import DerivedQuery.Word.Segmentation

/-!
# Compiling methods

A descriptor is cut into words, its first word tells the kind of operation,
and the grammar of that kind reads the rest. Methods are independent of each
other, so a method that fails does not affect the others of its interface.
-/

namespace DerivedQuery

namespace Operation

/-- Read an operation of a given kind from the words behind its keyword. -/
def readKind (scope : Scope) (run : List Word) : OperationKind -> Binding Operation
  | .insert => return .insert (← Insert.read scope run .standalone)
  | .find => return .find (← Find.read scope run)
  | .update => return .update (← Update.read scope run .standalone)
  | .delete => return .delete (← Delete.read scope run .standalone)
  | .count => return .count (← Count.read scope run)
  | .transaction => return .transaction (← Transaction.read scope run)
  | .bulk => return .bulk (← Bulk.read scope run .standalone)

/-- Read the words of a whole descriptor. -/
def read (scope : Scope) : List Word -> Binding Operation
  | [] => throw (Fault.overall .emptyDescriptor)
  | first :: rest =>
      match OperationKind.ofName? first.text with
      | none => Binding.refuse .unknownOperation [first]
      | some kind => readKind scope rest kind

end Operation

namespace Scope

/-- Run a reader on parameters and name the method in its error. -/
def start {α : Type} (scope : Scope) (binding : Binding α) (params : List Param) :
    Except MethodError α × List Param :=
  let (result, rest) := binding.start params
  (result.mapError (MethodError.mk scope.method.name), rest)

end Scope

namespace Method

/-- Compile a method against the schema of its entity. -/
def compile (method : Method) (schema : Schema) (config : Config) :
    Except MethodError Operation :=
  let scope : Scope := ⟨method, schema, config⟩
  (scope.start (Operation.read scope (Word.segment method.descriptor)) method.params).1

end Method

/-- The results of an interface, one for each method in declaration order. -/
structure CompiledInterface where
  name : String
  results : List (Except MethodError Operation)

namespace CompiledInterface

/-- The operations of the methods that compiled. -/
def operations (compiled : CompiledInterface) : List Operation :=
  compiled.results.filterMap Except.toOption

/-- The error of a result, if it is one. -/
def error? : Except MethodError Operation -> Option MethodError
  | .ok _ => none
  | .error error => some error

/-- The errors of the methods that did not compile. -/
def errors (compiled : CompiledInterface) : List MethodError :=
  compiled.results.filterMap error?

/-- Whether every method compiled. -/
def isOk (compiled : CompiledInterface) : Bool :=
  compiled.results.all Except.isOk

end CompiledInterface

namespace Interface

/-- Compile every method of an interface. -/
def compile (interface : Interface) (config : Config) : CompiledInterface :=
  ⟨interface.name, interface.methods.map (·.compile interface.schema config)⟩

end Interface

namespace InterfaceFile

/-- Compile every interface of a file. -/
def compile (file : InterfaceFile) (config : Config) : List CompiledInterface :=
  file.interfaces.map (·.compile config)

end InterfaceFile

end DerivedQuery
