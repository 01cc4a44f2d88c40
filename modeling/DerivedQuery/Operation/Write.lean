import DerivedQuery.Query.Reader
import DerivedQuery.Signature

/-!
# Reading single writes

Grammar of the words behind `Insert`, `Update` and `Delete`, as the operation
of a method or as a step of a batch:

* `Insert [One | Many]`
* `Update [Upsert] [fields] (By ... | All)`
* `Delete (By ... | All)`

A step of a batch starts with its mode.
-/

namespace DerivedQuery

namespace Insert

/-- The mode written behind a standalone Insert, if any is written. -/
def writtenMode? (run : List Word) : Except Fault (Option Mode) :=
  match run with
  | [] => .ok none
  | [word] =>
      if word.is .one then .ok (some .one)
      else if word.is .many then .ok (some .many)
      else .error (Scope.unexpected run "after Insert, expected One or Many")
  | _ => .error (Scope.unexpected run "after Insert, expected One or Many")

/-- A written mode must agree with the mode of the signature. -/
def checkWritten (mode : Mode) (documentType : TypeExpr) (run : List Word) :
    Option Mode -> Binding Unit
  | none => pure ()
  | some written =>
      if written = mode then
        pure ()
      else
        Binding.refuse (.insertModeType written documentType) run

/-- Read an Insert as the operation of a method. The mode comes from the
signature. -/
def readStandalone (scope : Scope) (run : List Word) : Binding Insert := do
  let (mode, documentType) ← Binding.ofCheck (Signature.insert scope.method scope.config)
  let written? ← Binding.ofResult (writtenMode? run)
  checkWritten mode documentType run written?
  let context ← Binding.takeContext
  let document ← Binding.takeParam run
  Binding.ensureExhausted
  return ⟨scope.method.name, mode, some context, document.name⟩

/-- Whether a document type fits a mode: a pointer for one, a slice for many. -/
def fitsMode (mode : Mode) (type : TypeExpr) : Bool :=
  match mode with
  | .one => type.isPointer
  | .many => type.isSlice

/-- Read an Insert as a step of a batch. -/
def readNested (scope : Scope) (run : List Word) : Binding Insert := do
  let (mode, rest) ← Binding.ofResult (Scope.nestedMode run .insert)
  if rest.isEmpty then
    let document ← Binding.takeParam run
    if fitsMode mode document.type then
      return ⟨scope.method.name, mode, none, document.name⟩
    else
      Binding.refuse (.insertShape mode document.name document.type) run
  else
    throw (Scope.unexpected rest "after Insert")

/-- Read the words behind `Insert`. -/
def read (scope : Scope) (run : List Word) : Invocation -> Binding Insert
  | .standalone => readStandalone scope run
  | .nested => readNested scope run

end Insert

namespace Scope

/-- The opening of an Update or Delete. As the operation of a method it takes
its mode from the signature and binds the context; as a step it starts with
its mode. Yields the mode, the context and the words that follow. -/
def openWrite
    (operation : Keyword)
    (signature : Except Cause Mode)
    (run : List Word) :
    Invocation -> Binding (Mode × Option String × List Word)
  | .standalone => do
      let mode ← Binding.ofCheck signature
      let context ← Binding.takeContext
      return (mode, some context, run)
  | .nested => do
      let (mode, rest) ← Binding.ofResult (nestedMode run operation)
      if rest.isEmpty then
        Binding.refuse (.emptyStep operation mode) run
      else
        return (mode, none, rest)

/-- The end of an Update or Delete: no parameter may be left over unless it
is a step. -/
def closeWrite : Invocation -> Binding Unit
  | .standalone => Binding.ensureExhausted
  | .nested => pure ()

end Scope

namespace Payload

/-- Bind the whole entity: a pointer to a packaged type with the name of the
schema. -/
def readEntity (scope : Scope) (run : List Word) : Binding Payload := do
  let param ← Binding.takeParam run
  match param.type with
  | .pointer (.selector _ name) =>
      if name = scope.schema.name then
        return .document param.name
      else
        Binding.refuse (.entityMismatch scope.schema.name param.type param.name) run
  | .pointer _ =>
      Binding.refuse (.entityMismatch scope.schema.name param.type param.name) run
  | _ => Binding.refuse (.entityNotPointer param.type param.name) run

/-- Bind one parameter for each field path, each of the type of its field. -/
def bindFields (run : List Word) : List FieldPath -> Binding (List FieldBinding)
  | [] => pure []
  | path :: rest => do
      let names ← Binding.takeNames path.type 1 run
      let others ← bindFields run rest
      return names.map (FieldBinding.mk path.key) ++ others

/-- Read the fields of an Update. -/
def readFields (scope : Scope) (run : List Word) : Binding Payload := do
  let paths ← Binding.ofResult
    ((FieldPath.resolveAll scope.schema run).mapError ResolveError.fault)
  let bindings ← bindFields run paths
  return .fields bindings

/-- Read what an Update with the words `body` writes: the fields it names, or
the whole entity if it names none. -/
def read (scope : Scope) (body fields : List Word) : Binding Payload :=
  if fields.isEmpty then
    readEntity scope body
  else
    readFields scope fields

end Payload

namespace Update

/-- Take a leading `Upsert` off a run. -/
def splitUpsert : List Word -> Bool × List Word
  | [] => (false, [])
  | first :: rest => if first.is .upsert then (true, rest) else (false, first :: rest)

/-- Read the words behind `Update`. -/
def read (scope : Scope) (run : List Word) (invocation : Invocation) : Binding Update := do
  let (mode, context, body) ←
    Scope.openWrite .update (Signature.update scope.method scope.config) run invocation
  let (front, queryRun) ← Binding.ofResult (Scope.splitAtQuery body)
  let (upsert, fields) := splitUpsert front
  let payload ← Payload.read scope body fields
  let query ← Query.read scope queryRun
  Scope.closeWrite invocation
  return ⟨scope.method.name, mode, context, upsert, payload, query⟩

end Update

namespace Scope

/-- Read a query with nothing in front of it. -/
def readBareQuery (scope : Scope) (run : List Word) : Binding Query := do
  let (front, queryRun) ← Binding.ofResult (splitAtQuery run)
  if front.isEmpty then
    Query.read scope queryRun
  else
    throw (unexpected front "before By or All")

end Scope

namespace Delete

/-- Read the words behind `Delete`. -/
def read (scope : Scope) (run : List Word) (invocation : Invocation) : Binding Delete := do
  let (mode, context, body) ←
    Scope.openWrite .delete (Signature.delete scope.method scope.config) run invocation
  let query ← Scope.readBareQuery scope body
  Scope.closeWrite invocation
  return ⟨scope.method.name, mode, context, query⟩

end Delete

end DerivedQuery
