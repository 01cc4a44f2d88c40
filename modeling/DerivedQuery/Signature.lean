import DerivedQuery.Config
import DerivedQuery.Fault
import DerivedQuery.Method

/-!
# Signatures

Each kind of operation asks for certain numbers and types of parameters and
results. The checks run in a fixed order and the first that fails decides.
Where the signature tells whether an operation is about one document or many,
the check yields the mode.
-/

namespace DerivedQuery
namespace Signature

/-- At least so many parameters. -/
def paramsAtLeast (method : Method) (least : Nat) : Except Cause Unit :=
  if method.params.length < least then .error (.fewParams least) else .ok ()

/-- Exactly two parameters. -/
def twoParams (method : Method) : Except Cause (Param × Param) :=
  match method.params with
  | [first, second] => .ok (first, second)
  | _ => .error (.paramCount 2)

/-- Exactly two results. -/
def twoReturns (method : Method) : Except Cause (TypeExpr × TypeExpr) :=
  match method.returns with
  | [first, second] => .ok (first, second)
  | _ => .error (.returnCount 2)

/-- Exactly one result. -/
def oneReturn (method : Method) : Except Cause TypeExpr :=
  match method.returns with
  | [only] => .ok only
  | _ => .error (.returnCount 1)

/-- The parameter at a position has the required type. -/
def paramIs (method : Method) (index : Nat) (required : TypeExpr) : Except Cause Unit :=
  if (method.params[index]?).map Param.type = some required then
    .ok ()
  else
    .error (.paramType index required)

/-- The result at a position has the required type. -/
def returnIs (index : Nat) (actual required : TypeExpr) : Except Cause Unit :=
  if actual = required then .ok () else .error (.returnType index required)

/-- The common part of most signatures: enough parameters, two results, the
context first and the error last. Yields the first result. -/
def standard (method : Method) (config : Config) (least : Nat) : Except Cause TypeExpr := do
  paramsAtLeast method least
  let (result, failure) ← twoReturns method
  paramIs method 0 config.contextType
  returnIs 1 failure config.errorType
  return result

/-- The mode of an Update or Delete is told by its first result. -/
def writeMode (config : Config) (result : TypeExpr) : Except Cause Mode :=
  if result = config.oneResult then .ok .one
  else if result = config.manyResult then .ok .many
  else .error (.writeResult config.oneResult config.manyResult)

/-- An Insert has a context and a document; a pointer is one document and a
slice many. Yields the mode and the type of the document. -/
def insert (method : Method) (config : Config) : Except Cause (Mode × TypeExpr) := do
  let (_, document) ← twoParams method
  let (result, failure) ← twoReturns method
  paramIs method 0 config.contextType
  returnIs 1 failure config.errorType
  if document.type.isPointer then
    if result = config.insertOneResult then
      return (.one, document.type)
    else
      throw (.insertResult config.insertOneResult)
  else if document.type.isSlice then
    if result = config.insertManyResult then
      return (.many, document.type)
    else
      throw (.insertResult config.insertManyResult)
  else
    throw .documentShape

/-- A Find returns a pointer to one document or a slice of many. Yields the
mode and the first result. -/
def find (method : Method) (config : Config) : Except Cause (Mode × TypeExpr) := do
  let result ← standard method config 1
  if result.isPointer then
    return (.one, result)
  else if result.isSlice then
    return (.many, result)
  else
    throw .resultShape

/-- An Update needs a parameter behind the context. -/
def update (method : Method) (config : Config) : Except Cause Mode := do
  let result ← standard method config 2
  writeMode config result

/-- A Delete needs no more than the context. -/
def delete (method : Method) (config : Config) : Except Cause Mode := do
  let result ← standard method config 1
  writeMode config result

/-- A Count returns a number. -/
def count (method : Method) (config : Config) : Except Cause Unit := do
  let result ← standard method config 1
  returnIs 0 result config.countResult

/-- A Bulk returns the result of a bulk write. -/
def bulk (method : Method) (config : Config) : Except Cause Unit := do
  let result ← standard method config 1
  returnIs 0 result config.bulkResult

/-- A Transaction takes the context and the client and returns an error only. -/
def transaction (method : Method) (config : Config) : Except Cause Unit := do
  paramsAtLeast method 2
  let only ← oneReturn method
  paramIs method 0 config.contextType
  paramIs method 1 config.clientType
  if only = config.errorType then
    return ()
  else
    throw (.onlyReturn config.errorType)

end Signature
end DerivedQuery
