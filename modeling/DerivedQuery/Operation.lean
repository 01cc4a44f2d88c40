import DerivedQuery.Keyword
import DerivedQuery.Query
import DerivedQuery.TypeExpr

/-!
# Operations

The record a method compiles to. Every parameter slot holds the name of the
parameter bound there. Writes that are part of a Bulk or a Transaction have no
context parameter of their own.
-/

namespace DerivedQuery

/-- Whether an operation is about one document or many. -/
inductive Mode
  | one
  | many
  deriving DecidableEq, Repr

namespace Mode

/-- Both modes, in declaration order. -/
def all : List Mode :=
  [.one, .many]

/-- The keyword of a mode. -/
def keyword : Mode -> Keyword
  | .one => .one
  | .many => .many

/-- The name of a mode. -/
def name (mode : Mode) : String :=
  mode.keyword.text

end Mode

/-- Insertion of one document or of a list of documents. -/
structure Insert where
  method : String
  mode : Mode
  context : Option String
  /-- The parameter that holds what is inserted. -/
  document : String
  deriving DecidableEq, Repr

/-- The direction of a sort key. -/
inductive SortDirection
  | ascending
  | descending
  deriving DecidableEq, Repr

namespace SortDirection

/-- Both directions, in declaration order. -/
def all : List SortDirection :=
  [.ascending, .descending]

/-- The name of a direction. -/
def name : SortDirection -> String
  | .ascending => "Asc"
  | .descending => "Desc"

end SortDirection

/-- One key of a sort order. -/
structure SortField where
  key : String
  direction : SortDirection
  deriving DecidableEq, Repr

/-- A search, with what it projects to, its order and its paging. -/
structure Find where
  method : String
  mode : Mode
  context : String
  returnType : TypeExpr
  /-- Storage keys of the projected fields; none stands for the whole document. -/
  projection : List String
  /-- Sort keys in the order of the clause. -/
  sort : List SortField
  skip : Option String
  limit : Option String
  query : Query
  deriving DecidableEq, Repr

namespace Find

/-- The sort keys of one direction, in order. -/
def sortKeys (find : Find) (direction : SortDirection) : List String :=
  (find.sort.filter (·.direction == direction)).map SortField.key

end Find

/-- A stored field and the parameter written to it. -/
structure FieldBinding where
  /-- Dotted path of storage keys. -/
  field : String
  param : String
  deriving DecidableEq, Repr

/-- What an update writes. -/
inductive Payload
  /-- The whole entity held by a parameter. -/
  | document (param : String)
  /-- Single fields, each from a parameter of its own. -/
  | fields (bindings : List FieldBinding)
  deriving DecidableEq, Repr

/-- A change of stored documents. -/
structure Update where
  method : String
  mode : Mode
  context : Option String
  upsert : Bool
  payload : Payload
  query : Query
  deriving DecidableEq, Repr

/-- A removal of stored documents. -/
structure Delete where
  method : String
  mode : Mode
  context : Option String
  query : Query
  deriving DecidableEq, Repr

/-- A count of stored documents. -/
structure Count where
  method : String
  context : String
  query : Query
  deriving DecidableEq, Repr

/-- A write inside a Bulk. -/
inductive BulkStep
  | insert (record : Insert)
  | update (record : Update)
  | delete (record : Delete)
  deriving DecidableEq, Repr

namespace BulkStep

/-- The kind of a write inside a Bulk. -/
def kind : BulkStep -> OperationKind
  | .insert _ => .insert
  | .update _ => .update
  | .delete _ => .delete

/-- The mode of a write inside a Bulk. -/
def mode : BulkStep -> Mode
  | .insert record => record.mode
  | .update record => record.mode
  | .delete record => record.mode

end BulkStep

/-- An ordered batch of writes. -/
structure Bulk where
  method : String
  context : Option String
  steps : List BulkStep
  deriving DecidableEq, Repr

/-- A collection handle of a Transaction. -/
structure CollectionHandle where
  /-- How descriptors spell the handle. -/
  spelling : String
  param : String
  deriving DecidableEq, Repr

/-- The collection a step of a Transaction writes to. -/
inductive Resource
  /-- The collection of the repository itself. -/
  | primary
  /-- The collection passed as a parameter. -/
  | handle (param : String)
  deriving DecidableEq, Repr

/-- What a step of a Transaction does. -/
inductive TransactionAction
  | insert (record : Insert)
  | update (record : Update)
  | delete (record : Delete)
  | bulk (record : Bulk)
  deriving DecidableEq, Repr

namespace TransactionAction

/-- The kind of a step of a Transaction. -/
def kind : TransactionAction -> OperationKind
  | .insert _ => .insert
  | .update _ => .update
  | .delete _ => .delete
  | .bulk _ => .bulk

end TransactionAction

/-- One step of a Transaction. -/
structure TransactionStep where
  resource : Resource
  action : TransactionAction
  deriving DecidableEq, Repr

/-- Writes that take effect together. -/
structure Transaction where
  method : String
  context : String
  /-- The parameter that holds the client handle. -/
  client : String
  collections : List CollectionHandle
  steps : List TransactionStep
  deriving DecidableEq, Repr

/-- The compiled form of one method. -/
inductive Operation
  | insert (record : Insert)
  | find (record : Find)
  | update (record : Update)
  | delete (record : Delete)
  | count (record : Count)
  | transaction (record : Transaction)
  | bulk (record : Bulk)
  deriving DecidableEq, Repr

namespace Operation

/-- The kind of an operation. -/
def kind : Operation -> OperationKind
  | .insert _ => .insert
  | .find _ => .find
  | .update _ => .update
  | .delete _ => .delete
  | .count _ => .count
  | .transaction _ => .transaction
  | .bulk _ => .bulk

/-- The name of the method an operation was compiled from. -/
def method : Operation -> String
  | .insert record => record.method
  | .find record => record.method
  | .update record => record.method
  | .delete record => record.method
  | .count record => record.method
  | .transaction record => record.method
  | .bulk record => record.method

end Operation

end DerivedQuery
