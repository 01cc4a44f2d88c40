import DerivedQuery.TypeExpr

/-!
# Target configuration

Signatures are compared with the surface types of the database driver that
generated code will call. The defaults name the types of a Go MongoDB driver.
-/

namespace DerivedQuery

/-- How a query run picks the connective it is divided at. -/
inductive SplitStrategy
  /-- The first connective at bracket depth 0 or 1; at depth 1 the words at
  both ends of the run are taken for its brackets and dropped. -/
  | legacy
  /-- Brackets around the whole run are removed, then the first connective
  outside every bracket is taken. -/
  | nested
  deriving DecidableEq, Repr

namespace SplitStrategy

/-- All strategies, in declaration order. -/
def all : List SplitStrategy :=
  [.legacy, .nested]

/-- The name of a strategy in configurations and arguments. -/
def name : SplitStrategy -> String
  | .legacy => "legacy"
  | .nested => "nested"

/-- The strategy with a given name. -/
def ofName? (name : String) : Option SplitStrategy :=
  all.find? (·.name == name)

end SplitStrategy

/-- Surface types and grammar switches for one compilation. -/
structure Config where
  /-- First parameter of every method. -/
  contextType : TypeExpr := .selector "context" "Context"
  errorType : TypeExpr := .ident "error"
  /-- Second parameter of a Transaction. -/
  clientType : TypeExpr := .pointer (.selector "mongo" "Client")
  /-- Further collection handles of a Transaction. -/
  collectionType : TypeExpr := .pointer (.selector "mongo" "Collection")
  bulkResult : TypeExpr := .pointer (.selector "mongo" "BulkWriteResult")
  insertOneResult : TypeExpr := .emptyInterface
  insertManyResult : TypeExpr := .slice .emptyInterface
  /-- Update and Delete result that selects One mode. -/
  oneResult : TypeExpr := .ident "bool"
  /-- Update and Delete result that selects Many mode. -/
  manyResult : TypeExpr := .ident "int"
  countResult : TypeExpr := .ident "int"
  /-- Type of Skip and Limit parameters. -/
  pagingType : TypeExpr := .ident "int64"
  splitStrategy : SplitStrategy := .legacy
  deriving DecidableEq, Repr

namespace Config

/-- The configuration with every setting at its default. -/
def standard : Config := {}

/-- Replace the split strategy. -/
def withSplitStrategy (config : Config) (strategy : SplitStrategy) : Config :=
  { config with splitStrategy := strategy }

end Config

end DerivedQuery
