import DerivedQuery.Schema

/-!
# Repository methods

A method has a name, a descriptor that says what it does, typed parameters and
result types. An interface collects the methods of one entity, and an
interface file collects interfaces.
-/

namespace DerivedQuery

/-- A named and typed parameter. -/
structure Param where
  name : String
  type : TypeExpr
  deriving DecidableEq, Repr

/-- One annotated repository method. -/
structure Method where
  name : String
  descriptor : String
  params : List Param
  returns : List TypeExpr
  deriving DecidableEq, Repr

/-- A repository interface: the entity it stores and its methods. -/
structure Interface where
  name : String
  schema : Schema
  methods : List Method
  deriving Repr

/-- The interfaces handed over in one document. -/
structure InterfaceFile where
  interfaces : List Interface
  deriving Repr

end DerivedQuery
