/-!
# Queries

A query either selects everything or carries a binary tree of `And` and `Or`
over conditions. A condition applies a comparator to a stored field and names
the method parameters it compares with.
-/

namespace DerivedQuery

/-- The predicates a condition can state. -/
inductive Comparator
  | equal
  | notEqual
  | lessThan
  | lessThanEqual
  | greaterThan
  | greaterThanEqual
  | between
  | notBetween
  | within
  | notWithin
  | isTrue
  | isFalse
  | present
  | absent
  deriving DecidableEq, Repr

namespace Comparator

/-- All comparators, in declaration order. -/
def all : List Comparator :=
  [.equal, .notEqual, .lessThan, .lessThanEqual, .greaterThan, .greaterThanEqual,
    .between, .notBetween, .within, .notWithin, .isTrue, .isFalse, .present, .absent]

/-- The name of a comparator, which is also its phrase without spaces. -/
def name : Comparator -> String
  | .equal => "Equal"
  | .notEqual => "NotEqual"
  | .lessThan => "LessThan"
  | .lessThanEqual => "LessThanEqual"
  | .greaterThan => "GreaterThan"
  | .greaterThanEqual => "GreaterThanEqual"
  | .between => "Between"
  | .notBetween => "NotBetween"
  | .within => "In"
  | .notWithin => "NotIn"
  | .isTrue => "True"
  | .isFalse => "False"
  | .present => "Exists"
  | .absent => "NotExists"

/-- Number of method parameters a comparator binds. -/
def arity : Comparator -> Nat
  | .isTrue | .isFalse | .present | .absent => 0
  | .between | .notBetween => 2
  | _ => 1

end Comparator

/-- What joins two parts of a query. -/
inductive Connective
  | and
  | or
  deriving DecidableEq, Repr

namespace Connective

/-- Both connectives, in declaration order. -/
def all : List Connective :=
  [.and, .or]

/-- The name of a connective. -/
def name : Connective -> String
  | .and => "And"
  | .or => "Or"

end Connective

/-- A comparator applied to one field with its bound parameters. -/
structure Condition where
  comparator : Comparator
  /-- Dotted path of storage keys. -/
  field : String
  /-- Names of the bound parameters, in order. -/
  params : List String
  deriving DecidableEq, Repr

/-- A predicate tree. -/
inductive QueryExpr
  | leaf (condition : Condition)
  | node (connective : Connective) (left right : QueryExpr)
  deriving DecidableEq, Repr

/-- The predicate part of an operation. -/
inductive Query
  | all
  | matching (expr : QueryExpr)
  deriving DecidableEq, Repr

namespace Condition

/-- A condition as text: `age Between(low, high)`. -/
def render (condition : Condition) : String :=
  condition.field ++ " " ++ condition.comparator.name ++
    "(" ++ ", ".intercalate condition.params ++ ")"

end Condition

namespace QueryExpr

/-- The conditions of a tree from left to right. -/
def conditions : QueryExpr -> List Condition
  | .leaf condition => [condition]
  | .node _ left right => left.conditions ++ right.conditions

/-- A tree as text, with brackets around every connective. -/
def render : QueryExpr -> String
  | .leaf condition => condition.render
  | .node connective left right =>
      "(" ++ left.render ++ " " ++ connective.name ++ " " ++ right.render ++ ")"

/-- Number of connectives on the longest branch. -/
def height : QueryExpr -> Nat
  | .leaf _ => 0
  | .node _ left right => max left.height right.height + 1

end QueryExpr

namespace Query

/-- The tree of a query that has one. -/
def expr? : Query -> Option QueryExpr
  | .all => none
  | .matching expr => some expr

/-- A query as text. -/
def render : Query -> String
  | .all => "All"
  | .matching expr => "By " ++ expr.render

end Query

end DerivedQuery
