/-!
# Type expressions

Parameter, result and field types as they are written in an interface:
`int`, `context.Context`, `*model.User`, `[]string`, `map[string]int` and the
empty interface. They are kept as trees, so that a shape test or a comparison
never depends on how a type was spelled.
-/

namespace DerivedQuery

/-- A type as an interface writes it. -/
inductive TypeExpr
  /-- A builtin or local name. -/
  | ident (name : String)
  /-- A name qualified by its package. -/
  | selector (package name : String)
  | pointer (target : TypeExpr)
  | slice (element : TypeExpr)
  | map (key value : TypeExpr)
  /-- The interface without methods. -/
  | emptyInterface
  deriving DecidableEq, Repr

namespace TypeExpr

/-- The canonical spelling of a type, as characters. -/
def spelling : TypeExpr -> List Char
  | .ident name => name.toList
  | .selector package name => package.toList ++ '.' :: name.toList
  | .pointer target => '*' :: target.spelling
  | .slice element => '[' :: ']' :: element.spelling
  | .map key value => 'm' :: 'a' :: 'p' :: '[' :: key.spelling ++ ']' :: value.spelling
  | .emptyInterface => "interface\x7b\x7d".toList

/-- The canonical spelling of a type. -/
def render (type : TypeExpr) : String :=
  String.ofList type.spelling

/-- Whether a type is a pointer. -/
def isPointer : TypeExpr -> Bool
  | .pointer _ => true
  | _ => false

/-- Whether a type is a slice. -/
def isSlice : TypeExpr -> Bool
  | .slice _ => true
  | _ => false

end TypeExpr

end DerivedQuery
