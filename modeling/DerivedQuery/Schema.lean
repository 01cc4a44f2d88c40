import DerivedQuery.TypeExpr

/-!
# Entity schemas

The fields of an entity, each with the name descriptors use, the key it is
stored under and its type. A field that holds a struct owns the schema of that
struct, so a schema is always a finite tree.
-/

namespace DerivedQuery

/-- A field of an entity, over the type of schemas that may be nested in it. -/
structure FieldOf (Nested : Type) where
  /-- The name as it appears in descriptors. -/
  name : String
  /-- The key the field is stored under. -/
  storageKey : String
  type : TypeExpr
  /-- The schema of the struct the field holds, if it holds one. -/
  nested : Option Nested
  deriving DecidableEq, Repr

/-- The name of an entity and its fields in declaration order. -/
structure Schema where
  name : String
  fields : List (FieldOf Schema)
  deriving Repr

/-- A field of a schema. -/
abbrev Field := FieldOf Schema

namespace Schema

/-- The first field with a given name. -/
def field? (schema : Schema) (name : String) : Option Field :=
  schema.fields.find? (·.name == name)

mutual

/-- Number of schemas nested below one another, the outermost not counted. -/
def height : Schema -> Nat
  | ⟨_, fields⟩ => fieldsHeight fields
termination_by structural schema => schema

/-- Height over a list of fields. -/
def fieldsHeight : List (FieldOf Schema) -> Nat
  | [] => 0
  | field :: rest => max (fieldHeight field) (fieldsHeight rest)
termination_by structural fields => fields

/-- Height below a field. -/
def fieldHeight : FieldOf Schema -> Nat
  | ⟨_, _, _, nested⟩ => nestedHeight nested
termination_by structural field => field

/-- Height below a field that may hold a struct. -/
def nestedHeight : Option Schema -> Nat
  | none => 0
  | some schema => schema.height + 1
termination_by structural nested => nested

end

end Schema

end DerivedQuery
