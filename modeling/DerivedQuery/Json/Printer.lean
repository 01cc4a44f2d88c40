import DerivedQuery.Json
import DerivedQuery.Json.Quoted

/-!
# Writing JSON texts
-/

namespace DerivedQuery

namespace Json

/-- The blanks of a written text. -/
structure Layout where
  /-- What stands in front of each element and member, and of the closing
  bracket, by the depth of the brackets. -/
  lineBreak : Nat -> String
  /-- What stands behind a colon. -/
  afterColon : String

namespace Layout

/-- No blanks. -/
def compact : Layout :=
  ⟨fun _ => "", ""⟩

/-- One line for each element and member, indented by two blanks for each
level. -/
def pretty : Layout :=
  ⟨fun depth => "\n" ++ String.ofList (List.replicate (2 * depth) ' '), " "⟩

end Layout

mutual

/-- The text of a value at a depth. -/
def renderAt (layout : Layout) (depth : Nat) : Json -> String
  | .null => "null"
  | .unreadable => "null"
  | .bool true => "true"
  | .bool false => "false"
  | .natural value => value.repr
  | .numeral text => text
  | .string text => Quoted.encode text
  | .array [] => "[]"
  | .array (element :: rest) =>
      "[" ++ layout.lineBreak (depth + 1) ++ renderAt layout (depth + 1) element
        ++ renderElements layout depth rest
  | .object [] => "\x7b\x7d"
  | .object ((key, value) :: rest) =>
      "\x7b" ++ layout.lineBreak (depth + 1) ++ Quoted.encode key ++ ":" ++ layout.afterColon
        ++ renderAt layout (depth + 1) value ++ renderMembers layout depth rest
termination_by structural json => json

/-- The text of the elements behind the first, and of the closing bracket. -/
def renderElements (layout : Layout) (depth : Nat) : List Json -> String
  | [] => layout.lineBreak depth ++ "]"
  | element :: rest =>
      "," ++ layout.lineBreak (depth + 1) ++ renderAt layout (depth + 1) element
        ++ renderElements layout depth rest
termination_by structural elements => elements

/-- The text of the members behind the first, and of the closing bracket. -/
def renderMembers (layout : Layout) (depth : Nat) : List (String × Json) -> String
  | [] => layout.lineBreak depth ++ "\x7d"
  | (key, value) :: rest =>
      "," ++ layout.lineBreak (depth + 1) ++ Quoted.encode key ++ ":" ++ layout.afterColon
        ++ renderAt layout (depth + 1) value ++ renderMembers layout depth rest
termination_by structural members => members

end

/-- The text of a value. -/
def render (layout : Layout) (json : Json) : String :=
  renderAt layout 0 json

end Json

end DerivedQuery
