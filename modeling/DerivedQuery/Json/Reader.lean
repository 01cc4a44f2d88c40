import DerivedQuery.Json.Token

/-!
# Reading JSON texts

Tokens are read one at a time. The values that are still open are kept on a
stack, so any nesting can be read.
-/

namespace DerivedQuery

namespace Json

namespace Reader

/-- The key of a member, or nothing if it could not be read. -/
abbrev Key : Type := Option String

/-- A value that is still open, with what it holds so far in reverse. -/
inductive Frame
  | element (done : List Json)
  | member (done : List (Key × Json)) (key : Key)

/-- What has been read, told by what may come next. -/
inductive State
  /-- A value. -/
  | value (stack : List Frame)
  /-- The first element of an array, or its end. -/
  | arrayStart (stack : List Frame)
  /-- The first key of an object, or its end. -/
  | objectStart (stack : List Frame)
  /-- A further key. -/
  | key (done : List (Key × Json)) (stack : List Frame)
  /-- The colon behind a key. -/
  | colon (done : List (Key × Json)) (key : Key) (stack : List Frame)
  /-- What follows a complete value. -/
  | complete (value : Json) (stack : List Frame)

/-- The string of a token. -/
def ofString : Option String -> Json
  | some text => .string text
  | none => .unreadable

/-- The object of some members in reverse. -/
def ofMembers (done : List (Key × Json)) : Json :=
  match done.reverse.mapM fun member => member.1.map fun key => (key, member.2) with
  | some members => .object members
  | none => .unreadable

/-- Read a token where a value must come. -/
def readValue (stack : List Frame) : Token -> Option State
  | .openArray => some (.arrayStart stack)
  | .openObject => some (.objectStart stack)
  | .string text => some (.complete (ofString text) stack)
  | .scalar value => some (.complete value stack)
  | .closeArray | .closeObject | .comma | .colon => none

/-- Read one token. -/
def step : State -> Token -> Option State
  | .value stack, token => readValue stack token
  | .arrayStart stack, .closeArray => some (.complete (.array []) stack)
  | .arrayStart stack, token => readValue (.element [] :: stack) token
  | .objectStart stack, .closeObject => some (.complete (.object []) stack)
  | .objectStart stack, .string key => some (.colon [] key stack)
  | .key done stack, .string key => some (.colon done key stack)
  | .colon done key stack, .colon => some (.value (.member done key :: stack))
  | .complete value (.element done :: stack), .comma =>
      some (.value (.element (value :: done) :: stack))
  | .complete value (.element done :: stack), .closeArray =>
      some (.complete (.array (value :: done).reverse) stack)
  | .complete value (.member done key :: stack), .comma =>
      some (.key ((key, value) :: done) stack)
  | .complete value (.member done key :: stack), .closeObject =>
      some (.complete (ofMembers ((key, value) :: done)) stack)
  | _, _ => none

/-- The value of a whole text. -/
def finish : State -> Option Json
  | .complete value [] => some value
  | _ => none

end Reader

/-- Read a text that holds one value. -/
def parse? (text : String) : Option Json := do
  let tokens ← Token.ofText? text
  let last ← tokens.foldlM Reader.step (.value [])
  Reader.finish last

end Json

end DerivedQuery
