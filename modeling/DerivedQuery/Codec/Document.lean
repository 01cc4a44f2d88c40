import DerivedQuery.Codec
import DerivedQuery.Json.Reader

/-!
# Reading documents

A document is a JSON text that holds one value.
-/

namespace DerivedQuery

/-- Why a text cannot be read as a document. -/
inductive DocumentError
  | notJson
  | decode (error : DecodeError)
  deriving DecidableEq, Repr

namespace DocumentError

/-- The text of an error. -/
def message : DocumentError -> String
  | .notJson => "not a JSON text"
  | .decode error => error.message

end DocumentError

namespace Codec

/-- How many levels of a document may be entered. -/
def documentLevels : Nat :=
  127

/-- Read a document. -/
def ofText {α : Type} (codec : Codec α) (text : String) : Except DocumentError α :=
  match Json.parse? text with
  | none => .error .notJson
  | some json => (codec.read documentLevels json).mapError .decode

end Codec

end DerivedQuery
