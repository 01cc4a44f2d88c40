import DerivedQuery.Json
import DerivedQuery.TypeExpr.Reader

/-!
# Codecs

A codec describes how the values of a type are written as JSON and read back.
Reading is given a number of levels, the arrays and objects it may still enter;
parts of a document that are not read use up none.
-/

namespace DerivedQuery

/-- Why a JSON value cannot be read. -/
inductive DecodeError
  | wrongShape
  | missingField (key : String)
  | duplicateField (key : String)
  | unknownVariant (name : String) (expected : List String)
  | badType (error : TypeError)
  | tooDeep
  deriving DecidableEq, Repr

namespace DecodeError

/-- A name in backquotes. -/
def quote (name : String) : String :=
  "`" ++ name ++ "`"

/-- The names of which one was expected. -/
def listing : List String -> String
  | [] => "nothing"
  | [name] => quote name
  | [first, second] => quote first ++ " or " ++ quote second
  | names => "one of " ++ String.intercalate ", " (names.map quote)

/-- The text of an error. -/
def message : DecodeError -> String
  | .wrongShape => "wrong shape"
  | .missingField key => "missing field " ++ quote key
  | .duplicateField key => "duplicate field " ++ quote key
  | .unknownVariant name expected =>
      "unknown variant " ++ quote name ++ ", expected " ++ listing expected
  | .badType error => error.message
  | .tooDeep => "recursion limit exceeded"

end DecodeError

/-- How the values of a type are read from JSON and written to it. -/
structure Codec (α : Type) where
  read : (levels : Nat) -> Json -> Except DecodeError α
  write : α -> Json

namespace Codec

variable {α β : Type}

/-- Read a value, however deep it is. -/
def decode (codec : Codec α) (json : Json) : Except DecodeError α :=
  codec.read json.depth json

/-- Strings. -/
def string : Codec String where
  read _ json :=
    match json with
    | .string text => .ok text
    | _ => .error .wrongShape
  write := .string

/-- Truth values. -/
def bool : Codec Bool where
  read _ json :=
    match json with
    | .bool value => .ok value
    | _ => .error .wrongShape
  write := .bool

/-- Natural numbers of 64 bits. -/
def natural : Codec Nat where
  read _ json :=
    match json with
    | .natural value => if value < UInt64.size then .ok value else .error .wrongShape
    | _ => .error .wrongShape
  write := .natural

/-- Type expressions, as strings. -/
def typeExpr : Codec TypeExpr where
  read _ json :=
    match json with
    | .string text => (TypeExpr.parse text).mapError .badType
    | _ => .error .wrongShape
  write type := .string type.render

/-- Lists, as arrays. -/
def list (codec : Codec α) : Codec (List α) where
  read levels json :=
    match json, levels with
    | .array _, 0 => .error .tooDeep
    | .array elements, inner + 1 => elements.mapM (codec.read inner)
    | _, _ => .error .wrongShape
  write values := .array (values.map codec.write)

/-- Values that may be null. -/
def optional (codec : Codec α) : Codec (Option α) where
  read levels json :=
    match json with
    | .null => .ok none
    | json => (codec.read levels json).map some
  write
    | none => .null
    | some value => codec.write value

/-- One of the forms of a tagged value. -/
structure Variant (α : Type) where
  name : String
  /-- Read the content, if there is one. -/
  read : (levels : Nat) -> Option Json -> Except DecodeError α

namespace Variant

/-- A form without content. -/
def plain (name : String) (value : α) : Variant α where
  name := name
  read _ content :=
    match content with
    | none | some .null => .ok value
    | some _ => .error .wrongShape

/-- A form that holds the value of another codec. -/
def holding (name : String) (codec : Codec β) (make : β -> α) : Variant α where
  name := name
  read levels content :=
    match content with
    | none => .error .wrongShape
    | some json => (codec.read levels json).map make

/-- Read the content of the variant of a given name. -/
def readNamed
    (variants : List (Variant α))
    (levels : Nat)
    (name : String)
    (content : Option Json) :
    Except DecodeError α :=
  match variants.find? (·.name == name) with
  | some variant => variant.read levels content
  | none => .error (.unknownVariant name (variants.map Variant.name))

end Variant

/-- Values with a tag: the name of a form without content, or an object whose
only key is the name and whose value is the content. -/
def tagged (variants : List (Variant α)) (write : α -> Json) : Codec α where
  read levels json :=
    match json, levels with
    | .string name, levels => Variant.readNamed variants levels name none
    | .object [_], 0 => .error .tooDeep
    | .object [(name, content)], inner + 1 =>
        Variant.readNamed variants inner name (some content)
    | _, _ => .error .wrongShape
  write := write

/-- Finitely many values, each by its name. -/
def enumeration (values : List α) (name : α -> String) : Codec α :=
  tagged (values.map fun value => Variant.plain (name value) value) fun value =>
    .string (name value)

/-- The codec that reads nothing. -/
def refusal : Codec α where
  read _ _ := .error .tooDeep
  write _ := .null

/-- Apply a layer to the empty codec some number of times. -/
def approximation (layer : Codec α -> Codec α) : Nat -> Codec α
  | 0 => refusal
  | count + 1 => layer (approximation layer count)

/-- The codec of a recursive type. A layer describes a value by a codec for
the values inside it, each of which has a smaller height and stands at least
one level deeper. -/
def fix (layer : Codec α -> Codec α) (height : α -> Nat) : Codec α where
  read levels json := (approximation layer (levels + 1)).read levels json
  write value := (approximation layer (height value + 1)).write value

end Codec

end DerivedQuery
