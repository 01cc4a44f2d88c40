import DerivedQuery.Codec

/-!
# Codecs of records

A record is an object with fixed keys. Its members may come in any order, and
members with other keys are skipped. Of several faults the one that comes first
in the object is reported; a missing member counts as coming behind all others.

A record is also read from an array of its members in the order in which they
are added. Some members may be missing at the end of the array, and nothing may
stand behind the last member.
-/

namespace DerivedQuery

namespace Codec

/-- An error and the position of the member it is about. -/
structure Blame where
  position : Nat
  error : DecodeError
  deriving DecidableEq, Repr

namespace Blame

/-- Of two faults, the one that comes first. -/
def earlier (left right : Blame) : Blame :=
  if right.position < left.position then right else left

end Blame

/-- Join what has been read so far with one more member. -/
def join {α β : Type} : Except Blame (α -> β) -> Except Blame α -> Except Blame β
  | .ok make, .ok value => .ok (make value)
  | .error blame, .ok _ => .error blame
  | .ok _, .error blame => .error blame
  | .error left, .error right => .error (left.earlier right)

/-- What stands for a member that is not there. -/
structure Absence (α : Type) where
  /-- In an object without its key. -/
  inObject : Option α
  /-- In an array that ends before it. -/
  inArray : Option α

/-- How some members of a record are read into an `α`, and written from the
whole record. -/
structure Record (Whole α : Type) where
  /-- Read the members of an object. -/
  read : (levels : Nat) -> List (String × Json) -> Except Blame α
  /-- Read the first elements of an array, with those that are left. -/
  readRow : (levels : Nat) -> List Json -> Except DecodeError (α × List Json)
  write : Whole -> List (String × Json)

namespace Record

variable {Whole α β : Type}

/-- A record to which all members are still to be added. -/
def build (make : α) : Record Whole α where
  read _ _ := .ok make
  readRow _ elements := .ok (make, elements)
  write _ := []

/-- The values of the members with a given key, each with its position. -/
def occurrences (key : String) (members : List (String × Json)) : List (Json × Nat) :=
  members.zipIdx.filterMap fun entry =>
    if entry.1.1 = key then some (entry.1.2, entry.2) else none

/-- Read the member with a given key, or take the value that stands for its
absence. -/
def readMember
    (key : String)
    (codec : Codec α)
    (absent : Option α)
    (levels : Nat)
    (members : List (String × Json)) :
    Except Blame α :=
  match occurrences key members with
  | [] =>
      match absent with
      | some value => .ok value
      | none => .error ⟨members.length, .missingField key⟩
  | (json, position) :: others =>
      match codec.read levels json, others with
      | .error error, _ => .error ⟨position, error⟩
      | .ok value, [] => .ok value
      | .ok _, (_, repeated) :: _ => .error ⟨repeated, .duplicateField key⟩

/-- Read the next element of an array, or take the value that stands for its
absence. -/
def readElement
    (codec : Codec α)
    (absent : Option α)
    (levels : Nat) :
    List Json -> Except DecodeError (α × List Json)
  | [] =>
      match absent with
      | some value => .ok (value, [])
      | none => .error .wrongShape
  | json :: rest => (codec.read levels json).map (·, rest)

/-- Add a member. `absence` gives what stands for it where it is not there, and
values that `omitted` holds of are not written. -/
def member
    (key : String)
    (codec : Codec α)
    (get : Whole -> α)
    (absence : Absence α)
    (omitted : α -> Bool)
    (record : Record Whole (α -> β)) :
    Record Whole β where
  read levels members :=
    join (record.read levels members) (readMember key codec absence.inObject levels members)
  readRow levels elements := do
    let (make, rest) ← record.readRow levels elements
    let (value, rest) ← readElement codec absence.inArray levels rest
    return (make value, rest)
  write whole :=
    record.write whole ++
      if omitted (get whole) then [] else [(key, codec.write (get whole))]

/-- Add a member that must be there. -/
def required
    (record : Record Whole (α -> β))
    (key : String)
    (codec : Codec α)
    (get : Whole -> α) :
    Record Whole β :=
  record.member key codec get ⟨none, none⟩ fun _ => false

/-- Add a member that has a default. -/
def defaulted
    (record : Record Whole (α -> β))
    (key : String)
    (codec : Codec α)
    (get : Whole -> α)
    (default : α) :
    Record Whole β :=
  record.member key codec get ⟨some default, some default⟩ fun _ => false

/-- Add a member that may be null or absent from an object, and is written as
null. An array must not end before it. -/
def optional
    (record : Record Whole (Option α -> β))
    (key : String)
    (codec : Codec α)
    (get : Whole -> Option α) :
    Record Whole β :=
  record.member key codec.optional get ⟨some none, none⟩ fun _ => false

/-- Add a member that may be absent or null, and is left out then. -/
def omissible
    (record : Record Whole (Option α -> β))
    (key : String)
    (codec : Codec α)
    (get : Whole -> Option α) :
    Record Whole β :=
  record.member key codec.optional get ⟨some none, some none⟩ Option.isNone

/-- The codec of a record with all its members. -/
def codec (record : Record Whole Whole) : Codec Whole where
  read levels json :=
    match json, levels with
    | .object _, 0 | .array _, 0 => .error .tooDeep
    | .object members, inner + 1 => (record.read inner members).mapError Blame.error
    | .array elements, inner + 1 => do
        let (whole, rest) ← record.readRow inner elements
        if rest.isEmpty then return whole else throw .wrongShape
    | _, _ => .error .wrongShape
  write whole := .object (record.write whole)

end Record

end Codec

end DerivedQuery
