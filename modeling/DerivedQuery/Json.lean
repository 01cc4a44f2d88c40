/-!
# JSON values

The values that documents are made of. Members of an object keep the order of
the text, and a key may occur more than once.
-/

namespace DerivedQuery

/-- A JSON value. -/
inductive Json
  | null
  | bool (value : Bool)
  /-- A number written with digits only. -/
  | natural (value : Nat)
  /-- Any other number, as it is written. -/
  | numeral (text : String)
  | string (text : String)
  /-- A value that holds an escape standing for no character, either in a
  string or in a key. It can be skipped but not read. -/
  | unreadable
  | array (elements : List Json)
  | object (members : List (String × Json))
  deriving Inhabited, Repr

namespace Json

mutual

/-- How many arrays and objects enclose the innermost value. -/
def depth : Json -> Nat
  | .array elements => elementsDepth elements + 1
  | .object members => membersDepth members + 1
  | _ => 0
termination_by structural json => json

/-- The greatest depth of some elements. -/
def elementsDepth : List Json -> Nat
  | [] => 0
  | element :: rest => max (depth element) (elementsDepth rest)
termination_by structural elements => elements

/-- The greatest depth of the values of some members. -/
def membersDepth : List (String × Json) -> Nat
  | [] => 0
  | (_, value) :: rest => max (depth value) (membersDepth rest)
termination_by structural members => members

end

/-- Put a member into a list sorted by key, in place of one of the same key. -/
def insertMember (key : String) (value : Json) : List (String × Json) -> List (String × Json)
  | [] => [(key, value)]
  | (other, kept) :: rest =>
      if key < other then
        (key, value) :: (other, kept) :: rest
      else if key = other then
        (key, value) :: rest
      else
        (other, kept) :: insertMember key value rest

mutual

/-- The same value with the members of every object sorted by key. Of several
members with the same key the last one stays. -/
def sorted : Json -> Json
  | .array elements => .array (sortedElements elements)
  | .object members => .object (sortedMembers [] members)
  | json => json
termination_by structural json => json

/-- Sort the members inside each element. -/
def sortedElements : List Json -> List Json
  | [] => []
  | element :: rest => sorted element :: sortedElements rest
termination_by structural elements => elements

/-- Insert members one after another. -/
def sortedMembers (done : List (String × Json)) : List (String × Json) -> List (String × Json)
  | [] => done
  | (key, value) :: rest => sortedMembers (insertMember key (sorted value) done) rest
termination_by structural members => members

end

/-- The value of a member. -/
def member? (key : String) : Json -> Option Json
  | .object members => members.lookup key
  | _ => none

/-- A value under the name of its variant. -/
def tagged (name : String) (content : Json) : Json :=
  .object [(name, content)]

end Json

end DerivedQuery
