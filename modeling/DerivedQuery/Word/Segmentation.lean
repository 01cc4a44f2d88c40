import DerivedQuery.Word

/-!
# Cutting a descriptor into words

A descriptor falls into maximal runs of upper-case letters, lower-case
letters, digits and other characters. An upper-case run hands its last letter
to a lower-case run that follows it, so `FindByID` reads `Find By ID` and
`HTTPServer` reads `HTTP Server`. Runs of other characters only separate.
Letters and digits are those of ASCII; offsets count UTF-8 bytes.
-/

namespace DerivedQuery

/-- The classes of characters that word boundaries depend on. -/
inductive CharClass
  | upper
  | lower
  | digit
  | other
  deriving DecidableEq, Repr

namespace CharClass

/-- The class of a character; everything outside ASCII letters and digits is `other`. -/
def of (char : Char) : CharClass :=
  if char.isUpper then .upper
  else if char.isLower then .lower
  else if char.isDigit then .digit
  else .other

end CharClass

namespace Word

/-- Characters that belong together, with the class they were collected for. -/
structure Run where
  kind : CharClass
  text : List Char
  deriving DecidableEq, Repr

/-- Maximal runs of one character class, in order. -/
def runs : List Char -> List Run
  | [] => []
  | char :: rest =>
      match runs rest with
      | [] => [⟨.of char, [char]⟩]
      | run :: others =>
          if run.kind = .of char then
            ⟨run.kind, char :: run.text⟩ :: others
          else
            ⟨.of char, [char]⟩ :: run :: others

/-- Give the last capital of an upper-case run to the lower-case run behind it. -/
def handOver : List Run -> List Run
  | upper :: lower :: rest =>
      if upper.kind = .upper ∧ lower.kind = .lower then
        ⟨.upper, upper.text.dropLast⟩ ::
          ⟨.lower, upper.text.getLast?.toList ++ lower.text⟩ :: handOver rest
      else
        upper :: handOver (lower :: rest)
  | others => others

/-- Number of bytes a text takes in UTF-8. -/
def byteSize : List Char -> Nat
  | [] => 0
  | char :: rest => char.utf8Size + byteSize rest

/-- The words among the runs that start at a byte offset. Separators and
runs left without letters give no word. -/
def ofRuns (offset : Nat) : List Run -> List Word
  | [] => []
  | run :: rest =>
      let stop := offset + byteSize run.text
      if run.kind = .other ∨ run.text = [] then
        ofRuns stop rest
      else
        ⟨String.ofList run.text, ⟨offset, stop⟩⟩ :: ofRuns stop rest

/-- The words of a descriptor. -/
def segment (descriptor : String) : List Word :=
  ofRuns 0 (handOver (runs descriptor.toList))

end Word

end DerivedQuery
