import DerivedQuery.TypeExpr
import DerivedQuery.Text.Blank

/-!
# Reading type expressions

Blanks may surround a type and each of its parts. A map key ends at the
bracket that closes it, so keys may hold brackets of their own. Names are
ASCII identifiers, with at most one package in front.
-/

namespace DerivedQuery

/-- Why a text is no type expression. The text is the trimmed part at fault. -/
inductive TypeError
  | empty
  | unterminatedMap (text : String)
  | invalid (text : String)
  deriving DecidableEq, Repr

namespace TypeError

/-- The wording of a type error. -/
def message : TypeError -> String
  | .empty => "empty type expression"
  | .unterminatedMap text => "unterminated map key in `" ++ text ++ "`"
  | .invalid text => "invalid type expression `" ++ text ++ "`"

end TypeError

namespace TypeExpr

/-- Whether a character may stand first in an identifier. -/
def startsIdentifier (char : Char) : Bool :=
  char.isAlpha || char == '_'

/-- Whether a character may stand behind the first in an identifier. -/
def continuesIdentifier (char : Char) : Bool :=
  char.isAlphanum || char == '_'

/-- Whether a text is an ASCII identifier. -/
def isIdentifier : List Char -> Bool
  | [] => false
  | first :: rest => startsIdentifier first && rest.all continuesIdentifier

/-- Divide a text at the `]` that closes a bracket opened before it, where
`depth` further brackets are open. -/
def splitClosing (depth : Nat) : List Char -> Option (List Char × List Char)
  | [] => none
  | char :: rest =>
      if char = ']' then
        match depth with
        | 0 => some ([], rest)
        | depth + 1 =>
            (splitClosing depth rest).map fun (inside, after) => (char :: inside, after)
      else if char = '[' then
        (splitClosing (depth + 1) rest).map fun (inside, after) => (char :: inside, after)
      else
        (splitClosing depth rest).map fun (inside, after) => (char :: inside, after)

/-- Both parts of a division, with the bracket between them, make up the text. -/
theorem append_of_splitClosing
    {depth : Nat}
    {text inside after : List Char}
    (divided : splitClosing depth text = some (inside, after)) :
    text = inside ++ ']' :: after := by
  induction text generalizing depth inside after with
  | nil => simp [splitClosing] at divided
  | cons char rest hypothesis =>
      unfold splitClosing at divided
      split at divided
      · rename_i isClosing
        split at divided
        · simp at divided
          simp [divided, isClosing]
        · simp only [Option.map_eq_some_iff, Prod.mk.injEq, Prod.exists] at divided
          obtain ⟨part, others, found, rfl, rfl⟩ := divided
          simp [hypothesis found]
      · split at divided
        all_goals
          simp only [Option.map_eq_some_iff, Prod.mk.injEq, Prod.exists] at divided
          obtain ⟨part, others, found, rfl, rfl⟩ := divided
          simp [hypothesis found]

/-- Read a plain or package-qualified name. -/
def readName (text : List Char) : Except TypeError TypeExpr :=
  let before := text.takeWhile (· != '.')
  match text.dropWhile (· != '.') with
  | [] =>
      if isIdentifier before then
        .ok (.ident (String.ofList before))
      else
        .error (.invalid (String.ofList text))
  | _ :: name =>
      if isIdentifier before && isIdentifier name then
        .ok (.selector (String.ofList before) (String.ofList name))
      else
        .error (.invalid (String.ofList text))

/-- Read a type from characters. -/
def read (source : List Char) : Except TypeError TypeExpr :=
  match _trimmed : Text.trim source with
  | [] => .error .empty
  | '*' :: rest => (read rest).map .pointer
  | '[' :: ']' :: rest => (read rest).map .slice
  | 'm' :: 'a' :: 'p' :: '[' :: rest =>
      match _divided : splitClosing 0 rest with
      | none => .error (.unterminatedMap (String.ofList ('m' :: 'a' :: 'p' :: '[' :: rest)))
      | some (keyText, valueText) =>
          match read keyText with
          | .error error => .error error
          | .ok key => (read valueText).map (.map key)
  | text =>
      if text = "interface\x7b\x7d".toList then
        .ok .emptyInterface
      else
        readName text
termination_by source.length
decreasing_by
  all_goals
    have bound := Text.length_trim_le source
    rw [_trimmed] at bound
    simp only [List.length_cons] at bound
  · omega
  · omega
  · have total := congrArg List.length (append_of_splitClosing _divided)
    simp at total
    omega
  · have total := congrArg List.length (append_of_splitClosing _divided)
    simp at total
    omega

/-- Read a type expression. -/
def parse (source : String) : Except TypeError TypeExpr :=
  read source.toList

end TypeExpr

end DerivedQuery
