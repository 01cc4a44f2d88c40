import DerivedQuery.Fault
import DerivedQuery.Schema

/-!
# Field paths

A run of words is matched against field names. A name may span several words
(`UserName` is `User Name`), a name may start another one, and a field that
holds a struct continues into its schema, so `Address City` can stand for
`address.city`. Candidates are tried from the longest to the shortest, and
among equally long ones in schema order; a shorter one is taken when the rest
of the run cannot be covered.
-/

namespace DerivedQuery

/-- A resolved reference to a field, possibly inside nested structs. -/
structure FieldPath where
  /-- Dotted path of storage keys. -/
  key : String
  /-- Type of the innermost field. -/
  type : TypeExpr
  /-- Number of words the path takes. -/
  consumed : Nat
  deriving DecidableEq, Repr

/-- Why a run resolves to no field path. -/
inductive ResolveError
  | empty
  | noMatch (run : List String) (span : Option Span)
  | notSingle (run : List String) (span : Option Span)
  deriving DecidableEq, Repr

namespace ResolveError

/-- A resolution error as a fault. -/
def fault : ResolveError -> Fault
  | .empty => ⟨.noFieldWords, none⟩
  | .noMatch run span => ⟨.unknownField run, span⟩
  | .notSingle run span => ⟨.severalFields run, span⟩

end ResolveError

namespace FieldPath

/-- What remains of a name behind a text it starts with. -/
def afterText : List Char -> List Char -> Option (List Char)
  | [], name => some name
  | _ :: _, [] => none
  | char :: text, head :: name =>
      if char = head then afterText text name else none

/-- Number of leading words whose texts, joined, are exactly the name. -/
def spelled? (name : List Char) : List Word -> Option Nat
  | [] => none
  | word :: rest =>
      match afterText word.text.toList name with
      | none => none
      | some [] => some 1
      | some remaining => (spelled? remaining rest).map (· + 1)

/-- Put a path in front of all paths that are no longer than it. -/
def insertByLength (path : FieldPath) : List FieldPath -> List FieldPath
  | [] => [path]
  | head :: rest =>
      if head.consumed ≤ path.consumed then
        path :: head :: rest
      else
        head :: insertByLength path rest

/-- Longer paths first; equally long ones keep their order. -/
def longestFirst : List FieldPath -> List FieldPath
  | [] => []
  | path :: rest => insertByLength path (longestFirst rest)

end FieldPath

namespace Schema

mutual

/-- Every field path that a run starts with, the longest first. -/
def candidates : Schema -> List Word -> List FieldPath
  | ⟨_, fields⟩, words => FieldPath.longestFirst (fieldsCandidates fields words)
termination_by structural schema => schema

/-- The candidates that start in one of the fields, in schema order. -/
def fieldsCandidates : List (FieldOf Schema) -> List Word -> List FieldPath
  | [], _ => []
  | field :: rest, words => fieldCandidates field words ++ fieldsCandidates rest words
termination_by structural fields => fields

/-- The candidates that start in a field, those inside its struct first. -/
def fieldCandidates : FieldOf Schema -> List Word -> List FieldPath
  | ⟨name, key, type, nested⟩, words =>
      match FieldPath.spelled? name.toList words with
      | none => []
      | some consumed =>
          (nestedCandidates nested (words.drop consumed)).map
              (fun inner =>
                ⟨key ++ "." ++ inner.key, inner.type, consumed + inner.consumed⟩) ++
            [⟨key, type, consumed⟩]
termination_by structural field => field

/-- The candidates inside the struct of a field, if it holds one. -/
def nestedCandidates : Option Schema -> List Word -> List FieldPath
  | none, _ => []
  | some schema, words => schema.candidates words
termination_by structural nested => nested

end

end Schema

namespace FieldPath

/-- Field paths that cover a run, or the offset of the furthest word that was
reached and at which no field starts. -/
abbrev Cover := Except Nat (List FieldPath)

/-- Take the first candidate behind which the run can be covered. Entry `i` of
`later` covers the run without its first `i + 1` words. -/
def chooseFirst (later : List Cover) (furthest : Nat) : List FieldPath -> Cover
  | [] => .error furthest
  | path :: others =>
      match later[path.consumed - 1]? with
      | some (.ok rest) => .ok (path :: rest)
      | some (.error offset) =>
          chooseFirst later (max furthest (path.consumed + offset)) others
      | none => chooseFirst later furthest others

/-- The cover of a run and the covers of its proper suffixes, longest suffix
first. Each suffix is covered once. -/
def covers (schema : Schema) : List Word -> Cover × List Cover
  | [] => (.ok [], [])
  | word :: rest =>
      let (current, shorter) := covers schema rest
      let later := current :: shorter
      (chooseFirst later 0 (schema.candidates (word :: rest)), later)

/-- The preferred cover of a run. -/
def cover (schema : Schema) (run : List Word) : Cover :=
  (covers schema run).1

/-- Resolve a run into field paths that cover every word. -/
def resolveAll (schema : Schema) (run : List Word) : Except ResolveError (List FieldPath) :=
  if run.isEmpty then
    .error .empty
  else
    match cover schema run with
    | .ok paths => .ok paths
    | .error offset =>
        let rest := run.drop offset
        .error (.noMatch (Word.texts rest) (Word.runSpan? rest))

/-- Resolve a run that must name exactly one field path. -/
def resolve (schema : Schema) (run : List Word) : Except ResolveError FieldPath :=
  if run.isEmpty then
    .error .empty
  else
    match (schema.candidates run).find? (·.consumed == run.length) with
    | some path => .ok path
    | none =>
        match resolveAll schema run with
        | .error error => .error error
        | .ok _ => .error (.notSingle (Word.texts run) (Word.runSpan? run))

end FieldPath

end DerivedQuery
