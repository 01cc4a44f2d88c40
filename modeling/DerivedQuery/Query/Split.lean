import DerivedQuery.Config
import DerivedQuery.Query
import DerivedQuery.Query.Brackets

/-!
# Dividing a query at a connective

A query run is divided at one of its connectives into two shorter runs, or it
is a leaf. Which connective that is depends on the split strategy.
-/

namespace DerivedQuery

/-- One step in taking a query run apart. -/
inductive Split
  /-- No connective to divide at. -/
  | leaf (run : List Word)
  | divided (connective : Connective) (left right : List Word)
  deriving DecidableEq, Repr

namespace Keyword

/-- The connective a keyword stands for. -/
def connective? : Keyword -> Option Connective
  | .and => some .and
  | .or => some .or
  | _ => none

end Keyword

namespace Split

/-- A connective in its place inside a run. -/
structure Found where
  before : List Word
  connective : Connective
  /-- Where the connective stands. -/
  span : Span
  after : List Word
  /-- Number of brackets open at the connective. -/
  depth : Nat
  deriving DecidableEq, Repr

/-- Put a word in front of the run a search went through. -/
def behind
    (word : Word)
    (result : Except SplitError (Option Found)) :
    Except SplitError (Option Found) :=
  result.map fun found? => found?.map fun found => { found with before := word :: found.before }

/-- The first connective with at most `limit` brackets open, where `depth`
brackets are open before the run. -/
def findConnective (limit depth : Nat) : List Word -> Except SplitError (Option Found)
  | [] => .ok none
  | word :: rest =>
      match word.keyword? with
      | some .leftBracket => behind word (findConnective limit (depth + 1) rest)
      | some .rightBracket =>
          match depth with
          | 0 => .error (.unbalanced word.span)
          | depth + 1 => behind word (findConnective limit depth rest)
      | keyword? =>
          match keyword?.bind Keyword.connective? with
          | some connective =>
              if depth ≤ limit then
                .ok (some ⟨[], connective, word.span, rest, depth⟩)
              else
                behind word (findConnective limit depth rest)
          | none => behind word (findConnective limit depth rest)

/-- A connective stands between the two parts of its run. -/
theorem length_of_findConnective
    {limit depth : Nat}
    {run : List Word}
    {found : Found}
    (search : findConnective limit depth run = .ok (some found)) :
    found.before.length + found.after.length + 1 = run.length := by
  have step {depth : Nat} {word : Word} {rest : List Word} {found : Found}
      (hypothesis : ∀ {depth : Nat} {found : Found},
        findConnective limit depth rest = .ok (some found) ->
          found.before.length + found.after.length + 1 = rest.length)
      (search : behind word (findConnective limit depth rest) = .ok (some found)) :
      found.before.length + found.after.length + 1 = (word :: rest).length := by
    cases inner : findConnective limit depth rest with
    | error error => simp [behind, inner, Except.map] at search
    | ok found? =>
        cases found? with
        | none => simp [behind, inner, Except.map] at search
        | some innerFound =>
            have total := hypothesis inner
            simp only [behind, inner, Except.map, Option.map_some, Except.ok.injEq,
              Option.some.injEq] at search
            subst search
            simp only [List.length_cons]
            omega
  induction run generalizing depth found with
  | nil => simp [findConnective] at search
  | cons word rest hypothesis =>
      unfold findConnective at search
      split at search
      · exact step hypothesis search
      · split at search
        · simp at search
        · exact step hypothesis search
      · split at search
        · split at search
          · simp only [Except.ok.injEq, Option.some.injEq] at search
            subst search
            simp
          · exact step hypothesis search
        · exact step hypothesis search

/-- Divide at the first connective at bracket depth 0 or 1. At depth 1 the
words at both ends of the run are dropped. -/
def legacy (run : List Word) : Except SplitError Split :=
  match findConnective 1 0 run with
  | .error error => .error error
  | .ok none => .ok (.leaf run)
  | .ok (some found) =>
      if found.after.isEmpty then
        .error (.dangling found.span)
      else if found.depth = 1 then
        .ok (.divided found.connective (found.before.drop 1) found.after.dropLast)
      else
        .ok (.divided found.connective found.before found.after)

/-- Remove brackets around the whole run, then divide at the first connective
outside all brackets. -/
def nested (run : List Word) : Except SplitError Split :=
  let inner := Brackets.unwrap run
  match findConnective 0 0 inner with
  | .error error => .error error
  | .ok none => .ok (.leaf inner)
  | .ok (some found) =>
      if found.after.isEmpty then
        .error (.dangling found.span)
      else
        .ok (.divided found.connective found.before found.after)

end Split

namespace SplitStrategy

/-- Take one step in taking a query run apart. -/
def split : SplitStrategy -> List Word -> Except SplitError Split
  | .legacy => Split.legacy
  | .nested => Split.nested

/-- Both parts of a divided run are shorter than it. -/
theorem length_lt_of_split
    {strategy : SplitStrategy}
    {run left right : List Word}
    {connective : Connective}
    (divided : strategy.split run = .ok (.divided connective left right)) :
    left.length < run.length ∧ right.length < run.length := by
  cases strategy with
  | legacy =>
      simp only [split, Split.legacy] at divided
      split at divided
      · simp at divided
      · simp at divided
      · rename_i found search
        have total := Split.length_of_findConnective search
        split at divided
        · simp at divided
        · split at divided
          · simp only [Except.ok.injEq, Split.divided.injEq] at divided
            obtain ⟨-, rfl, rfl⟩ := divided
            simp only [List.length_drop, List.length_dropLast]
            omega
          · simp only [Except.ok.injEq, Split.divided.injEq] at divided
            obtain ⟨-, rfl, rfl⟩ := divided
            omega
  | nested =>
      simp only [split, Split.nested] at divided
      split at divided
      · simp at divided
      · simp at divided
      · rename_i found search
        have total := Split.length_of_findConnective search
        have shorter := Brackets.length_unwrap_le run
        split at divided
        · simp at divided
        · simp only [Except.ok.injEq, Split.divided.injEq] at divided
          obtain ⟨-, rfl, rfl⟩ := divided
          omega

end SplitStrategy

end DerivedQuery
