import DerivedQuery.FieldPath
import DerivedQuery.Query.Outline
import DerivedQuery.Query.Phrase
import DerivedQuery.Scope

/-!
# Reading queries

A query is `All` or `By` and a run of conditions joined by connectives. A
condition is a field path and a comparator phrase; it binds as many parameters
as the comparator takes, each of the type of the field. Conditions bind from
left to right.
-/

namespace DerivedQuery

namespace SplitError

/-- A split error as a fault. -/
def fault : SplitError -> Fault
  | .unbalanced span => ⟨.unbalancedBrackets, some span⟩
  | .dangling span => ⟨.danglingConnective, some span⟩

end SplitError

namespace Condition

/-- Read one condition. -/
def read (scope : Scope) (run : List Word) : Binding Condition :=
  if run.length < 2 then
    Binding.refuse (.shortCondition (Word.texts run)) run
  else
    match Comparator.phrase? run with
    | none => Binding.refuse (.missingComparator (Word.texts run)) run
    | some (comparator, length) =>
        let fieldRun := run.take (run.length - length)
        if fieldRun.isEmpty then
          Binding.refuse (.missingField (Word.texts run) comparator) run
        else do
          let path ← Binding.ofResult
            ((FieldPath.resolve scope.schema fieldRun).mapError ResolveError.fault)
          let params ← Binding.takeNames path.type comparator.arity run
          return ⟨comparator, path.key, params⟩

end Condition

namespace QueryExpr

/-- Read the conditions of an outline from left to right. -/
def read (scope : Scope) : Outline -> Binding QueryExpr
  | .leaf run => do
      let condition ← Condition.read scope run
      return .leaf condition
  | .node connective left right => do
      let leftExpr ← read scope left
      let rightExpr ← read scope right
      return .node connective leftExpr rightExpr
  | .broken error => throw error.fault

end QueryExpr

namespace Query

/-- Read a query. -/
def read (scope : Scope) (run : List Word) : Binding Query :=
  match run with
  | [] => throw (Fault.overall .missingQuery)
  | first :: body =>
      match first.keyword? with
      | some .allQuery =>
          if body.isEmpty then pure .all else Binding.refuse .wordsAfterAll body
      | some .byQuery =>
          if body.isEmpty then
            Binding.refuse .emptyQuery [first]
          else do
            Binding.ofResult ((Brackets.check body).mapError SplitError.fault)
            let expr ← QueryExpr.read scope (Outline.ofRun scope.config.splitStrategy body)
            return .matching expr
      | _ => Binding.refuse .missingQuery run

end Query

end DerivedQuery
