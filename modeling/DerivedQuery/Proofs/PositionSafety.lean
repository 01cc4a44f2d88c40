import DerivedQuery.Proofs.Positions.Batch
import DerivedQuery.Proofs.Positions.Search
import DerivedQuery.Proofs.Session

/-!
# No look-up is out of range

Whatever the words, the schema, the signature and the parameters left to bind,
a reader that goes through its words by position finds everything that it looks
up, and it ends as the reader that takes the words apart as a list.
-/

namespace DerivedQuery
namespace Positions

open Checked

/-- Read an operation of a given kind from the words behind its keyword. -/
def operationOfKind (scope : Scope) (run : List Word) : OperationKind -> Checked Operation
  | .insert => return .insert (← insert scope run .standalone)
  | .find => return .find (← find scope run)
  | .update => return .update (← update scope run .standalone)
  | .delete => return .delete (← delete scope run .standalone)
  | .count => return .count (← count scope run)
  | .transaction => return .transaction (← transaction scope run)
  | .bulk => return .bulk (← bulk scope run .standalone)

/-- Read the words of a whole descriptor. -/
def operation (scope : Scope) : List Word -> Checked Operation
  | [] => lift (throw (Fault.overall .emptyDescriptor))
  | first :: rest =>
      match OperationKind.ofName? first.text with
      | none => lift (Binding.refuse .unknownOperation [first])
      | some kind => operationOfKind scope rest kind

/-- The reader that is called. -/
def call (scope : Scope) : Session.Call -> Checked Session.Value
  | .insert run invocation => return .operation (.insert (← insert scope run invocation))
  | .update run invocation => return .operation (.update (← update scope run invocation))
  | .delete run invocation => return .operation (.delete (← delete scope run invocation))
  | .bulk run invocation => return .operation (.bulk (← bulk scope run invocation))
  | .find run => return .operation (.find (← find scope run))
  | .count run => return .operation (.count (← count scope run))
  | .transaction run => return .operation (.transaction (← transaction scope run))
  | .query run => return .query (← query scope run)
  | .condition run => return .condition (← condition scope run)
  | .names type number run => return .names (← lift (Binding.takeNames type number run))
  | .context => return .names [← lift Binding.takeContext]
  | .param run => return .param (← lift (Binding.takeParam run))

theorem operationOfKind_eq
    (scope : Scope)
    (run : List Word)
    (kind : OperationKind) :
    operationOfKind scope run kind = lift (Operation.readKind scope run kind) := by
  cases kind with
  | insert => exact then_pure_eq_lift (insert_eq scope run .standalone) _
  | find => exact then_pure_eq_lift (find_eq scope run) _
  | update => exact then_pure_eq_lift (update_eq scope run .standalone) _
  | delete => exact then_pure_eq_lift (delete_eq scope run .standalone) _
  | count => exact then_pure_eq_lift (count_eq scope run) _
  | transaction => exact then_pure_eq_lift (transaction_eq scope run) _
  | bulk => exact then_pure_eq_lift (bulk_eq scope run .standalone) _

theorem operation_eq
    (scope : Scope)
    (words : List Word) :
    operation scope words = lift (Operation.read scope words) := by
  cases words with
  | nil => rfl
  | cons first rest =>
      simp only [operation, Operation.read]
      cases OperationKind.ofName? first.text with
      | none => rfl
      | some kind => exact operationOfKind_eq scope rest kind

theorem call_eq
    (scope : Scope)
    (called : Session.Call) :
    call scope called = lift (called.read scope) := by
  cases called with
  | insert run invocation => exact then_pure_eq_lift (insert_eq scope run invocation) _
  | update run invocation => exact then_pure_eq_lift (update_eq scope run invocation) _
  | delete run invocation => exact then_pure_eq_lift (delete_eq scope run invocation) _
  | bulk run invocation => exact then_pure_eq_lift (bulk_eq scope run invocation) _
  | find run => exact then_pure_eq_lift (find_eq scope run) _
  | count run => exact then_pure_eq_lift (count_eq scope run) _
  | transaction run => exact then_pure_eq_lift (transaction_eq scope run) _
  | query run => exact then_pure_eq_lift (query_eq scope run) _
  | condition run => exact then_pure_eq_lift (condition_eq scope run) _
  | names type number run => exact then_pure_eq_lift rfl _
  | context => exact then_pure_eq_lift rfl _
  | param run => exact then_pure_eq_lift rfl _

end Positions

/-- From any position in the parameters and on any words, no reader looks up
anything out of range, whether it is called for a whole descriptor, for one
operation or for a part of one. -/
theorem look_ups_in_range
    (scope : Scope)
    (params : List Param)
    (first : Nat) :
    (∀ words, (Positions.operation scope words).start (params.drop first) =
      some ((Operation.read scope words).start (params.drop first))) ∧
    (∀ call, (Positions.call scope call).start (params.drop first) =
      some ((call.read scope).start (params.drop first))) ∧
    (∀ strategy words, Positions.split strategy words = some (strategy.split words)) ∧
    (∀ words, Positions.resolveAll scope.schema words =
      some (FieldPath.resolveAll scope.schema words)) ∧
    (∀ words, Positions.resolve scope.schema words =
      some (FieldPath.resolve scope.schema words)) := by
  refine ⟨?_, ?_, Positions.split_eq, Positions.resolveAll_eq scope.schema,
    Positions.resolve_eq scope.schema⟩
  · intro words
    rw [Positions.operation_eq, Positions.Checked.start_lift]
  · intro call
    rw [Positions.call_eq, Positions.Checked.start_lift]

end DerivedQuery
