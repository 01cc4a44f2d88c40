import DerivedQuery.Keyword
import DerivedQuery.Operation

/-!
# Relabeling parameters

An operation can be given other parameter names without being read again. The
names in it are replaced one after the other, in the order in which they are
bound, by the names of a row. The name a Transaction spells a collection by is
no parameter name and stays.
-/

namespace DerivedQuery

/-- Replacement of names by those of a row, from left to right. -/
abbrev Relabeling := StateM (List String)

namespace Relabeling

variable {α β : Type}

/-- The next name of the row in place of an old one, which stays when the row
is used up. -/
def next (old : String) : Relabeling String :=
  fun
  | [] => (old, [])
  | name :: rest => (name, rest)

/-- The replacement takes certain names off the row, whatever is behind them,
and ends in a certain result. -/
def Takes
    (relabeling : Relabeling α)
    (names : List String)
    (result : α) : Prop :=
  ∀ more, relabeling.run (names ++ more) = (result, more)

theorem takes_pure (result : α) : Takes (pure result) [] result :=
  fun _ => rfl

theorem takes_next (old name : String) : Takes (next old) [name] name :=
  fun _ => rfl

/-- Names are taken in the order in which replacements are composed. -/
theorem Takes.bind
    {relabeling : Relabeling α}
    {further : α -> Relabeling β}
    {names more : List String}
    {value : α}
    {result : β}
    (takes : relabeling.Takes names value)
    (takesFurther : (further value).Takes more result) :
    (relabeling >>= further).Takes (names ++ more) result := by
  intro others
  rw [List.append_assoc, StateT.run_bind, takes (more ++ others)]
  exact takesFurther others

theorem Takes.then_pure
    {relabeling : Relabeling α}
    {names : List String}
    {value : α}
    (takes : relabeling.Takes names value)
    (image : α -> β) :
    Takes (relabeling >>= fun value => pure (image value)) names (image value) := by
  rw [← List.append_nil names]
  exact takes.bind (takes_pure _)

/-- A row of replacements takes its names one behind the other. -/
theorem Takes.cons
    {relabel : α -> Relabeling β}
    {value : α}
    {values : List α}
    {result : β}
    {results : List β}
    {names more : List String}
    (takes : (relabel value).Takes names result)
    (takesFurther : (values.mapM relabel).Takes more results) :
    ((value :: values).mapM relabel).Takes (names ++ more) (result :: results) := by
  rw [List.mapM_cons]
  exact takes.bind (takesFurther.then_pure (result :: ·))

theorem Takes.isEmpty_eq
    {relabel : α -> Relabeling β}
    {values : List α}
    {results : List β}
    {names : List String}
    (takes : (values.mapM relabel).Takes names results) :
    results.isEmpty = values.isEmpty := by
  have result_eq := congrArg Prod.fst (takes [])
  cases values with
  | nil =>
      obtain rfl : [] = results := result_eq
      rfl
  | cons value values =>
      rw [List.mapM_cons] at result_eq
      subst result_eq
      rfl

/-- As many names as there were take their place. -/
theorem takes_mapM_next
    {olds names : List String}
    (length_eq : names.length = olds.length) :
    (olds.mapM next).Takes names names := by
  induction olds generalizing names with
  | nil =>
      obtain rfl := List.eq_nil_of_length_eq_zero length_eq
      exact takes_pure []
  | cons old olds hypothesis =>
      obtain ⟨name, more, rfl⟩ := List.exists_cons_of_length_eq_add_one length_eq
      exact (takes_next old name).cons (hypothesis (Nat.succ.inj length_eq))

end Relabeling

/-! ## The names of an operation -/

open Relabeling (next)

/-- A condition compares with as many parameters as before. -/
def Condition.relabel (condition : Condition) : Relabeling Condition := do
  let params ← condition.params.mapM next
  return { condition with params := params }

/-- Conditions from left to right. -/
def QueryExpr.relabel : QueryExpr -> Relabeling QueryExpr
  | .leaf condition => do
      let condition ← condition.relabel
      return .leaf condition
  | .node connective left right => do
      let left ← left.relabel
      let right ← right.relabel
      return .node connective left right

/-- The conditions of a query, if it has some. -/
def Query.relabel : Query -> Relabeling Query
  | .all => pure .all
  | .matching expr => do
      let expr ← expr.relabel
      return .matching expr

/-- The context and what is inserted. -/
def Insert.relabel (insert : Insert) : Relabeling Insert := do
  let context ← insert.context.mapM next
  let document ← next insert.document
  return { insert with context := context, document := document }

/-- The parameter written to a field. -/
def FieldBinding.relabel (binding : FieldBinding) : Relabeling FieldBinding := do
  let param ← next binding.param
  return { binding with param := param }

/-- The entity, or the fields in order. -/
def Payload.relabel : Payload -> Relabeling Payload
  | .document param => do
      let param ← next param
      return .document param
  | .fields bindings => do
      let bindings ← bindings.mapM FieldBinding.relabel
      return .fields bindings

/-- What an Update writes comes in front of its query. -/
def Update.relabel (update : Update) : Relabeling Update := do
  let context ← update.context.mapM next
  let payload ← update.payload.relabel
  let query ← update.query.relabel
  return { update with context := context, payload := payload, query := query }

/-- The context and the query. -/
def Delete.relabel (delete : Delete) : Relabeling Delete := do
  let context ← delete.context.mapM next
  let query ← delete.query.relabel
  return { delete with context := context, query := query }

/-- The context and the query. -/
def Count.relabel (count : Count) : Relabeling Count := do
  let context ← next count.context
  let query ← count.query.relabel
  return { count with context := context, query := query }

namespace Find

/-- Give new names to the entry whose clause a word starts. Words that start no
clause and sort fields hold no names. -/
def relabelClause
    (find : Find)
    (relabeled : Find)
    (word : Word) :
    Relabeling Find :=
  match word.keyword? with
  | some .skip => do
      let skip ← find.skip.mapM next
      return { relabeled with skip := skip }
  | some .limit => do
      let limit ← find.limit.mapM next
      return { relabeled with limit := limit }
  | some .byQuery | some .allQuery => do
      let query ← find.query.relabel
      return { relabeled with query := query }
  | _ => pure relabeled

/-- The clauses in the order of the words that start them. -/
def relabel (words : List Word) (find : Find) : Relabeling Find := do
  let context ← next find.context
  words.foldlM find.relabelClause { find with context := context }

end Find

/-- A write inside a Bulk as it stands alone. -/
def BulkStep.relabel : BulkStep -> Relabeling BulkStep
  | .insert record => do
      let record ← record.relabel
      return .insert record
  | .update record => do
      let record ← record.relabel
      return .update record
  | .delete record => do
      let record ← record.relabel
      return .delete record

/-- The context and the steps in order. -/
def Bulk.relabel (bulk : Bulk) : Relabeling Bulk := do
  let context ← bulk.context.mapM next
  let steps ← bulk.steps.mapM BulkStep.relabel
  return { bulk with context := context, steps := steps }

/-- The parameter that holds a collection. -/
def CollectionHandle.relabel (handle : CollectionHandle) : Relabeling CollectionHandle := do
  let param ← next handle.param
  return { handle with param := param }

/-- A write inside a Transaction as it stands alone. -/
def TransactionAction.relabel : TransactionAction -> Relabeling TransactionAction
  | .insert record => do
      let record ← record.relabel
      return .insert record
  | .update record => do
      let record ← record.relabel
      return .update record
  | .delete record => do
      let record ← record.relabel
      return .delete record
  | .bulk record => do
      let record ← record.relabel
      return .bulk record

/-- What a step does; which collection it is done to was bound before. -/
def TransactionStep.relabel (step : TransactionStep) : Relabeling TransactionStep := do
  let action ← step.action.relabel
  return { step with action := action }

/-- The client and the collections come in front of the steps. -/
def Transaction.relabel (transaction : Transaction) : Relabeling Transaction := do
  let context ← next transaction.context
  let client ← next transaction.client
  let collections ← transaction.collections.mapM CollectionHandle.relabel
  let steps ← transaction.steps.mapM TransactionStep.relabel
  return { transaction with
    context := context
    client := client
    collections := collections
    steps := steps }

namespace Operation

/-- Replace the names of an operation. Where the clauses of a Find stand is
told by the words of its descriptor. -/
def relabel (words : List Word) : Operation -> Relabeling Operation
  | .insert record => do
      let record ← record.relabel
      return .insert record
  | .find record => do
      let record ← record.relabel words
      return .find record
  | .update record => do
      let record ← record.relabel
      return .update record
  | .delete record => do
      let record ← record.relabel
      return .delete record
  | .count record => do
      let record ← record.relabel
      return .count record
  | .transaction record => do
      let record ← record.relabel
      return .transaction record
  | .bulk record => do
      let record ← record.relabel
      return .bulk record

/-- An operation with each parameter name, in binding order, replaced by the
next of a row of names. -/
def withNames
    (words : List Word)
    (names : List String)
    (operation : Operation) : Operation :=
  ((operation.relabel words).run names).1

/-- Names behind those that are taken do not matter. -/
theorem withNames_of_takes
    {words : List Word}
    {names : List String}
    {operation result : Operation}
    (takes : (operation.relabel words).Takes names result)
    (more : List String) :
    operation.withNames words (names ++ more) = result := by
  rw [withNames, takes more]

end Operation

end DerivedQuery
