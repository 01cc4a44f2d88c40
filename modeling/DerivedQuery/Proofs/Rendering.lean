import DerivedQuery.Proofs.ClauseReader
import DerivedQuery.Proofs.QueryReader

/-!
# Words of operations

How operations are written. Every relation of this module takes a whole run and
divides it among the parts of a record, so that each word of the run stands for
one part of the record and parts follow one another in the order of the words.
Storage keys are written as the names of a chain of fields, a tree of
conditions in the order of its traversal, and the steps of a batch one behind
the other. The clauses of a Find may be permuted.
-/

namespace DerivedQuery

/-- Items written one behind the other, each with words of its own. -/
inductive WrittenRow {α : Type} (Written : α -> List Word -> Prop) :
    List α -> List Word -> Prop
  | nil : WrittenRow Written [] []
  | cons
      {item : α}
      {items : List α}
      {run rest : List Word}
      (first : Written item run)
      (others : WrittenRow Written items rest) :
      WrittenRow Written (item :: items) (run ++ rest)

namespace WrittenRow

variable {α β : Type}
variable {Written : α -> List Word -> Prop}
variable {items others : List α}
variable {run rest : List Word}

theorem append
    (row : WrittenRow Written items run)
    (further : WrittenRow Written others rest) :
    WrittenRow Written (items ++ others) (run ++ rest) := by
  induction row with
  | nil => exact further
  | cons first row hypothesis =>
      rw [List.cons_append, List.append_assoc]
      exact .cons first hypothesis

theorem map
    {OtherWritten : β -> List Word -> Prop}
    (row : WrittenRow Written items run)
    (convert : α -> β)
    (written : ∀ item part, Written item part -> OtherWritten (convert item) part) :
    WrittenRow OtherWritten (items.map convert) run := by
  induction row with
  | nil => exact .nil
  | cons first row hypothesis => exact .cons (written _ _ first) hypothesis

theorem mono
    {OtherWritten : α -> List Word -> Prop}
    (row : WrittenRow Written items run)
    (written : ∀ item part, Written item part -> OtherWritten item part) :
    WrittenRow OtherWritten items run := by
  have mapped := row.map id written
  rwa [List.map_id] at mapped

/-- What holds of every word of a row holds of the words of each item. -/
theorem forall_words
    {property : Word -> Prop}
    (row : WrittenRow Written items run)
    (holds : ∀ word ∈ run, property word) :
    WrittenRow (fun item part => Written item part ∧ ∀ word ∈ part, property word) items run := by
  induction row with
  | nil => exact .nil
  | cons first row hypothesis =>
      rw [List.forall_mem_append] at holds
      exact .cons ⟨first, holds.1⟩ (hypothesis holds.2)

/-- Words are always those of an item. -/
theorem items_ne_nil
    (row : WrittenRow Written items run)
    (nonempty : run ≠ []) :
    items ≠ [] := by
  cases row with
  | nil => exact absurd rfl nonempty
  | cons first row => simp

theorem exists_of_mem
    (row : WrittenRow Written items run)
    {item : α}
    (member : item ∈ items) :
    ∃ part, Written item part := by
  induction row with
  | nil => simp at member
  | cons first row hypothesis =>
      rcases List.mem_cons.mp member with rfl | later
      · exact ⟨_, first⟩
      · exact hypothesis later

end WrittenRow

namespace Schema

/-- A storage key is written as the names of a chain of fields that leads to
it. -/
def KeyWritten (schema : Schema) (key : String) (run : List Word) : Prop :=
  ∃ chain, schema.Chain chain ∧
    ".".intercalate (chain.map FieldOf.storageKey) = key ∧
    FieldPath.Spells chain run

end Schema

/-! ## Queries -/

namespace Condition

/-- A condition is written as its field and its comparator. -/
inductive Written (schema : Schema) (condition : Condition) : List Word -> Prop
  | intro
      {front back : List Word}
      (field : schema.KeyWritten condition.field front)
      (comparator : Word.texts back = condition.comparator.phrase) :
      Written schema condition (front ++ back)

end Condition

namespace QueryExpr

/-- The traversal of a tree, with every connective between its operands. -/
inductive Traversed (schema : Schema) : QueryExpr -> List Word -> Prop
  | leaf
      {condition : Condition}
      {run : List Word}
      (written : condition.Written schema run) :
      Traversed schema (.leaf condition) run
  | node
      {connective : Connective}
      {left right : QueryExpr}
      {front back : List Word}
      {word : Word}
      (first : Traversed schema left front)
      (stands : word.connective? = some connective)
      (second : Traversed schema right back) :
      Traversed schema (.node connective left right) (front ++ word :: back)

end QueryExpr

namespace Query

/-- A query is `All` alone, or `By` and a balanced run that without its brackets
is the traversal of the tree. -/
inductive Written (schema : Schema) : Query -> List Word -> Prop
  | all
      {word : Word}
      (isAll : word.is .allQuery) :
      Written schema .all [word]
  | matching
      {word : Word}
      {body : List Word}
      {expr : QueryExpr}
      (isBy : word.is .byQuery)
      (balanced : Brackets.Balanced body)
      (traversed : expr.Traversed schema (body.filter (!·.isBracket))) :
      Written schema (.matching expr) (word :: body)

end Query

/-! ## Single writes -/

namespace Mode

/-- The mode of an Update or Delete is written in a step only. -/
inductive Written (mode : Mode) : Invocation -> List Word -> Prop
  | standalone : Written mode .standalone []
  | nested
      {word : Word}
      (isMode : word.is mode.keyword) :
      Written mode .nested [word]

end Mode

namespace Insert

/-- An Insert is written as its mode, which the operation of a method may leave
out. -/
inductive Written (insert : Insert) : Invocation -> List Word -> Prop
  | mode
      {invocation : Invocation}
      {word : Word}
      (isMode : word.is insert.mode.keyword) :
      Written insert invocation [word]
  | omitted : Written insert .standalone []

end Insert

namespace Payload

/-- Single fields are written by their keys, and the whole entity by no word. -/
inductive Written (schema : Schema) : Payload -> List Word -> Prop
  | document
      {param : String} :
      Written schema (.document param) []
  | fields
      {bindings : List FieldBinding}
      {run : List Word}
      (nonempty : run ≠ [])
      (keys : WrittenRow schema.KeyWritten (bindings.map FieldBinding.field) run) :
      Written schema (.fields bindings) run

end Payload

namespace Update

/-- An Update is written as its mode, `Upsert` if it is one, what it writes and
its query. If it is no upsert, then what it writes does not start with
`Upsert`. -/
inductive Written (schema : Schema) (update : Update) (invocation : Invocation) :
    List Word -> Prop
  | upsert
      {front fields query : List Word}
      {word : Word}
      (mode : update.mode.Written invocation front)
      (upserts : update.upsert = true)
      (isUpsert : word.is .upsert)
      (payload : update.payload.Written schema fields)
      (matching : update.query.Written schema query) :
      Written schema update invocation (front ++ (word :: fields) ++ query)
  | plain
      {front fields query : List Word}
      (mode : update.mode.Written invocation front)
      (updates : update.upsert = false)
      (noUpsert : ∀ word ∈ fields.head?, word.is .upsert = false)
      (payload : update.payload.Written schema fields)
      (matching : update.query.Written schema query) :
      Written schema update invocation (front ++ fields ++ query)

end Update

namespace Delete

/-- A Delete is written as its mode and its query. -/
inductive Written (schema : Schema) (delete : Delete) (invocation : Invocation) :
    List Word -> Prop
  | intro
      {front query : List Word}
      (mode : delete.mode.Written invocation front)
      (matching : delete.query.Written schema query) :
      Written schema delete invocation (front ++ query)

end Delete

/-! ## Searches -/

namespace SortField

/-- A sort key is written by its fields, with `Desc` behind them if it is
descending. -/
inductive Written (schema : Schema) : SortField -> List Word -> Prop
  | ascending
      {key : String}
      {run : List Word}
      (written : schema.KeyWritten key run) :
      Written schema ⟨key, .ascending⟩ run
  | descending
      {key : String}
      {run : List Word}
      {word : Word}
      (written : schema.KeyWritten key run)
      (isDesc : word.is .desc) :
      Written schema ⟨key, .descending⟩ (run ++ [word])

end SortField

namespace Find

namespace Setting

/-- A setting is written as one clause. -/
inductive Written (schema : Schema) : Setting -> List Word -> Prop
  | order
      {fields : List SortField}
      {word : Word}
      {body : List Word}
      (isOrder : word.is .order)
      (nonempty : fields ≠ [])
      (keys : WrittenRow (SortField.Written schema) fields body) :
      Written schema (.order fields) (word :: body)
  | skip
      {param : String}
      {word : Word}
      (isSkip : word.is .skip) :
      Written schema (.skip param) [word]
  | limit
      {param : String}
      {word : Word}
      (isLimit : word.is .limit) :
      Written schema (.limit param) [word]
  | query
      {query : Query}
      {run : List Word}
      (matching : query.Written schema run) :
      Written schema (.query query) run

end Setting

/-- What the clauses of a Find settle: an order unless there are no sort keys,
`Skip` and `Limit` where a parameter is bound for them, and the query. -/
def settings (find : Find) : List Setting :=
  (if find.sort.isEmpty then [] else [.order find.sort]) ++
    find.skip.toList.map .skip ++ find.limit.toList.map .limit ++ [.query find.query]

/-- A Find is written as its projection and its clauses in some order. -/
inductive Written (schema : Schema) (find : Find) : List Word -> Prop
  | intro
      {front back : List Word}
      {settings : List Setting}
      (projection : WrittenRow schema.KeyWritten find.projection front)
      (permuted : settings.Perm find.settings)
      (clauses : WrittenRow (Setting.Written schema) settings back) :
      Written schema find (front ++ back)

end Find

/-! ## Batches -/

namespace BulkStep

/-- A step of a Bulk is written as its keyword and its words as a step. -/
inductive Written (schema : Schema) : BulkStep -> List Word -> Prop
  | insert
      {record : Insert}
      {word : Word}
      {body : List Word}
      (isInsert : word.is .insert)
      (written : record.Written .nested body) :
      Written schema (.insert record) (word :: body)
  | update
      {record : Update}
      {word : Word}
      {body : List Word}
      (isUpdate : word.is .update)
      (written : record.Written schema .nested body) :
      Written schema (.update record) (word :: body)
  | delete
      {record : Delete}
      {word : Word}
      {body : List Word}
      (isDelete : word.is .delete)
      (written : record.Written schema .nested body) :
      Written schema (.delete record) (word :: body)

/-- The step of a Transaction that does the same. -/
def action : BulkStep -> TransactionAction
  | .insert record => .insert record
  | .update record => .update record
  | .delete record => .delete record

end BulkStep

namespace Bulk

/-- A Bulk is written as its steps. -/
def Written (schema : Schema) (bulk : Bulk) (run : List Word) : Prop :=
  WrittenRow (BulkStep.Written schema) bulk.steps run

end Bulk

namespace Resource

/-- Any collection but that of the repository is written as `Collection` and the
spelling of its handle. -/
inductive Written (handles : List CollectionHandle) : Resource -> List Word -> Prop
  | primary : Written handles .primary []
  | handle
      {handle : CollectionHandle}
      {word : Word}
      {name : List Word}
      (isCollection : word.is .collection)
      (member : handle ∈ handles)
      (nonempty : name ≠ [])
      (spelled : String.join (Word.texts name) = handle.spelling) :
      Written handles (.handle handle.param) (word :: name)

end Resource

namespace TransactionAction

/-- A single write is written as a step of a Bulk is, and a Bulk stands between
brackets. -/
inductive Written (schema : Schema) : TransactionAction -> List Word -> Prop
  | single
      {step : BulkStep}
      {run : List Word}
      (written : step.Written schema run) :
      Written schema step.action run
  | bulk
      {record : Bulk}
      {word opening closing : Word}
      {body : List Word}
      (isBulk : word.is .bulk)
      (opens : opening.is .leftBracket)
      (closes : closing.is .rightBracket)
      (written : record.Written schema body) :
      Written schema (.bulk record) (word :: opening :: body ++ [closing])

end TransactionAction

namespace TransactionStep

/-- A step of a Transaction is written as its collection and what it does
there. -/
inductive Written (schema : Schema) (handles : List CollectionHandle) (step : TransactionStep) :
    List Word -> Prop
  | intro
      {front body : List Word}
      (resource : step.resource.Written handles front)
      (action : step.action.Written schema body) :
      Written schema handles step (front ++ body)

end TransactionStep

namespace Transaction

/-- A Transaction is written as its steps. -/
def Written (schema : Schema) (transaction : Transaction) (run : List Word) : Prop :=
  WrittenRow (TransactionStep.Written schema transaction.collections) transaction.steps run

end Transaction

/-! ## Operations -/

namespace Operation

/-- The words behind the keyword of an operation. -/
def BodyWritten (schema : Schema) (run : List Word) : Operation -> Prop
  | .insert record => record.Written .standalone run
  | .find record => record.Written schema run
  | .update record => record.Written schema .standalone run
  | .delete record => record.Written schema .standalone run
  | .count record => record.query.Written schema run
  | .transaction record => record.Written schema run
  | .bulk record => record.Written schema run

/-- An operation is written as its keyword and the words of its parts. -/
inductive Written (schema : Schema) (operation : Operation) : List Word -> Prop
  | intro
      {word : Word}
      {body : List Word}
      (isKind : word.is operation.kind.keyword)
      (parts : operation.BodyWritten schema body) :
      Written schema operation (word :: body)

end Operation

end DerivedQuery
