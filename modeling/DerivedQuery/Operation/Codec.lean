import DerivedQuery.Operation
import DerivedQuery.Query.Codec

/-!
# Operations as JSON
-/

namespace DerivedQuery

namespace Mode

/-- Modes. -/
def codec : Codec Mode :=
  Codec.enumeration all name

end Mode

namespace Insert

/-- Insertions. -/
def codec : Codec Insert :=
  (Codec.Record.build Insert.mk
    |>.required "method" Codec.string Insert.method
    |>.required "mode" Mode.codec Insert.mode
    |>.optional "ctx_param" Codec.string Insert.context
    |>.required "document_param" Codec.string Insert.document).codec

end Insert

namespace SortDirection

/-- Sort directions. -/
def codec : Codec SortDirection :=
  Codec.enumeration all name

end SortDirection

namespace SortField

/-- Sort keys. -/
def codec : Codec SortField :=
  (Codec.Record.build SortField.mk
    |>.required "key" Codec.string SortField.key
    |>.required "direction" SortDirection.codec SortField.direction).codec

end SortField

namespace Find

/-- Searches. -/
def codec : Codec Find :=
  (Codec.Record.build Find.mk
    |>.required "method" Codec.string Find.method
    |>.required "mode" Mode.codec Find.mode
    |>.required "ctx_param" Codec.string Find.context
    |>.required "return_type" Codec.typeExpr Find.returnType
    |>.required "projection" Codec.string.list Find.projection
    |>.required "sort" SortField.codec.list Find.sort
    |>.optional "skip_param" Codec.string Find.skip
    |>.optional "limit_param" Codec.string Find.limit
    |>.required "query" Query.codec Find.query).codec

end Find

namespace FieldBinding

/-- Field bindings. -/
def codec : Codec FieldBinding :=
  (Codec.Record.build FieldBinding.mk
    |>.required "field" Codec.string FieldBinding.field
    |>.required "param" Codec.string FieldBinding.param).codec

end FieldBinding

namespace Payload

/-- Payloads. -/
def codec : Codec Payload :=
  Codec.tagged
    [.holding "Document" Codec.string .document,
      .holding "Fields" FieldBinding.codec.list .fields]
    fun payload =>
      match payload with
      | .document param => .tagged "Document" (Codec.string.write param)
      | .fields bindings => .tagged "Fields" (FieldBinding.codec.list.write bindings)

end Payload

namespace Update

/-- Updates. -/
def codec : Codec Update :=
  (Codec.Record.build Update.mk
    |>.required "method" Codec.string Update.method
    |>.required "mode" Mode.codec Update.mode
    |>.optional "ctx_param" Codec.string Update.context
    |>.required "upsert" Codec.bool Update.upsert
    |>.required "payload" Payload.codec Update.payload
    |>.required "query" Query.codec Update.query).codec

end Update

namespace Delete

/-- Deletions. -/
def codec : Codec Delete :=
  (Codec.Record.build Delete.mk
    |>.required "method" Codec.string Delete.method
    |>.required "mode" Mode.codec Delete.mode
    |>.optional "ctx_param" Codec.string Delete.context
    |>.required "query" Query.codec Delete.query).codec

end Delete

namespace Count

/-- Counts. -/
def codec : Codec Count :=
  (Codec.Record.build Count.mk
    |>.required "method" Codec.string Count.method
    |>.required "ctx_param" Codec.string Count.context
    |>.required "query" Query.codec Count.query).codec

end Count

namespace BulkStep

/-- Steps of a Bulk. -/
def codec : Codec BulkStep :=
  Codec.tagged
    [.holding "Insert" Insert.codec .insert,
      .holding "Update" Update.codec .update,
      .holding "Delete" Delete.codec .delete]
    fun step =>
      match step with
      | .insert record => .tagged "Insert" (Insert.codec.write record)
      | .update record => .tagged "Update" (Update.codec.write record)
      | .delete record => .tagged "Delete" (Delete.codec.write record)

end BulkStep

namespace Bulk

/-- Batches. -/
def codec : Codec Bulk :=
  (Codec.Record.build Bulk.mk
    |>.required "method" Codec.string Bulk.method
    |>.optional "ctx_param" Codec.string Bulk.context
    |>.required "operations" BulkStep.codec.list Bulk.steps).codec

end Bulk

namespace CollectionHandle

/-- Collection handles. -/
def codec : Codec CollectionHandle :=
  (Codec.Record.build CollectionHandle.mk
    |>.required "alias" Codec.string CollectionHandle.spelling
    |>.required "param" Codec.string CollectionHandle.param).codec

end CollectionHandle

namespace Resource

/-- Resources. -/
def codec : Codec Resource :=
  Codec.tagged
    [.plain "Primary" .primary, .holding "Param" Codec.string .handle]
    fun resource =>
      match resource with
      | .primary => .string "Primary"
      | .handle param => .tagged "Param" (Codec.string.write param)

end Resource

namespace TransactionAction

/-- What steps of a Transaction do. -/
def codec : Codec TransactionAction :=
  Codec.tagged
    [.holding "Insert" Insert.codec .insert,
      .holding "Update" Update.codec .update,
      .holding "Delete" Delete.codec .delete,
      .holding "Bulk" Bulk.codec .bulk]
    fun action =>
      match action with
      | .insert record => .tagged "Insert" (Insert.codec.write record)
      | .update record => .tagged "Update" (Update.codec.write record)
      | .delete record => .tagged "Delete" (Delete.codec.write record)
      | .bulk record => .tagged "Bulk" (Bulk.codec.write record)

end TransactionAction

namespace TransactionStep

/-- Steps of a Transaction. -/
def codec : Codec TransactionStep :=
  (Codec.Record.build TransactionStep.mk
    |>.required "resource" Resource.codec TransactionStep.resource
    |>.required "operation" TransactionAction.codec TransactionStep.action).codec

end TransactionStep

namespace Transaction

/-- Transactions. -/
def codec : Codec Transaction :=
  (Codec.Record.build Transaction.mk
    |>.required "method" Codec.string Transaction.method
    |>.required "ctx_param" Codec.string Transaction.context
    |>.required "client_param" Codec.string Transaction.client
    |>.required "collections" CollectionHandle.codec.list Transaction.collections
    |>.required "steps" TransactionStep.codec.list Transaction.steps).codec

end Transaction

namespace Operation

/-- Operations. -/
def codec : Codec Operation :=
  Codec.tagged
    [.holding "Insert" Insert.codec .insert,
      .holding "Find" Find.codec .find,
      .holding "Update" Update.codec .update,
      .holding "Delete" Delete.codec .delete,
      .holding "Count" Count.codec .count,
      .holding "Transaction" Transaction.codec .transaction,
      .holding "Bulk" Bulk.codec .bulk]
    fun operation =>
      match operation with
      | .insert record => .tagged "Insert" (Insert.codec.write record)
      | .find record => .tagged "Find" (Find.codec.write record)
      | .update record => .tagged "Update" (Update.codec.write record)
      | .delete record => .tagged "Delete" (Delete.codec.write record)
      | .count record => .tagged "Count" (Count.codec.write record)
      | .transaction record => .tagged "Transaction" (Transaction.codec.write record)
      | .bulk record => .tagged "Bulk" (Bulk.codec.write record)

end Operation

end DerivedQuery
