import DerivedQuery.Proofs.JsonText
import DerivedQuery.Report

/-!
# Written results

Codecs that are made of plain ones write plain values only. The results of a
compilation are written with such codecs, so their text is always read back.
-/

namespace DerivedQuery

theorem Json.Plain.tagged
    {content : Json}
    (plain : content.Plain)
    (name : String) :
    (Json.tagged name content).Plain :=
  .object (List.forall_mem_singleton.2 plain)

namespace Codec

variable {α β Whole : Type}

/-- Every value is written as a plain one. -/
def WritesPlain (codec : Codec α) : Prop :=
  ∀ value, (codec.write value).Plain

namespace WritesPlain

theorem string : Codec.string.WritesPlain :=
  Json.Plain.string

theorem bool : Codec.bool.WritesPlain :=
  Json.Plain.bool

theorem natural : Codec.natural.WritesPlain :=
  Json.Plain.natural

theorem typeExpr : Codec.typeExpr.WritesPlain :=
  fun type => .string type.render

theorem enumeration
    (values : List α)
    (name : α -> String) :
    (Codec.enumeration values name).WritesPlain :=
  fun value => .string (name value)

theorem list
    {codec : Codec α}
    (plain : codec.WritesPlain) :
    codec.list.WritesPlain :=
  fun _ => .array (List.forall_mem_map.2 fun value _ => plain value)

theorem optional
    {codec : Codec α}
    (plain : codec.WritesPlain) :
    codec.optional.WritesPlain := by
  intro value
  cases value with
  | none => exact .null
  | some value => exact plain value

theorem fix
    {layer : Codec α -> Codec α}
    (plain : ∀ {part : Codec α}, part.WritesPlain -> (layer part).WritesPlain)
    (height : α -> Nat) :
    (Codec.fix layer height).WritesPlain := by
  have approximated (count : Nat) : (approximation layer count).WritesPlain := by
    induction count with
    | zero => exact fun _ => .null
    | succ count hypothesis => exact plain hypothesis
  exact fun value => approximated (height value + 1) value

end WritesPlain

namespace Record

/-- Every member is written as a plain value. -/
def WritesPlain (record : Record Whole α) : Prop :=
  ∀ whole, ∀ member ∈ record.write whole, member.2.Plain

namespace WritesPlain

theorem build (make : α) : (Record.build make : Record Whole α).WritesPlain :=
  fun _ _ member => absurd member List.not_mem_nil

theorem member
    {codec : Codec α}
    {record : Record Whole (α -> β)}
    (plain : record.WritesPlain)
    (key : String)
    (codecPlain : codec.WritesPlain)
    (get : Whole -> α)
    (absence : Absence α)
    (omitted : α -> Bool) :
    (record.member key codec get absence omitted).WritesPlain := by
  intro whole
  refine List.forall_mem_append.2 ⟨plain whole, ?_⟩
  split
  · exact fun _ member => absurd member List.not_mem_nil
  · exact List.forall_mem_singleton.2 (codecPlain (get whole))

theorem required
    {codec : Codec α}
    {record : Record Whole (α -> β)}
    (plain : record.WritesPlain)
    (key : String)
    (codecPlain : codec.WritesPlain)
    (get : Whole -> α) :
    (record.required key codec get).WritesPlain :=
  plain.member key codecPlain get _ _

theorem optional
    {codec : Codec α}
    {record : Record Whole (Option α -> β)}
    (plain : record.WritesPlain)
    (key : String)
    (codecPlain : codec.WritesPlain)
    (get : Whole -> Option α) :
    (record.optional key codec get).WritesPlain :=
  plain.member key codecPlain.optional get _ _

theorem codec
    {record : Record Whole Whole}
    (plain : record.WritesPlain) :
    record.codec.WritesPlain :=
  fun whole => .object (plain whole)

end WritesPlain

end Record

end Codec

/-! ## Operations -/

open Codec.Record.WritesPlain (build)

theorem Condition.writesPlain : Condition.codec.WritesPlain :=
  (build Condition.mk
    |>.required "comparator" (.enumeration _ _) _
    |>.required "field" .string _
    |>.required "params" (.list .string) _).codec

theorem QueryExpr.writesPlain : QueryExpr.codec.WritesPlain := by
  refine .fix ?_ height
  intro part plain expr
  cases expr with
  | leaf condition => exact .tagged (Condition.writesPlain condition) "Leaf"
  | node connective left right =>
      have branch : (Branch.codec part).WritesPlain :=
        (build Branch.mk
          |>.required "connective" (.enumeration _ _) _
          |>.required "left" plain _
          |>.required "right" plain _).codec
      exact .tagged (branch ⟨connective, left, right⟩) "Node"

theorem Query.writesPlain : Query.codec.WritesPlain := by
  intro query
  cases query with
  | all => exact .string "All"
  | matching expr => exact .tagged (QueryExpr.writesPlain expr) "By"

theorem Insert.writesPlain : Insert.codec.WritesPlain :=
  (build Insert.mk
    |>.required "method" .string _
    |>.required "mode" (.enumeration _ _) _
    |>.optional "ctx_param" .string _
    |>.required "document_param" .string _).codec

theorem SortField.writesPlain : SortField.codec.WritesPlain :=
  (build SortField.mk
    |>.required "key" .string _
    |>.required "direction" (.enumeration _ _) _).codec

theorem Find.writesPlain : Find.codec.WritesPlain :=
  (build Find.mk
    |>.required "method" .string _
    |>.required "mode" (.enumeration _ _) _
    |>.required "ctx_param" .string _
    |>.required "return_type" .typeExpr _
    |>.required "projection" (.list .string) _
    |>.required "sort" (.list SortField.writesPlain) _
    |>.optional "skip_param" .string _
    |>.optional "limit_param" .string _
    |>.required "query" Query.writesPlain _).codec

theorem FieldBinding.writesPlain : FieldBinding.codec.WritesPlain :=
  (build FieldBinding.mk
    |>.required "field" .string _
    |>.required "param" .string _).codec

theorem Payload.writesPlain : Payload.codec.WritesPlain := by
  intro payload
  cases payload with
  | document param => exact .tagged (.string param) "Document"
  | fields bindings => exact .tagged (FieldBinding.writesPlain.list bindings) "Fields"

theorem Update.writesPlain : Update.codec.WritesPlain :=
  (build Update.mk
    |>.required "method" .string _
    |>.required "mode" (.enumeration _ _) _
    |>.optional "ctx_param" .string _
    |>.required "upsert" .bool _
    |>.required "payload" Payload.writesPlain _
    |>.required "query" Query.writesPlain _).codec

theorem Delete.writesPlain : Delete.codec.WritesPlain :=
  (build Delete.mk
    |>.required "method" .string _
    |>.required "mode" (.enumeration _ _) _
    |>.optional "ctx_param" .string _
    |>.required "query" Query.writesPlain _).codec

theorem Count.writesPlain : Count.codec.WritesPlain :=
  (build Count.mk
    |>.required "method" .string _
    |>.required "ctx_param" .string _
    |>.required "query" Query.writesPlain _).codec

theorem BulkStep.writesPlain : BulkStep.codec.WritesPlain := by
  intro step
  cases step with
  | insert record => exact .tagged (Insert.writesPlain record) "Insert"
  | update record => exact .tagged (Update.writesPlain record) "Update"
  | delete record => exact .tagged (Delete.writesPlain record) "Delete"

theorem Bulk.writesPlain : Bulk.codec.WritesPlain :=
  (build Bulk.mk
    |>.required "method" .string _
    |>.optional "ctx_param" .string _
    |>.required "operations" (.list BulkStep.writesPlain) _).codec

theorem CollectionHandle.writesPlain : CollectionHandle.codec.WritesPlain :=
  (build CollectionHandle.mk
    |>.required "alias" .string _
    |>.required "param" .string _).codec

theorem Resource.writesPlain : Resource.codec.WritesPlain := by
  intro resource
  cases resource with
  | primary => exact .string "Primary"
  | handle param => exact .tagged (.string param) "Param"

theorem TransactionAction.writesPlain : TransactionAction.codec.WritesPlain := by
  intro action
  cases action with
  | insert record => exact .tagged (Insert.writesPlain record) "Insert"
  | update record => exact .tagged (Update.writesPlain record) "Update"
  | delete record => exact .tagged (Delete.writesPlain record) "Delete"
  | bulk record => exact .tagged (Bulk.writesPlain record) "Bulk"

theorem TransactionStep.writesPlain : TransactionStep.codec.WritesPlain :=
  (build TransactionStep.mk
    |>.required "resource" Resource.writesPlain _
    |>.required "operation" TransactionAction.writesPlain _).codec

theorem Transaction.writesPlain : Transaction.codec.WritesPlain :=
  (build Transaction.mk
    |>.required "method" .string _
    |>.required "ctx_param" .string _
    |>.required "client_param" .string _
    |>.required "collections" (.list CollectionHandle.writesPlain) _
    |>.required "steps" (.list TransactionStep.writesPlain) _).codec

theorem Operation.writesPlain : Operation.codec.WritesPlain := by
  intro operation
  cases operation with
  | insert record => exact .tagged (Insert.writesPlain record) "Insert"
  | find record => exact .tagged (Find.writesPlain record) "Find"
  | update record => exact .tagged (Update.writesPlain record) "Update"
  | delete record => exact .tagged (Delete.writesPlain record) "Delete"
  | count record => exact .tagged (Count.writesPlain record) "Count"
  | transaction record => exact .tagged (Transaction.writesPlain record) "Transaction"
  | bulk record => exact .tagged (Bulk.writesPlain record) "Bulk"

/-! ## Results -/

theorem Span.writesPlain : Span.codec.WritesPlain :=
  (build Span.mk
    |>.required "start" .natural _
    |>.required "end" .natural _).codec

theorem MethodError.plain_toJson (error : MethodError) : error.toJson.Plain := by
  refine .object ?_
  simp only [List.forall_mem_cons]
  exact ⟨.string _, .string _, .string _, Span.writesPlain.optional error.fault.span,
    List.forall_mem_nil _⟩

theorem CompiledInterface.plain_toJson (compiled : CompiledInterface) : compiled.toJson.Plain := by
  refine .object ?_
  simp only [List.forall_mem_cons]
  refine ⟨.string _, .array ?_, List.forall_mem_nil _⟩
  rw [List.forall_mem_map]
  intro result _
  cases result with
  | ok operation => exact .tagged (Operation.writesPlain operation) "Ok"
  | error error => exact .tagged error.plain_toJson "Err"

end DerivedQuery
