import DerivedQuery.Config.Codec
import DerivedQuery.Method.Codec
import DerivedQuery.Operation.Codec
import DerivedQuery.Proofs.CodecLaws
import DerivedQuery.Proofs.FieldChain

/-!
# Documents and what they describe

Schemas, methods, interface files, configurations and operations are written so
that reading gives them back, as long as their types have proper names. What was
read from a document always has proper names, so reading and writing again
changes nothing, however the document was spelled.
-/

namespace DerivedQuery

/-! ## Proper names -/

namespace Schema

/-- The types of all fields, at any level of nesting, have proper names. -/
def WellNamed (schema : Schema) : Prop :=
  ∀ chain, schema.Chain chain -> ∀ field ∈ chain, field.type.WellNamed

theorem wellNamed_iff
    {schema : Schema} :
    schema.WellNamed ↔
      ∀ field ∈ schema.fields, field.type.WellNamed ∧
        ∀ inner, field.nested = some inner -> inner.WellNamed :=
  forall_mem_chain_iff

end Schema

/-- The types of all parameters and results have proper names. -/
def Method.WellNamed (method : Method) : Prop :=
  (∀ param ∈ method.params, param.type.WellNamed) ∧ ∀ type ∈ method.returns, type.WellNamed

/-- The types of the schema and of all methods have proper names. -/
def Interface.WellNamed (interface : Interface) : Prop :=
  interface.schema.WellNamed ∧ ∀ method ∈ interface.methods, method.WellNamed

/-- The types of all interfaces have proper names. -/
def InterfaceFile.WellNamed (file : InterfaceFile) : Prop :=
  ∀ interface ∈ file.interfaces, interface.WellNamed

namespace Config

/-- The types that a configuration names. -/
def types (config : Config) : List TypeExpr :=
  [config.contextType, config.errorType, config.clientType, config.collectionType,
    config.bulkResult, config.insertOneResult, config.insertManyResult, config.oneResult,
    config.manyResult, config.countResult, config.pagingType]

/-- The types of a configuration have proper names. -/
def WellNamed (config : Config) : Prop :=
  ∀ type ∈ config.types, type.WellNamed

end Config

/-- The type that an operation holds has proper names. -/
def Operation.WellNamed : Operation -> Prop
  | .find record => record.returnType.WellNamed
  | _ => True

/-! ## Reading back -/

open Codec (ReadsBack)
open Codec.Record (Faithful)

variable {arrangement : Json.Arrangement}
variable {bound : Nat}

theorem FieldOf.readsBack
    {Nested : Type}
    {reader writer : Codec Nested}
    {field : FieldOf Nested}
    (wellNamed : field.type.WellNamed)
    (back : ReadsBack arrangement bound reader.optional writer.optional field.nested) :
    ReadsBack arrangement bound (FieldOf.codec reader) (FieldOf.codec writer) field :=
  (Faithful.build FieldOf.mk
    |>.required "name" (by decide) (Codec.readsBack_string _)
    |>.required "storage_key" (by decide) (Codec.readsBack_string _)
    |>.required "type" (by decide) (Codec.readsBack_typeExpr wellNamed)
    |>.omissible "nested" (by decide) back).codec

/-- A schema is read back if the schemas nested in it are. -/
theorem Schema.readsBack
    {schema : Schema}
    (wellNamed : schema.WellNamed) :
    ReadsBack arrangement bound Schema.codec Schema.codec schema := by
  refine Codec.readsBack_fix Schema.WellNamed nofun ?_ wellNamed
  intro bound reader writer schema wellNamed smaller
  rw [wellNamed_iff] at wellNamed
  have fields : ReadsBack arrangement bound (FieldOf.codec reader).list (FieldOf.codec writer).list
      schema.fields := by
    apply ReadsBack.list
    intro field member
    have below {inner : Schema} (nested : field.nested = some inner) :=
      smaller inner ((wellNamed field member).2 inner nested) (height_lt_of_nested member nested)
    apply FieldOf.readsBack (wellNamed field member).1
    exact .optional (fun _ nested => (below nested).1) (fun _ nested => (below nested).2)
  obtain ⟨name, _⟩ := schema
  exact (Faithful.build Schema.mk
    |>.required "name" (by decide) (Codec.readsBack_string name)
    |>.defaulted "fields" (by decide) fields).codec_succ

theorem Param.readsBack
    {param : Param}
    (wellNamed : param.type.WellNamed) :
    ReadsBack arrangement bound Param.codec Param.codec param :=
  (Faithful.build Param.mk
    |>.required "name" (by decide) (Codec.readsBack_string _)
    |>.required "type" (by decide) (Codec.readsBack_typeExpr wellNamed)).codec

theorem Method.readsBack
    {method : Method}
    (wellNamed : method.WellNamed) :
    ReadsBack arrangement bound Method.codec Method.codec method :=
  (Faithful.build Method.mk
    |>.required "name" (by decide) (Codec.readsBack_string _)
    |>.required "descriptor" (by decide) (Codec.readsBack_string _)
    |>.defaulted "params" (by decide) (.list fun param member =>
      Param.readsBack (wellNamed.1 param member))
    |>.defaulted "returns" (by decide) (.list fun type member =>
      Codec.readsBack_typeExpr (wellNamed.2 type member))).codec

theorem Interface.readsBack
    {interface : Interface}
    (wellNamed : interface.WellNamed) :
    ReadsBack arrangement bound Interface.codec Interface.codec interface :=
  (Faithful.build Interface.mk
    |>.required "name" (by decide) (Codec.readsBack_string _)
    |>.required "schema" (by decide) (Schema.readsBack wellNamed.1)
    |>.defaulted "methods" (by decide) (.list fun method member =>
      Method.readsBack (wellNamed.2 method member))).codec

theorem InterfaceFile.readsBack
    {file : InterfaceFile}
    (wellNamed : file.WellNamed) :
    ReadsBack arrangement bound InterfaceFile.codec InterfaceFile.codec file :=
  (Faithful.build InterfaceFile.mk
    |>.defaulted "interfaces" (by decide) (.list fun interface member =>
      Interface.readsBack (wellNamed interface member))).codec

theorem SplitStrategy.readsBack (strategy : SplitStrategy) :
    ReadsBack arrangement bound SplitStrategy.codec SplitStrategy.codec strategy := by
  apply Codec.readsBack_enumeration <;> cases strategy <;> decide

/-- A type of a configuration is a member with a default. -/
theorem Config.faithful_typeMember
    {β : Type}
    {keys : List String}
    {config : Config}
    {reader writer : Codec.Record Config (TypeExpr -> β)}
    {make : TypeExpr -> β}
    {get : Config -> TypeExpr}
    (faithful : Faithful arrangement bound keys reader writer config make)
    (key : String)
    (fresh : key ∉ keys)
    (wellNamed : (get config).WellNamed) :
    Faithful arrangement bound (key :: keys) (typeMember reader key get)
      (typeMember writer key get) config (make (get config)) :=
  faithful.defaulted key fresh (Codec.readsBack_typeExpr wellNamed)

theorem Config.readsBack
    {config : Config}
    (wellNamed : config.WellNamed) :
    ReadsBack arrangement bound Config.codec Config.codec config := by
  simp only [WellNamed, types, List.forall_mem_cons, List.not_mem_nil, false_implies,
    implies_true, and_true] at wellNamed
  obtain ⟨context, error, client, collection, bulk, insertOne, insertMany, one, many, count,
    paging⟩ := wellNamed
  exact (Faithful.build Config.mk
    |> (faithful_typeMember · "context_type" (by decide) context)
    |> (faithful_typeMember · "error_type" (by decide) error)
    |> (faithful_typeMember · "client_type" (by decide) client)
    |> (faithful_typeMember · "collection_type" (by decide) collection)
    |> (faithful_typeMember · "bulk_result_type" (by decide) bulk)
    |> (faithful_typeMember · "insert_one_result" (by decide) insertOne)
    |> (faithful_typeMember · "insert_many_result" (by decide) insertMany)
    |> (faithful_typeMember · "one_result" (by decide) one)
    |> (faithful_typeMember · "many_result" (by decide) many)
    |> (faithful_typeMember · "count_result" (by decide) count)
    |> (faithful_typeMember · "paging_type" (by decide) paging)
    |>.defaulted "split_strategy" (by decide) (SplitStrategy.readsBack _)).codec

theorem Comparator.readsBack (comparator : Comparator) :
    ReadsBack arrangement bound Comparator.codec Comparator.codec comparator := by
  apply Codec.readsBack_enumeration <;> cases comparator <;> decide

theorem Connective.readsBack (connective : Connective) :
    ReadsBack arrangement bound Connective.codec Connective.codec connective := by
  apply Codec.readsBack_enumeration <;> cases connective <;> decide

theorem Condition.readsBack (condition : Condition) :
    ReadsBack arrangement bound Condition.codec Condition.codec condition :=
  (Faithful.build Condition.mk
    |>.required "comparator" (by decide) (Comparator.readsBack _)
    |>.required "field" (by decide) (Codec.readsBack_string _)
    |>.required "params" (by decide) (.list fun _ _ => Codec.readsBack_string _)).codec

/-- A tree of conditions is read back if the parts of its connective are. -/
theorem QueryExpr.readsBack (expr : QueryExpr) :
    ReadsBack arrangement bound QueryExpr.codec QueryExpr.codec expr := by
  refine Codec.readsBack_fix (fun _ => True) ?_ ?_ trivial
  · intro codec expr
    cases expr <;> nofun
  · intro bound reader writer expr _ smaller
    cases expr with
    | leaf condition => exact .holding (Condition.readsBack condition) rfl rfl rfl
    | node connective left right =>
        have below (part : QueryExpr) (lower : part.height < (node connective left right).height) :=
          (smaller part trivial lower).1
        have branch : ReadsBack arrangement (bound + 1) (Branch.codec reader) (Branch.codec writer)
            ⟨connective, left, right⟩ :=
          (Faithful.build Branch.mk
            |>.required "connective" (by decide) (Connective.readsBack _)
            |>.required "left" (by decide) (below left (by simp only [height]; omega))
            |>.required "right" (by decide) (below right (by simp only [height]; omega))).codec_succ
        exact .holding branch rfl rfl rfl

theorem Query.readsBack (query : Query) :
    ReadsBack arrangement bound Query.codec Query.codec query := by
  cases query with
  | all => exact Codec.readsBack_plain rfl rfl
  | matching expr => exact .holding (QueryExpr.readsBack expr) rfl rfl rfl

theorem Mode.readsBack (mode : Mode) :
    ReadsBack arrangement bound Mode.codec Mode.codec mode := by
  apply Codec.readsBack_enumeration <;> cases mode <;> decide

/-- The name of a parameter that may not be there. -/
theorem readsBack_paramName (name : Option String) :
    ReadsBack arrangement bound Codec.string.optional Codec.string.optional name :=
  .optional (fun _ _ => Codec.readsBack_string _) (fun _ _ => nofun)

theorem Insert.readsBack (insert : Insert) :
    ReadsBack arrangement bound Insert.codec Insert.codec insert :=
  (Faithful.build Insert.mk
    |>.required "method" (by decide) (Codec.readsBack_string _)
    |>.required "mode" (by decide) (Mode.readsBack _)
    |>.optional "ctx_param" (by decide) (readsBack_paramName _)
    |>.required "document_param" (by decide) (Codec.readsBack_string _)).codec

theorem SortDirection.readsBack (direction : SortDirection) :
    ReadsBack arrangement bound SortDirection.codec SortDirection.codec direction := by
  apply Codec.readsBack_enumeration <;> cases direction <;> decide

theorem SortField.readsBack (field : SortField) :
    ReadsBack arrangement bound SortField.codec SortField.codec field :=
  (Faithful.build SortField.mk
    |>.required "key" (by decide) (Codec.readsBack_string _)
    |>.required "direction" (by decide) (SortDirection.readsBack _)).codec

theorem Find.readsBack
    {find : Find}
    (wellNamed : find.returnType.WellNamed) :
    ReadsBack arrangement bound Find.codec Find.codec find :=
  (Faithful.build Find.mk
    |>.required "method" (by decide) (Codec.readsBack_string _)
    |>.required "mode" (by decide) (Mode.readsBack _)
    |>.required "ctx_param" (by decide) (Codec.readsBack_string _)
    |>.required "return_type" (by decide) (Codec.readsBack_typeExpr wellNamed)
    |>.required "projection" (by decide) (.list fun _ _ => Codec.readsBack_string _)
    |>.required "sort" (by decide) (.list fun field _ => SortField.readsBack field)
    |>.optional "skip_param" (by decide) (readsBack_paramName _)
    |>.optional "limit_param" (by decide) (readsBack_paramName _)
    |>.required "query" (by decide) (Query.readsBack _)).codec

theorem FieldBinding.readsBack (record : FieldBinding) :
    ReadsBack arrangement bound FieldBinding.codec FieldBinding.codec record :=
  (Faithful.build FieldBinding.mk
    |>.required "field" (by decide) (Codec.readsBack_string _)
    |>.required "param" (by decide) (Codec.readsBack_string _)).codec

theorem Payload.readsBack (payload : Payload) :
    ReadsBack arrangement bound Payload.codec Payload.codec payload := by
  cases payload with
  | document param => exact .holding (Codec.readsBack_string param) rfl rfl rfl
  | fields bindings =>
      exact .holding (.list fun record _ => FieldBinding.readsBack record) rfl rfl rfl

theorem Update.readsBack (update : Update) :
    ReadsBack arrangement bound Update.codec Update.codec update :=
  (Faithful.build Update.mk
    |>.required "method" (by decide) (Codec.readsBack_string _)
    |>.required "mode" (by decide) (Mode.readsBack _)
    |>.optional "ctx_param" (by decide) (readsBack_paramName _)
    |>.required "upsert" (by decide) (Codec.readsBack_bool _)
    |>.required "payload" (by decide) (Payload.readsBack _)
    |>.required "query" (by decide) (Query.readsBack _)).codec

theorem Delete.readsBack (delete : Delete) :
    ReadsBack arrangement bound Delete.codec Delete.codec delete :=
  (Faithful.build Delete.mk
    |>.required "method" (by decide) (Codec.readsBack_string _)
    |>.required "mode" (by decide) (Mode.readsBack _)
    |>.optional "ctx_param" (by decide) (readsBack_paramName _)
    |>.required "query" (by decide) (Query.readsBack _)).codec

theorem Count.readsBack (count : Count) :
    ReadsBack arrangement bound Count.codec Count.codec count :=
  (Faithful.build Count.mk
    |>.required "method" (by decide) (Codec.readsBack_string _)
    |>.required "ctx_param" (by decide) (Codec.readsBack_string _)
    |>.required "query" (by decide) (Query.readsBack _)).codec

theorem BulkStep.readsBack (step : BulkStep) :
    ReadsBack arrangement bound BulkStep.codec BulkStep.codec step := by
  cases step with
  | insert record => exact .holding (Insert.readsBack record) rfl rfl rfl
  | update record => exact .holding (Update.readsBack record) rfl rfl rfl
  | delete record => exact .holding (Delete.readsBack record) rfl rfl rfl

theorem Bulk.readsBack (bulk : Bulk) :
    ReadsBack arrangement bound Bulk.codec Bulk.codec bulk :=
  (Faithful.build Bulk.mk
    |>.required "method" (by decide) (Codec.readsBack_string _)
    |>.optional "ctx_param" (by decide) (readsBack_paramName _)
    |>.required "operations" (by decide) (.list fun step _ => BulkStep.readsBack step)).codec

theorem CollectionHandle.readsBack (handle : CollectionHandle) :
    ReadsBack arrangement bound CollectionHandle.codec CollectionHandle.codec handle :=
  (Faithful.build CollectionHandle.mk
    |>.required "alias" (by decide) (Codec.readsBack_string _)
    |>.required "param" (by decide) (Codec.readsBack_string _)).codec

theorem Resource.readsBack (resource : Resource) :
    ReadsBack arrangement bound Resource.codec Resource.codec resource := by
  cases resource with
  | primary => exact Codec.readsBack_plain rfl rfl
  | handle param => exact .holding (Codec.readsBack_string param) rfl rfl rfl

theorem TransactionAction.readsBack (action : TransactionAction) :
    ReadsBack arrangement bound TransactionAction.codec TransactionAction.codec action := by
  cases action with
  | insert record => exact .holding (Insert.readsBack record) rfl rfl rfl
  | update record => exact .holding (Update.readsBack record) rfl rfl rfl
  | delete record => exact .holding (Delete.readsBack record) rfl rfl rfl
  | bulk record => exact .holding (Bulk.readsBack record) rfl rfl rfl

theorem TransactionStep.readsBack (step : TransactionStep) :
    ReadsBack arrangement bound TransactionStep.codec TransactionStep.codec step :=
  (Faithful.build TransactionStep.mk
    |>.required "resource" (by decide) (Resource.readsBack _)
    |>.required "operation" (by decide) (TransactionAction.readsBack _)).codec

theorem Transaction.readsBack (transaction : Transaction) :
    ReadsBack arrangement bound Transaction.codec Transaction.codec transaction :=
  (Faithful.build Transaction.mk
    |>.required "method" (by decide) (Codec.readsBack_string _)
    |>.required "ctx_param" (by decide) (Codec.readsBack_string _)
    |>.required "client_param" (by decide) (Codec.readsBack_string _)
    |>.required "collections" (by decide) (.list fun handle _ => CollectionHandle.readsBack handle)
    |>.required "steps" (by decide) (.list fun step _ => TransactionStep.readsBack step)).codec

theorem Operation.readsBack
    {operation : Operation}
    (wellNamed : operation.WellNamed) :
    ReadsBack arrangement bound Operation.codec Operation.codec operation := by
  cases operation with
  | insert record => exact .holding (Insert.readsBack record) rfl rfl rfl
  | find record => exact .holding (Find.readsBack wellNamed) rfl rfl rfl
  | update record => exact .holding (Update.readsBack record) rfl rfl rfl
  | delete record => exact .holding (Delete.readsBack record) rfl rfl rfl
  | count record => exact .holding (Count.readsBack record) rfl rfl rfl
  | transaction record => exact .holding (Transaction.readsBack record) rfl rfl rfl
  | bulk record => exact .holding (Bulk.readsBack record) rfl rfl rfl

/-! ## What documents give -/

open Codec.Record (ensures_build)

theorem FieldOf.ensures
    {Nested : Type}
    {nested : Codec Nested}
    {property : Nested -> Prop}
    (ensures : nested.Ensures property) :
    (FieldOf.codec nested).Ensures fun field =>
      field.type.WellNamed ∧ ∀ inner, field.nested = some inner -> property inner := by
  refine Codec.Record.Ensures.codec ?_
  refine Codec.Record.Ensures.omissible ensures ?_
  refine Codec.Record.Ensures.required Codec.ensures_typeExpr ?_
  refine Codec.Record.Ensures.required (Codec.ensures_nothing _) ?_
  refine Codec.Record.Ensures.required (Codec.ensures_nothing _) ?_
  refine ensures_build ?_
  intro name _ key _ type wellNamed nested below
  exact ⟨wellNamed, below⟩

theorem Schema.ensures : Schema.codec.Ensures Schema.WellNamed := by
  refine Codec.ensures_fix ?_
  intro nested ensures
  refine Codec.Record.Ensures.codec ?_
  refine Codec.Record.Ensures.defaulted (FieldOf.ensures ensures).list (by simp) ?_
  refine Codec.Record.Ensures.required (Codec.ensures_nothing _) ?_
  refine ensures_build ?_
  intro name _ fields wellNamed
  exact wellNamed_iff.mpr wellNamed

theorem Param.ensures : Param.codec.Ensures fun param => param.type.WellNamed := by
  refine Codec.Record.Ensures.codec ?_
  refine Codec.Record.Ensures.required Codec.ensures_typeExpr ?_
  refine Codec.Record.Ensures.required (Codec.ensures_nothing _) ?_
  refine ensures_build ?_
  intro name _ type wellNamed
  exact wellNamed

theorem Method.ensures : Method.codec.Ensures Method.WellNamed := by
  refine Codec.Record.Ensures.codec ?_
  refine Codec.Record.Ensures.defaulted Codec.ensures_typeExpr.list (by simp) ?_
  refine Codec.Record.Ensures.defaulted Param.ensures.list (by simp) ?_
  refine Codec.Record.Ensures.required (Codec.ensures_nothing _) ?_
  refine Codec.Record.Ensures.required (Codec.ensures_nothing _) ?_
  refine ensures_build ?_
  intro name _ descriptor _ params paramsNamed returns returnsNamed
  exact ⟨paramsNamed, returnsNamed⟩

theorem Interface.ensures : Interface.codec.Ensures Interface.WellNamed := by
  refine Codec.Record.Ensures.codec ?_
  refine Codec.Record.Ensures.defaulted Method.ensures.list (by simp) ?_
  refine Codec.Record.Ensures.required Schema.ensures ?_
  refine Codec.Record.Ensures.required (Codec.ensures_nothing _) ?_
  refine ensures_build ?_
  intro name _ schema schemaNamed methods methodsNamed
  exact ⟨schemaNamed, methodsNamed⟩

theorem InterfaceFile.ensures : InterfaceFile.codec.Ensures InterfaceFile.WellNamed := by
  refine Codec.Record.Ensures.codec ?_
  refine Codec.Record.Ensures.defaulted Interface.ensures.list (by simp) ?_
  refine ensures_build ?_
  intro interfaces wellNamed
  exact wellNamed

namespace Config

/-- Every default has proper names. -/
theorem wellNamed_standard : standard.WellNamed := by
  unfold WellNamed
  decide

theorem ensures_typeMember
    {β : Type}
    {record : Codec.Record Config (TypeExpr -> β)}
    {key : String}
    {get : Config -> TypeExpr}
    {result : β -> Prop}
    (listed : get standard ∈ standard.types)
    (ensures : record.Ensures fun make => ∀ type, type.WellNamed -> result (make type)) :
    (typeMember record key get).Ensures result :=
  .defaulted Codec.ensures_typeExpr (wellNamed_standard _ listed) ensures

theorem ensures : codec.Ensures WellNamed := by
  refine Codec.Record.Ensures.codec ?_
  refine Codec.Record.Ensures.defaulted (Codec.ensures_nothing _) trivial ?_
  iterate 11 refine ensures_typeMember (by simp [types]) ?_
  refine ensures_build ?_
  intros
  simp only [WellNamed, types, List.forall_mem_cons]
  simp_all

end Config

theorem Find.ensures : Find.codec.Ensures fun find => find.returnType.WellNamed := by
  refine Codec.Record.Ensures.codec ?_
  refine Codec.Record.Ensures.required (Codec.ensures_nothing _) ?_
  refine Codec.Record.Ensures.optional (Codec.ensures_nothing _) ?_
  refine Codec.Record.Ensures.optional (Codec.ensures_nothing _) ?_
  refine Codec.Record.Ensures.required (Codec.ensures_nothing _) ?_
  refine Codec.Record.Ensures.required (Codec.ensures_nothing _) ?_
  refine Codec.Record.Ensures.required Codec.ensures_typeExpr ?_
  refine Codec.Record.Ensures.required (Codec.ensures_nothing _) ?_
  refine Codec.Record.Ensures.required (Codec.ensures_nothing _) ?_
  refine Codec.Record.Ensures.required (Codec.ensures_nothing _) ?_
  refine ensures_build ?_
  intro method _ mode _ context _ type wellNamed
  intros
  exact wellNamed

theorem Operation.ensures : Operation.codec.Ensures Operation.WellNamed := by
  refine Codec.ensures_tagged ?_
  simp only [List.forall_mem_cons, List.not_mem_nil, false_implies, implies_true, and_true]
  refine ⟨?_, ?_, ?_, ?_, ?_, ?_, ?_⟩
  · exact Codec.Variant.ensures_holding (Codec.ensures_nothing _)
  · exact Codec.Variant.ensures_holding Find.ensures
  all_goals exact Codec.Variant.ensures_holding (Codec.ensures_nothing _)

/-! ## Round trips -/

namespace Codec

variable {α : Type}

/-- A value comes back from what is written for it, as it stands and with the
members of all objects sorted by key. -/
def Restores (codec : Codec α) (value : α) : Prop :=
  codec.decode (codec.write value) = .ok value ∧
    codec.decode (codec.write value).sorted = .ok value

/-- Read a document and write again what it says. -/
def rewrite (codec : Codec α) (json : Json) : Except DecodeError Json :=
  (codec.decode json).map codec.write

/-- Values of a kind come back from what is written for them, and so does
whatever a document is read as. Writing a document again is then done once and
for all. -/
structure RoundTrips (codec : Codec α) (proper : α -> Prop) : Prop where
  restores : ∀ value, proper value -> codec.Restores value
  restores_read : ∀ levels json value, codec.read levels json = .ok value -> codec.Restores value
  rewrite_rewritten : ∀ json written, codec.rewrite json = .ok written ->
    codec.rewrite written = .ok written ∧ codec.rewrite written.sorted = .ok written

/-- Reading back what is proper and ensuring it is enough for round trips. -/
theorem roundTrips_of_readsBack
    {codec : Codec α}
    {proper : α -> Prop}
    (back : ∀ arrangement bound value, proper value ->
      ReadsBack arrangement bound codec codec value)
    (ensures : codec.Ensures proper) :
    RoundTrips codec proper := by
  have restores (value : α) (isProper : proper value) : codec.Restores value := by
    constructor
    · exact back .written _ value isProper _ (Nat.lt_succ_self _) (Nat.le_refl _)
    · exact back .byKey _ value isProper _ (Nat.lt_succ_self _) (Nat.le_refl _)
  refine ⟨restores, ?_, ?_⟩
  · intro levels json value reads
    exact restores value (ensures levels json value reads)
  · intro json written rewrites
    obtain ⟨value, reads, rfl⟩ := except_map_eq_ok_iff.mp rewrites
    obtain ⟨plain, sorted⟩ := restores value (ensures _ json value reads)
    exact ⟨except_map_eq_ok_iff.mpr ⟨value, plain, rfl⟩,
      except_map_eq_ok_iff.mpr ⟨value, sorted, rfl⟩⟩

/-- Operations of every kind, schemas, methods, interface files and
configurations whose types have proper names come back from their documents,
and what a document says is the same when it is written again. -/
theorem document_round_trips :
    RoundTrips Operation.codec Operation.WellNamed ∧
    RoundTrips Schema.codec Schema.WellNamed ∧
    RoundTrips Method.codec Method.WellNamed ∧
    RoundTrips InterfaceFile.codec InterfaceFile.WellNamed ∧
    RoundTrips Config.codec Config.WellNamed := by
  refine ⟨?_, ?_, ?_, ?_, ?_⟩
  · exact roundTrips_of_readsBack (fun _ _ _ => Operation.readsBack) Operation.ensures
  · exact roundTrips_of_readsBack (fun _ _ _ => Schema.readsBack) Schema.ensures
  · exact roundTrips_of_readsBack (fun _ _ _ => Method.readsBack) Method.ensures
  · exact roundTrips_of_readsBack (fun _ _ _ => InterfaceFile.readsBack) InterfaceFile.ensures
  · exact roundTrips_of_readsBack (fun _ _ _ => Config.readsBack) Config.ensures

/-- A method with an unknown member, blanks in a type and no results, a schema
inside a schema, and records that are written as arrays of their members. -/
theorem document_round_trips_loose_spelling :
    let json : Json := .object [("params", .array [.object [("type", .string " [] string"),
      ("name", .string "tags")]]), ("note", .null), ("descriptor", .string "DeleteAll"),
      ("name", .string "Clear")]
    let method : Method := ⟨"Clear", "DeleteAll", [⟨"tags", .slice (.ident "string")⟩], []⟩
    let address : Schema := ⟨"Address", [⟨"City", "city", .ident "string", none⟩]⟩
    let schema : Schema := ⟨"User", [⟨"Address", "addr", .ident "Address", some address⟩]⟩
    let rows : Json := .tagged "Count" (.array [.string "Adults", .string "ctx",
      .tagged "By" (.tagged "Node" (.array [.string "And",
        .tagged "Leaf" (.array [.string "Exists", .string "age", .array []]),
        .tagged "Leaf" (.array [.string "Equal", .string "name", .array [.string "name"]])]))])
    let count : Operation := .count ⟨"Adults", "ctx", .matching (.node .and
      (.leaf ⟨.present, "age", []⟩) (.leaf ⟨.equal, "name", ["name"]⟩))⟩
    Method.codec.decode json = .ok method ∧
      Method.codec.Restores method ∧
      Method.codec.rewrite (Method.codec.write method) = .ok (Method.codec.write method) ∧
      schema.WellNamed ∧
      Schema.codec.Restores schema ∧
      Operation.codec.decode rows = .ok count ∧
      Operation.codec.Restores count ∧
      InterfaceFile.codec.decode (.array []) = .ok ⟨[]⟩ ∧
      InterfaceFile.codec.Restores ⟨[]⟩ := by
  intro json method address schema rows count
  obtain ⟨operations, schemas, methods, files, -⟩ := document_round_trips
  have reads : Method.codec.decode json = .ok method := by
    apply except_toOption_eq_some_iff.mp
    decide +kernel
  have rewrites : Method.codec.rewrite json = .ok (Method.codec.write method) :=
    except_map_eq_ok_iff.mpr ⟨method, reads, rfl⟩
  have inner : address.WellNamed :=
    Schema.wellNamed_iff.mpr (List.forall_mem_singleton.mpr ⟨by decide, nofun⟩)
  have wellNamed : schema.WellNamed := by
    refine Schema.wellNamed_iff.mpr (List.forall_mem_singleton.mpr ⟨by decide, ?_⟩)
    rintro _ ⟨⟩
    exact inner
  have readsRows : Operation.codec.decode rows = .ok count := by
    apply except_toOption_eq_some_iff.mp
    decide +kernel
  have readsNothing : InterfaceFile.codec.decode (.array []) = .ok ⟨[]⟩ := rfl
  exact ⟨reads, methods.restores_read _ json method reads,
    (methods.rewrite_rewritten json _ rewrites).1, wellNamed, schemas.restores schema wellNamed,
    readsRows, operations.restores_read _ rows count readsRows,
    readsNothing, files.restores_read _ _ _ readsNothing⟩

end Codec
end DerivedQuery
