import DerivedQuery.Proofs.RecordOrigin
import DerivedQuery.Proofs.Slots.Batch
import DerivedQuery.Proofs.Slots.Search

/-!
# Compiled operations have their slots filled

A method that compiles has bound all of its parameters: none is lost, held
twice or out of order, and every one has a type that its slot accepts. The
conditions of all queries are among the slots.
-/

namespace DerivedQuery

section Steps

variable {query : Query}
variable {slot : Slot}

theorem BulkStep.mem_slots_of_mem_queries
    (step : BulkStep)
    (member : query ∈ step.queries)
    (inQuery : slot ∈ query.slots) :
    slot ∈ step.slots := by
  cases step with
  | insert record => simp [queries] at member
  | update record =>
      obtain rfl := List.mem_singleton.mp member
      exact List.mem_append_right _ inQuery
  | delete record =>
      obtain rfl := List.mem_singleton.mp member
      exact List.mem_append_right _ inQuery

theorem Bulk.mem_slots_of_mem_queries
    (bulk : Bulk)
    (member : query ∈ bulk.queries)
    (inQuery : slot ∈ query.slots) :
    slot ∈ bulk.slots := by
  obtain ⟨step, inSteps, inStep⟩ := List.mem_flatMap.mp member
  refine List.mem_append_right _ (List.mem_flatMap.mpr ⟨step, inSteps, ?_⟩)
  exact step.mem_slots_of_mem_queries inStep inQuery

theorem TransactionAction.mem_slots_of_mem_queries
    (action : TransactionAction)
    (member : query ∈ action.queries)
    (inQuery : slot ∈ query.slots) :
    slot ∈ action.slots := by
  cases action with
  | insert record => simp [queries] at member
  | update record =>
      obtain rfl := List.mem_singleton.mp member
      exact List.mem_append_right _ inQuery
  | delete record =>
      obtain rfl := List.mem_singleton.mp member
      exact List.mem_append_right _ inQuery
  | bulk record => exact record.mem_slots_of_mem_queries member inQuery

end Steps

namespace Operation

/-- An operation holds all parameters of its method, each in the slot it was
bound for. -/
theorem fills_of_yields_read
    {scope : Scope}
    {rest : List Param}
    {words : List Word}
    {operation : Operation}
    (yields : (Operation.read scope words).Yields scope.method.params operation rest) :
    Slot.Fills scope.schema scope.config (operation.slots words) scope.method.params [] := by
  cases words with
  | nil => simp [Operation.read] at yields
  | cons first run =>
      simp only [Operation.read] at yields
      split at yields
      · simp at yields
      · rename_i kind named
        cases kind with
        | insert =>
            obtain ⟨record, rfl, reads⟩ := Binding.yields_then_pure.mp yields
            obtain ⟨fills, ends⟩ := Insert.fills_of_yields_read reads fun _ => rfl
            exact ends rfl ▸ fills
        | find =>
            obtain ⟨record, rfl, reads⟩ := Binding.yields_then_pure.mp yields
            obtain ⟨fills, rfl⟩ := Find.fills_of_yields_read reads
            have noSlots : record.clauseSlots first = [] :=
              Find.clauseSlots_eq_nil (Find.startsClause_eq_false_of_ofName? named)
            rwa [Operation.slots, Find.slots, List.flatMap_cons, noSlots, List.nil_append]
        | update =>
            obtain ⟨record, rfl, reads⟩ := Binding.yields_then_pure.mp yields
            obtain ⟨fills, ends⟩ := Update.fills_of_yields_read reads fun _ => rfl
            exact ends rfl ▸ fills
        | delete =>
            obtain ⟨record, rfl, reads⟩ := Binding.yields_then_pure.mp yields
            obtain ⟨fills, ends⟩ := Delete.fills_of_yields_read reads fun _ => rfl
            exact ends rfl ▸ fills
        | count =>
            obtain ⟨record, rfl, reads⟩ := Binding.yields_then_pure.mp yields
            obtain ⟨fills, rfl⟩ := Count.fills_of_yields_read reads
            exact fills
        | transaction =>
            obtain ⟨record, rfl, reads⟩ := Binding.yields_then_pure.mp yields
            obtain ⟨fills, rfl⟩ := Transaction.fills_of_yields_read reads
            exact fills
        | bulk =>
            obtain ⟨record, rfl, reads⟩ := Binding.yields_then_pure.mp yields
            obtain ⟨fills, ends⟩ := Bulk.fills_of_yields_read reads fun _ => rfl
            exact ends rfl ▸ fills

/-- The conditions of the queries of an operation are slots of it. For a Find this
depends on the words: its query has conditions only if it was read from a clause
that starts with `By`. -/
theorem mem_slots_of_mem_queries
    {scope : Scope}
    {words : List Word}
    {operation : Operation}
    {query : Query}
    {slot : Slot}
    (reaches : (Operation.read scope words).Reaches operation)
    (member : query ∈ operation.queries)
    (inQuery : slot ∈ query.slots) :
    slot ∈ operation.slots words := by
  cases operation with
  | insert record => simp [queries] at member
  | find record =>
      obtain ⟨part, within, params, rest, reads⟩ := queries_writtenIn reaches member
      obtain rfl := List.mem_singleton.mp member
      rcases Query.yields_read_cases reads with
        ⟨first, -, -, isAll, -⟩ | ⟨first, body, rfl, isBy⟩
      · simp [isAll, Query.slots] at inQuery
      · have startsQuery : slot ∈ record.clauseSlots first := by
          rwa [Find.clauseSlots, isBy]
        have inWords : first ∈ words := within.subset List.mem_cons_self
        exact List.mem_cons_of_mem _ (List.mem_flatMap.mpr ⟨first, inWords, startsQuery⟩)
  | update record =>
      obtain rfl := List.mem_singleton.mp member
      exact List.mem_append_right _ inQuery
  | delete record =>
      obtain rfl := List.mem_singleton.mp member
      exact List.mem_append_right _ inQuery
  | count record =>
      obtain rfl := List.mem_singleton.mp member
      exact List.mem_cons_of_mem _ inQuery
  | transaction record =>
      obtain ⟨step, inSteps, inStep⟩ := List.mem_flatMap.mp member
      refine List.mem_append_right _ (List.mem_flatMap.mpr ⟨step, inSteps, ?_⟩)
      exact step.action.mem_slots_of_mem_queries inStep inQuery
  | bulk record => exact record.mem_slots_of_mem_queries member inQuery

end Operation

namespace Method

/-- A method that compiles leaves no parameter unbound. -/
theorem fills_of_compile
    {method : Method}
    {schema : Schema}
    {config : Config}
    {operation : Operation}
    (compiled : method.compile schema config = .ok operation) :
    Slot.Fills schema config (operation.slots (Word.segment method.descriptor))
      method.params [] := by
  obtain ⟨rest, yields⟩ := Method.compile_eq_ok_iff.mp compiled
  exact Operation.fills_of_yields_read yields

end Method

/-- The names that a compiled operation holds, in binding order, are the names
of the parameters of its method. -/
theorem compiled_names_eq
    (method : Method)
    (schema : Schema)
    (config : Config)
    (operation : Operation)
    (compiled : method.compile schema config = .ok operation) :
    (operation.slots (Word.segment method.descriptor)).flatMap Slot.names =
      method.params.map Param.name := by
  have named := (Method.fills_of_compile compiled).names_eq
  rw [named, List.map_nil, List.append_nil]

/-- Clauses bind in the order in which they are written. -/
theorem compiled_names_eq_limit_first :
    let schema : Schema := ⟨"User", [⟨"Age", "age", .ident "int", none⟩]⟩
    let method : Method := {
      name := "Page"
      descriptor := "FindLimitByAgeBetweenSkip"
      params := [⟨"ctx", .selector "context" "Context"⟩, ⟨"limit", .ident "int64"⟩,
        ⟨"low", .ident "int"⟩, ⟨"high", .ident "int"⟩, ⟨"skip", .ident "int64"⟩]
      returns := [.slice (.ident "User"), .ident "error"] }
    let operation : Operation := .find {
      method := "Page"
      mode := .many
      context := "ctx"
      returnType := .slice (.ident "User")
      projection := []
      sort := []
      skip := some "skip"
      limit := some "limit"
      query := .matching (.leaf ⟨.between, "age", ["low", "high"]⟩) }
    method.compile schema Config.standard = .ok operation ∧
      (operation.slots (Word.segment method.descriptor)).flatMap Slot.names =
        ["ctx", "limit", "low", "high", "skip"] := by
  intro schema method operation
  have compiled : method.compile schema Config.standard = .ok operation := by
    apply except_toOption_eq_some_iff.mp
    decide +kernel
  exact ⟨compiled, compiled_names_eq method schema Config.standard operation compiled⟩

/-- The parameters of a method divide into one share for each slot of the
compiled operation, with the names and types of that slot, and every condition
holds as many parameters as its comparator takes. Every condition of every query
is such a slot, and its field is one of the schema. -/
theorem compiled_slots_typed
    (method : Method)
    (schema : Schema)
    (config : Config)
    (operation : Operation)
    (compiled : method.compile schema config = .ok operation) :
    Slot.Fills schema config (operation.slots (Word.segment method.descriptor))
        method.params [] ∧
      (∀ condition,
        Slot.condition condition ∈ operation.slots (Word.segment method.descriptor) ->
          condition.params.length = condition.comparator.arity) ∧
      ∀ expr, Query.matching expr ∈ operation.queries -> ∀ condition ∈ expr.conditions,
        Slot.condition condition ∈ operation.slots (Word.segment method.descriptor) ∧
          (∃ type, schema.HasPath condition.field type) ∧
          condition.params.length = condition.comparator.arity := by
  have fills := Method.fills_of_compile compiled
  have typed (condition : Condition)
      (member : Slot.condition condition ∈ operation.slots (Word.segment method.descriptor)) :
      (∃ type, schema.HasPath condition.field type) ∧
        condition.params.length = condition.comparator.arity := by
    obtain ⟨share, holds⟩ := fills.exists_holds member
    obtain ⟨type, path, -⟩ := holds.accepts
    exact ⟨⟨type, path⟩, holds.length_params_eq⟩
  refine ⟨fills, fun condition member => (typed condition member).2, ?_⟩
  intro expr inOperation condition inExpr
  obtain ⟨rest, yields⟩ := Method.compile_eq_ok_iff.mp compiled
  have member := Operation.mem_slots_of_mem_queries ⟨_, rest, yields⟩ inOperation
    (List.mem_map_of_mem inExpr)
  exact ⟨member, typed condition member⟩

/-- An Insert into another collection, then an Update of a nested field. -/
theorem compiled_slots_typed_transaction :
    let address : Schema := ⟨"Address", [⟨"City", "city", .ident "string", none⟩]⟩
    let schema : Schema := ⟨"User", [⟨"Age", "age", .ident "int", none⟩,
      ⟨"Address", "addr", .ident "Address", some address⟩]⟩
    let method : Method := {
      name := "Move"
      descriptor := "TransactionCollectionAuditInsertOneUpdateManyAddressCityByAgeBetween"
      params := [⟨"ctx", .selector "context" "Context"⟩,
        ⟨"client", .pointer (.selector "mongo" "Client")⟩,
        ⟨"audit", .pointer (.selector "mongo" "Collection")⟩,
        ⟨"entry", .pointer (.selector "model" "Entry")⟩, ⟨"city", .ident "string"⟩,
        ⟨"low", .ident "int"⟩, ⟨"high", .ident "int"⟩]
      returns := [.ident "error"] }
    let condition : Condition := ⟨.between, "age", ["low", "high"]⟩
    let operation : Operation := .transaction {
      method := "Move"
      context := "ctx"
      client := "client"
      collections := [⟨"Audit", "audit"⟩]
      steps := [⟨.handle "audit", .insert ⟨"Move", .one, none, "entry"⟩⟩,
        ⟨.primary, .update ⟨"Move", .many, none, false, .fields [⟨"addr.city", "city"⟩],
          .matching (.leaf condition)⟩⟩] }
    method.compile schema Config.standard = .ok operation ∧
      Slot.Fills schema Config.standard
        [.context "ctx", .client "client", .collection "audit", .document .one "entry",
          .field ⟨"addr.city", "city"⟩, .condition condition]
        method.params [] ∧
      Query.matching (.leaf condition) ∈ operation.queries ∧
      (∃ type, schema.HasPath condition.field type) ∧
      condition.params.length = condition.comparator.arity := by
  intro address schema method condition operation
  have compiled : method.compile schema Config.standard = .ok operation := by
    apply except_toOption_eq_some_iff.mp
    decide +kernel
  obtain ⟨fills, -, queried⟩ :=
    compiled_slots_typed method schema Config.standard operation compiled
  have inOperation : Query.matching (.leaf condition) ∈ operation.queries := by
    simp [operation, Operation.queries, TransactionAction.queries]
  obtain ⟨-, path, counted⟩ := queried _ inOperation condition List.mem_cons_self
  exact ⟨compiled, fills, inOperation, path, counted⟩

end DerivedQuery
