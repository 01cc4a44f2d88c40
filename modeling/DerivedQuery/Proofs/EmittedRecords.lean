import DerivedQuery.Proofs.RecordOrigin

/-!
# What compiled records look like

Invariants of the records a method compiles to, for the record of the method
itself and for those of its steps at any depth. Every record carries the name
of the method. The operation of the method carries its context, the first
parameter, and no step carries one. Batches are not empty, a Bulk inserts single
documents only, and a Transaction writes to collections it lists.
-/

namespace DerivedQuery

/-! ## Records -/

/-- An Insert of a method, with the context it was given. -/
structure Insert.Emitted (method : String) (context? : Option String) (insert : Insert) :
    Prop where
  method_eq : insert.method = method
  context_eq : insert.context = context?

/-- An Update of a method: it writes the entity or at least one field. -/
structure Update.Emitted (method : String) (context? : Option String) (update : Update) :
    Prop where
  method_eq : update.method = method
  context_eq : update.context = context?
  payload_ne : update.payload ≠ .fields []

structure Delete.Emitted (method : String) (context? : Option String) (delete : Delete) :
    Prop where
  method_eq : delete.method = method
  context_eq : delete.context = context?

structure Count.Emitted (method context : String) (count : Count) : Prop where
  method_eq : count.method = method
  context_eq : count.context = context

/-- A Find of a method: a search for one document has no limit. -/
structure Find.Emitted (method context : String) (find : Find) : Prop where
  method_eq : find.method = method
  context_eq : find.context = context
  limit_eq : find.mode = .one -> find.limit = none

/-- A step of a Bulk has no context, and it inserts no more than one document. -/
def BulkStep.Emitted (method : String) : BulkStep -> Prop
  | .insert record => record.Emitted method none ∧ record.mode = .one
  | .update record => record.Emitted method none
  | .delete record => record.Emitted method none

structure Bulk.Emitted (method : String) (context? : Option String) (bulk : Bulk) : Prop where
  method_eq : bulk.method = method
  context_eq : bulk.context = context?
  steps_ne_nil : bulk.steps ≠ []
  steps : ∀ step ∈ bulk.steps, step.Emitted method

/-- A step of a Transaction has no context, and a Bulk among the steps is one
itself. -/
def TransactionAction.Emitted (method : String) : TransactionAction -> Prop
  | .insert record => record.Emitted method none
  | .update record => record.Emitted method none
  | .delete record => record.Emitted method none
  | .bulk record => record.Emitted method none

structure Transaction.Emitted (method context : String) (transaction : Transaction) : Prop where
  method_eq : transaction.method = method
  context_eq : transaction.context = context
  steps_ne_nil : transaction.steps ≠ []
  steps : ∀ step ∈ transaction.steps, step.action.Emitted method
  /-- A step writes to the collection of the repository or to a listed one. -/
  resources : ∀ step ∈ transaction.steps, ∀ param, step.resource = .handle param ->
    ∃ handle ∈ transaction.collections, handle.param = param

/-- The operation of a method with a given context. -/
def Operation.Emitted (method context : String) : Operation -> Prop
  | .insert record => record.Emitted method (some context)
  | .find record => record.Emitted method context
  | .update record => record.Emitted method (some context)
  | .delete record => record.Emitted method (some context)
  | .count record => record.Emitted method context
  | .transaction record => record.Emitted method context
  | .bulk record => record.Emitted method (some context)

/-! ## Readers -/

variable {scope : Scope}
variable {params rest : List Param}
variable {run : List Word}

namespace Invocation

/-- The context of a record: the first parameter for the operation of a method,
nothing for a step. -/
def Opens (params : List Param) (context? : Option String) : Invocation -> Prop
  | .standalone => ∃ context others, params = context :: others ∧ context? = some context.name
  | .nested => context? = none

end Invocation

theorem Scope.opens_of_yields_openWrite
    {operation : Keyword}
    {signature : Except Cause Mode}
    {invocation : Invocation}
    {mode : Mode}
    {context : Option String}
    {body : List Word}
    (yields : (openWrite operation signature run invocation).Yields params
      (mode, context, body) rest) :
    invocation.Opens params context := by
  rcases yields_openWrite_iff.mp yields with
    ⟨rfl, -, -, param, context_eq, params_eq⟩ | ⟨rfl, -, -, context_eq, -⟩
  · exact ⟨param, rest, params_eq, context_eq⟩
  · exact context_eq

theorem Insert.emitted_of_yields_read
    {insert : Insert}
    {invocation : Invocation}
    (yields : (Insert.read scope run invocation).Yields params insert rest) :
    ∃ context?, invocation.Opens params context? ∧ insert.Emitted scope.method.name context? := by
  cases invocation with
  | standalone =>
      obtain ⟨context, document, _, -, -, rfl, method_eq, context_eq, -⟩ :=
        yields_readStandalone_iff.mp yields
      exact ⟨_, ⟨context, [document], rfl, rfl⟩, method_eq, context_eq⟩
  | nested =>
      obtain ⟨-, document, -, -, method_eq, context_eq, -⟩ := yields_readNested_iff.mp yields
      exact ⟨none, rfl, method_eq, context_eq⟩

/-- Fields that are written are resolved from words, so there are some. -/
theorem Payload.ne_fields_nil_of_yields_read
    {fields : List Word}
    {payload : Payload}
    (yields : (Payload.read scope run fields).Yields params payload rest) :
    payload ≠ .fields [] := by
  rcases yields_read_iff.mp yields with
    ⟨-, _, _, -, -, rfl⟩ | ⟨nonempty, paths, bindings, resolved, binds, rfl⟩
  · simp
  · obtain ⟨-, row⟩ := FieldPath.writtenRow_of_resolveAll resolved
    have fields_eq := map_field_of_yields_bindFields binds
    rintro ⟨⟩
    exact row.items_ne_nil nonempty (List.map_eq_nil_iff.mp fields_eq.symm)

theorem Update.emitted_of_yields_read
    {update : Update}
    {invocation : Invocation}
    (yields : (Update.read scope run invocation).Yields params update rest) :
    ∃ context?, invocation.Opens params context? ∧ update.Emitted scope.method.name context? := by
  obtain ⟨_, _, _, _, _, opens, -, -, readsPayload, -, method_eq, -⟩ := yields_read_iff.mp yields
  exact ⟨update.context, Scope.opens_of_yields_openWrite opens, method_eq, rfl,
    Payload.ne_fields_nil_of_yields_read readsPayload⟩

theorem Delete.emitted_of_yields_read
    {delete : Delete}
    {invocation : Invocation}
    (yields : (Delete.read scope run invocation).Yields params delete rest) :
    ∃ context?, invocation.Opens params context? ∧ delete.Emitted scope.method.name context? := by
  obtain ⟨_, _, opens, -, -, method_eq, -⟩ := yields_read_iff.mp yields
  exact ⟨delete.context, Scope.opens_of_yields_openWrite opens, method_eq, rfl⟩

/-- A search for one document refuses a limit, so none is settled. -/
theorem Find.limit_of_yields_readClauses
    {clauses : List Clause}
    {settled last : Clauses}
    (yields : (readClauses scope .one settled clauses).Yields params last rest) :
    last.limit = settled.limit := by
  induction clauses generalizing settled params with
  | nil =>
      obtain ⟨rfl, -⟩ := Binding.yields_pure.mp yields
      rfl
  | cons clause clauses hypothesis =>
      obtain ⟨next, middle, readsClause, readsClauses⟩ := Binding.yields_bind.mp yields
      rw [hypothesis readsClauses]
      obtain ⟨setting, reads, -, rfl⟩ := yields_readClause_iff.mp readsClause
      cases setting with
      | order fields => rfl
      | skip param => rfl
      | query query => rfl
      | limit param =>
          obtain ⟨-, -, _, ⟨⟩, -⟩ | ⟨-, _, ⟨⟩, -⟩ | ⟨-, isMany, -⟩ | ⟨-, -, -, _, ⟨⟩, -⟩ :=
            yields_readSetting_iff.mp reads
          exact absurd rfl isMany

theorem Find.emitted_of_yields_read
    {find : Find}
    (yields : (Find.read scope run).Yields params find rest) :
    ∃ context others, params = context :: others ∧
      find.Emitted scope.method.name context.name := by
  obtain ⟨context, others, settled, -, rfl, -, -, readsClauses, -, method_eq, context_eq, -, -,
    limit_eq, -⟩ := yields_read_iff.mp yields
  refine ⟨context, others, rfl, method_eq, context_eq, ?_⟩
  intro isOne
  rw [isOne] at readsClauses
  rw [limit_eq, limit_of_yields_readClauses readsClauses]

theorem Bulk.StepKind.emitted_of_cutStep
    {word : Word}
    {others body after : List Word}
    {kind : Bulk.StepKind}
    {step : BulkStep}
    (parts : cutStep word others = .ok (kind, body, after))
    (reaches : (kind.read scope body).Reaches step) :
    step.Emitted scope.method.name := by
  obtain ⟨params, rest, yields⟩ := reaches
  cases kind with
  | insert =>
      obtain ⟨record, rfl, reads⟩ := Binding.yields_then_pure.mp yields
      obtain ⟨_, rfl, emitted⟩ := Insert.emitted_of_yields_read reads
      obtain ⟨moded, -⟩ := Insert.yields_readNested_iff.mp reads
      refine ⟨emitted, ?_⟩
      rcases cutStep_eq_ok parts with ⟨-, -, mode, isOne, rfl, -⟩ | ⟨⟨-, ⟨⟩⟩ | ⟨-, ⟨⟩⟩, -⟩
      simp only [Scope.nestedMode, if_pos isOne, Except.ok.injEq, Prod.mk.injEq] at moded
      exact moded.1.symm
  | update =>
      obtain ⟨record, rfl, reads⟩ := Binding.yields_then_pure.mp yields
      obtain ⟨_, rfl, emitted⟩ := Update.emitted_of_yields_read reads
      exact emitted
  | delete =>
      obtain ⟨record, rfl, reads⟩ := Binding.yields_then_pure.mp yields
      obtain ⟨_, rfl, emitted⟩ := Delete.emitted_of_yields_read reads
      exact emitted

theorem Bulk.emitted_of_yields_read
    {bulk : Bulk}
    {invocation : Invocation}
    (yields : (Bulk.read scope run invocation).Yields params bulk rest) :
    ∃ context?, invocation.Opens params context? ∧ bulk.Emitted scope.method.name context? := by
  obtain ⟨opened, readsContext, readsSteps, nonempty, method_eq, -⟩ := yields_read_iff.mp yields
  refine ⟨bulk.context, ?_, method_eq, rfl, nonempty, ?_⟩
  · rcases yields_readContext_iff.mp readsContext with
      ⟨rfl, -, param, context_eq, params_eq⟩ | ⟨rfl, context_eq, -⟩
    · exact ⟨param, opened, params_eq, context_eq⟩
    · exact context_eq
  · intro step member
    obtain ⟨_, _, kind, _, _, parts, -, reaches⟩ := exists_of_mem_steps readsSteps member
    exact StepKind.emitted_of_cutStep parts reaches

theorem Transaction.StepKind.emitted_of_reaches
    {action : TransactionAction}
    (kind : Transaction.StepKind)
    (reaches : (kind.read scope run).Reaches action) :
    action.Emitted scope.method.name := by
  obtain ⟨params, rest, yields⟩ := reaches
  cases kind with
  | insert =>
      obtain ⟨record, rfl, reads⟩ := Binding.yields_then_pure.mp yields
      obtain ⟨_, rfl, emitted⟩ := Insert.emitted_of_yields_read reads
      exact emitted
  | update =>
      obtain ⟨record, rfl, reads⟩ := Binding.yields_then_pure.mp yields
      obtain ⟨_, rfl, emitted⟩ := Update.emitted_of_yields_read reads
      exact emitted
  | delete =>
      obtain ⟨record, rfl, reads⟩ := Binding.yields_then_pure.mp yields
      obtain ⟨_, rfl, emitted⟩ := Delete.emitted_of_yields_read reads
      exact emitted
  | bulk =>
      obtain ⟨record, rfl, reads⟩ := Binding.yields_then_pure.mp yields
      obtain ⟨_, rfl, emitted⟩ := Bulk.emitted_of_yields_read reads
      exact emitted

theorem Transaction.emitted_of_yields_read
    {transaction : Transaction}
    (yields : (Transaction.read scope run).Yields params transaction rest) :
    ∃ context others, params = context :: others ∧
      transaction.Emitted scope.method.name context.name := by
  obtain ⟨context, client, row, tail, steps, -, rfl, -, -, readsSteps, nonempty, -, rfl⟩ :=
    yields_read_iff.mp yields
  refine ⟨context, _, rfl, rfl, rfl, nonempty, ?_, ?_⟩
  · intro step member
    obtain ⟨_, _, start, _, _, -, -, -, reaches⟩ := exists_of_mem_steps readsSteps member
    exact start.kind.emitted_of_reaches reaches
  · intro step member param named
    obtain ⟨_, _, start, _, _, parts, -, same, -⟩ := exists_of_mem_steps readsSteps member
    rcases resource_of_startStep (cutStep_eq_ok parts).1 with primary | ⟨handle, listed, found⟩
    · simp [← same, primary] at named
    · rw [← same, found] at named
      exact ⟨handle, listed, Resource.handle.inj named⟩

theorem Count.emitted_of_yields_read
    {count : Count}
    (yields : (Count.read scope run).Yields params count rest) :
    ∃ context others, params = context :: others ∧
      count.Emitted scope.method.name context.name := by
  obtain ⟨context, opened, -, rfl, -, -, method_eq, context_eq, -⟩ := yields_read_iff.mp yields
  exact ⟨context, opened, rfl, method_eq, context_eq⟩

/-! ## Whole methods -/

/-- The first word tells the kind of an operation, and its record and those of
its steps are as they should be. -/
theorem Operation.emitted_of_yields_read
    {words : List Word}
    {operation : Operation}
    (yields : (Operation.read scope words).Yields params operation rest) :
    (∃ first others, words = first :: others ∧ first.text = operation.kind.name) ∧
    ∃ context others, params = context :: others ∧
      operation.Emitted scope.method.name context.name := by
  cases words with
  | nil => simp [Operation.read] at yields
  | cons first behind =>
      simp only [Operation.read] at yields
      split at yields
      · simp at yields
      · rename_i kind named
        have first_text : first.text = kind.name :=
          Keyword.text_eq_of_ofText? (Word.is_iff.mp (Word.is_keyword_of_operation? named))
        suffices emitted : operation.kind = kind ∧ ∃ context others,
            params = context :: others ∧ operation.Emitted scope.method.name context.name by
          exact ⟨⟨first, behind, rfl, emitted.1 ▸ first_text⟩, emitted.2⟩
        cases kind with
        | insert =>
            obtain ⟨record, rfl, reads⟩ := Binding.yields_then_pure.mp yields
            obtain ⟨_, ⟨context, others, rfl, rfl⟩, emitted⟩ := Insert.emitted_of_yields_read reads
            exact ⟨rfl, context, others, rfl, emitted⟩
        | find =>
            obtain ⟨record, rfl, reads⟩ := Binding.yields_then_pure.mp yields
            exact ⟨rfl, Find.emitted_of_yields_read reads⟩
        | update =>
            obtain ⟨record, rfl, reads⟩ := Binding.yields_then_pure.mp yields
            obtain ⟨_, ⟨context, others, rfl, rfl⟩, emitted⟩ := Update.emitted_of_yields_read reads
            exact ⟨rfl, context, others, rfl, emitted⟩
        | delete =>
            obtain ⟨record, rfl, reads⟩ := Binding.yields_then_pure.mp yields
            obtain ⟨_, ⟨context, others, rfl, rfl⟩, emitted⟩ := Delete.emitted_of_yields_read reads
            exact ⟨rfl, context, others, rfl, emitted⟩
        | count =>
            obtain ⟨record, rfl, reads⟩ := Binding.yields_then_pure.mp yields
            exact ⟨rfl, Count.emitted_of_yields_read reads⟩
        | transaction =>
            obtain ⟨record, rfl, reads⟩ := Binding.yields_then_pure.mp yields
            exact ⟨rfl, Transaction.emitted_of_yields_read reads⟩
        | bulk =>
            obtain ⟨record, rfl, reads⟩ := Binding.yields_then_pure.mp yields
            obtain ⟨_, ⟨context, others, rfl, rfl⟩, emitted⟩ := Bulk.emitted_of_yields_read reads
            exact ⟨rfl, context, others, rfl, emitted⟩

/-- The invariants of whatever a method compiles to. -/
theorem compiled_records_emitted
    (method : Method)
    (schema : Schema)
    (config : Config)
    (operation : Operation)
    (compiled : method.compile schema config = .ok operation) :
    (∃ first others, Word.segment method.descriptor = first :: others ∧
      first.text = operation.kind.name) ∧
    ∃ context others, method.params = context :: others ∧
      operation.Emitted method.name context.name := by
  obtain ⟨rest, yields⟩ := Method.compile_eq_ok_iff.mp compiled
  exact Operation.emitted_of_yields_read yields

/-- An Insert into another collection and a Bulk with steps of two kinds. -/
theorem compiled_records_emitted_inner_bulk :
    let schema : Schema := ⟨"User",
      [⟨"Name", "name", .ident "string", none⟩, ⟨"Age", "age", .ident "int", none⟩]⟩
    let method : Method := {
      name := "Archive"
      descriptor := "TransactionCollectionAuditInsertManyBulkLbInsertOneUpdateOneAgeByNameEqualRb"
      params := [⟨"ctx", .selector "context" "Context"⟩,
        ⟨"client", .pointer (.selector "mongo" "Client")⟩,
        ⟨"audit", .pointer (.selector "mongo" "Collection")⟩,
        ⟨"entries", .slice (.ident "Entry")⟩, ⟨"user", .pointer (.selector "model" "User")⟩,
        ⟨"age", .ident "int"⟩, ⟨"name", .ident "string"⟩]
      returns := [.ident "error"] }
    let bulk : Bulk := ⟨"Archive", none, [.insert ⟨"Archive", .one, none, "user"⟩,
      .update ⟨"Archive", .one, none, false, .fields [⟨"age", "age"⟩],
        .matching (.leaf ⟨.equal, "name", ["name"]⟩)⟩]⟩
    let transaction : Transaction := ⟨"Archive", "ctx", "client", [⟨"Audit", "audit"⟩],
      [⟨.handle "audit", .insert ⟨"Archive", .many, none, "entries"⟩⟩, ⟨.primary, .bulk bulk⟩]⟩
    method.compile schema Config.standard = .ok (.transaction transaction) ∧
      transaction.Emitted "Archive" "ctx" ∧ bulk.Emitted "Archive" none := by
  intro schema method bulk transaction
  have compiled : method.compile schema Config.standard = .ok (.transaction transaction) := by
    apply except_toOption_eq_some_iff.mp
    decide +kernel
  obtain ⟨-, context, others, params_eq, emitted⟩ :=
    compiled_records_emitted method schema Config.standard _ compiled
  obtain ⟨rfl, -⟩ := List.cons.inj params_eq
  exact ⟨compiled, emitted, emitted.steps ⟨.primary, .bulk bulk⟩ (by simp [transaction])⟩

end DerivedQuery
