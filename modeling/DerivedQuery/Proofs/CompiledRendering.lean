import DerivedQuery.Proofs.Rendering.Batch
import DerivedQuery.Proofs.Rendering.Search

/-!
# Compiled operations use every word

A descriptor that compiles is written as the operation it compiles to. No word
of it is ignored, used twice or moved: leaving a condition out, for instance,
would leave words over that no part of the operation is written as.
-/

namespace DerivedQuery

namespace Operation

/-- An operation is written as the words it was read from. -/
theorem written_of_yields_read
    {scope : Scope}
    {params rest : List Param}
    {words : List Word}
    {operation : Operation}
    (free : scope.schema.BracketFree)
    (yields : (Operation.read scope words).Yields params operation rest) :
    operation.Written scope.schema words := by
  cases words with
  | nil => simp [Operation.read] at yields
  | cons first run =>
      simp only [Operation.read] at yields
      split at yields
      · simp at yields
      · rename_i kind named
        have isKind : first.is kind.keyword := Word.is_keyword_of_operation? named
        cases kind with
        | insert =>
            obtain ⟨record, rfl, reads⟩ := Binding.yields_then_pure.mp yields
            exact .intro isKind (Insert.written_of_yields_read reads)
        | find =>
            obtain ⟨record, rfl, reads⟩ := Binding.yields_then_pure.mp yields
            exact .intro isKind (Find.written_of_yields_read free reads)
        | update =>
            obtain ⟨record, rfl, reads⟩ := Binding.yields_then_pure.mp yields
            exact .intro isKind (Update.written_of_yields_read free reads)
        | delete =>
            obtain ⟨record, rfl, reads⟩ := Binding.yields_then_pure.mp yields
            exact .intro isKind (Delete.written_of_yields_read free reads)
        | count =>
            obtain ⟨record, rfl, reads⟩ := Binding.yields_then_pure.mp yields
            exact .intro isKind (Count.written_of_yields_read free reads)
        | transaction =>
            obtain ⟨record, rfl, reads⟩ := Binding.yields_then_pure.mp yields
            exact .intro isKind (Transaction.written_of_yields_read free reads)
        | bulk =>
            obtain ⟨record, rfl, reads⟩ := Binding.yields_then_pure.mp yields
            exact .intro isKind (Bulk.written_of_yields_read free reads)

end Operation

/-- Under either strategy, a descriptor over a schema without brackets in its
field names is written as the operation it compiles to. -/
theorem compiled_written
    (method : Method)
    (schema : Schema)
    (config : Config)
    (operation : Operation)
    (free : schema.BracketFree)
    (compiled : method.compile schema config = .ok operation) :
    operation.Written schema (Word.segment method.descriptor) := by
  obtain ⟨rest, yields⟩ := Method.compile_eq_ok_iff.mp compiled
  exact Operation.written_of_yields_read free yields

/-- A step in another collection, then a Bulk with a bracketed query. -/
theorem compiled_written_bulk_step :
    let schema : Schema := ⟨"User",
      [⟨"Name", "name", .ident "string", none⟩, ⟨"Age", "age", .ident "int", none⟩]⟩
    let method : Method := {
      name := "Sync"
      descriptor := "TransactionCollectionAuditLogInsertOne" ++
        "BulkLbUpdateManyUpsertAgeByLbNameEqualOrAgeExistsRbDeleteOneAllRb"
      params := [⟨"ctx", .selector "context" "Context"⟩,
        ⟨"client", .pointer (.selector "mongo" "Client")⟩,
        ⟨"audit_log", .pointer (.selector "mongo" "Collection")⟩,
        ⟨"entry", .pointer (.selector "model" "Entry")⟩, ⟨"age", .ident "int"⟩,
        ⟨"name", .ident "string"⟩]
      returns := [.ident "error"] }
    let query : QueryExpr :=
      .node .or (.leaf ⟨.equal, "name", ["name"]⟩) (.leaf ⟨.present, "age", []⟩)
    let operation : Operation := .transaction {
      method := "Sync"
      context := "ctx"
      client := "client"
      collections := [⟨"AuditLog", "audit_log"⟩]
      steps := [⟨.handle "audit_log", .insert ⟨"Sync", .one, none, "entry"⟩⟩,
        ⟨.primary, .bulk ⟨"Sync", none,
          [.update ⟨"Sync", .many, none, true, .fields [⟨"age", "age"⟩], .matching query⟩,
            .delete ⟨"Sync", .one, none, .all⟩]⟩⟩] }
    schema.BracketFree ∧
      method.compile schema Config.standard = .ok operation ∧
      operation.Written schema (Word.segment method.descriptor) := by
  intro schema method query operation
  have free : schema.BracketFree := by
    rw [Schema.bracketFree_iff]
    intro field member
    simp only [schema, List.mem_cons, List.not_mem_nil, or_false] at member
    rcases member with rfl | rfl
    · exact ⟨by decide, by simp⟩
    · exact ⟨by decide, by simp⟩
  have compiled : method.compile schema Config.standard = .ok operation := by
    apply except_toOption_eq_some_iff.mp
    decide +kernel
  exact ⟨free, compiled, compiled_written method schema Config.standard operation free compiled⟩

end DerivedQuery
