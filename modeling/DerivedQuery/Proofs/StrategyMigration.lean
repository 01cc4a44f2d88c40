import DerivedQuery.Proofs.QueryDependence
import DerivedQuery.Proofs.QueryGrammar.Legacy

/-!
# Changing the split strategy

A method that compiles under the legacy strategy compiles to the same operation
under the nested one, as long as no field name has the spelling of a bracket in
it. The legacy grammar of queries lies in the nested grammar, and an operation
depends on the strategy through its queries only.
-/

namespace DerivedQuery

namespace Binding

/-- Whatever the first reader succeeds with, the second succeeds with as well,
and binds the same parameters. -/
def Refines
    {α : Type}
    (first second : Binding α) : Prop :=
  ∀ params value rest, first.Yields params value rest -> second.Yields params value rest

/-- Refinement holds of every reader and carries over to composed ones. -/
theorem congruence_refines : Congruence Refines where
  refl := by
    intro α binding params value rest yields
    exact yields
  bind := by
    intro α β first second next other refines further params value rest yields
    obtain ⟨between, middle, yieldsFirst, yieldsNext⟩ := yields_bind.mp yields
    have reaches : first.Reaches between := ⟨params, middle, yieldsFirst⟩
    exact yields_bind.mpr ⟨between, middle, refines _ _ _ yieldsFirst,
      further between reaches _ _ _ yieldsNext⟩

end Binding

namespace QueryGrammar

/-- A derivation looks at the schema of its scope and at nothing else. -/
theorem Nested.of_schema_eq
    {scope other : Scope}
    (same : scope.schema = other.schema)
    {part : NestedPart}
    {run : List Word}
    {expr : QueryExpr}
    {params rest : List Param}
    (derives : Nested scope part run expr params rest) :
    Nested other part run expr params rest := by
  induction derives with
  | condition plain reads =>
      have reader : Condition.read scope = Condition.read other := by
        funext run
        simp only [Condition.read, same]
      exact .condition plain (reader ▸ reads)
  | bracketed opens closes inside hypothesis => exact .bracketed opens closes hypothesis
  | single term hypothesis => exact .single hypothesis
  | joined first stands others firstHypothesis othersHypothesis =>
      exact .joined firstHypothesis stands othersHypothesis

end QueryGrammar

/-- A query that is read under the legacy strategy is read as the same query
under the nested one. -/
theorem Query.read_legacy_refines_nested
    {scope : Scope}
    (free : scope.schema.BracketFree)
    (run : List Word) :
    Binding.Refines (Query.read (scope.withStrategy .legacy) run)
      (Query.read (scope.withStrategy .nested) run) := by
  intro params query rest yields
  rcases Query.yields_read_cases yields with
    ⟨first, rfl, isAll, rfl, rfl⟩ | ⟨first, body, rfl, isBy⟩
  · simp [Query.read, isAll]
  · obtain ⟨-, -, expr, rfl, -⟩ := (Query.yields_read_by_iff isBy).mp yields
    have legacy : QueryGrammar.Legacy (scope.withStrategy .legacy) .run body expr params rest := by
      apply QueryGrammar.legacy_of_yields_read_by rfl _ isBy yields
      exact free
    have nested : QueryGrammar.Nested (scope.withStrategy .nested) .expression body expr
        params rest := by
      refine QueryGrammar.Nested.of_schema_eq ?_ legacy.nested
      rfl
    apply (QueryGrammar.yields_read_by_iff_nested rfl _ isBy).mpr nested
    exact free

/-- Migration from the legacy to the nested strategy is safe. -/
theorem compile_nested_of_legacy
    (method : Method)
    (schema : Schema)
    (config : Config)
    (operation : Operation)
    (free : schema.BracketFree)
    (compiled : method.compile schema (config.withSplitStrategy .legacy) = .ok operation) :
    method.compile schema (config.withSplitStrategy .nested) = .ok operation := by
  rw [Method.compile_eq_ok_iff] at compiled ⊢
  obtain ⟨rest, yields⟩ := compiled
  let scope : Scope := ⟨method, schema, config⟩
  let words := Word.segment method.descriptor
  have refines : Binding.Refines (Operation.read (scope.withStrategy .legacy) words)
      (Operation.read (scope.withStrategy .nested) words) := by
    apply related_operation Binding.congruence_refines
    intro run _
    exact Query.read_legacy_refines_nested free run
  exact ⟨rest, refines method.params operation rest yields⟩

/-- A group behind a connective, in a query of a Bulk inside a Transaction. -/
theorem compile_nested_of_legacy_grouped_step :
    let schema : Schema := ⟨"User",
      [⟨"Name", "name", .ident "string", none⟩, ⟨"Age", "age", .ident "int", none⟩]⟩
    let method : Method := {
      name := "Purge"
      descriptor := "TransactionBulkLbDeleteOneByNameEqualAndLbAgeEqualOrAgeExistsRbRb"
      params := [⟨"ctx", .selector "context" "Context"⟩,
        ⟨"client", .pointer (.selector "mongo" "Client")⟩,
        ⟨"name", .ident "string"⟩, ⟨"age", .ident "int"⟩]
      returns := [.ident "error"] }
    let query : QueryExpr := .node .and (.leaf ⟨.equal, "name", ["name"]⟩)
      (.node .or (.leaf ⟨.equal, "age", ["age"]⟩) (.leaf ⟨.present, "age", []⟩))
    let operation : Operation := .transaction ⟨"Purge", "ctx", "client", [],
      [⟨.primary, .bulk ⟨"Purge", none, [.delete ⟨"Purge", .one, none, .matching query⟩]⟩⟩]⟩
    schema.BracketFree ∧
      method.compile schema (Config.standard.withSplitStrategy .legacy) = .ok operation ∧
      method.compile schema (Config.standard.withSplitStrategy .nested) = .ok operation := by
  intro schema method query operation
  have free : schema.BracketFree := by
    rw [Schema.bracketFree_iff]
    intro field member
    simp only [schema, List.mem_cons, List.not_mem_nil, or_false] at member
    rcases member with rfl | rfl
    · exact ⟨by decide, by simp⟩
    · exact ⟨by decide, by simp⟩
  have compiled : method.compile schema (Config.standard.withSplitStrategy .legacy) =
      .ok operation := by
    apply except_toOption_eq_some_iff.mp
    decide +kernel
  exact ⟨free, compiled, compile_nested_of_legacy method schema _ operation free compiled⟩

end DerivedQuery
