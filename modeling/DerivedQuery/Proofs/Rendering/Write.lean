import DerivedQuery.Proofs.QueryGrammar.Legacy
import DerivedQuery.Proofs.RecordReader
import DerivedQuery.Proofs.Rendering

/-!
# Words of queries and single writes

Whatever a reader of this part of the language succeeds with is written as the
whole run it was given.
-/

namespace DerivedQuery

variable {scope : Scope}
variable {params rest : List Param}
variable {run : List Word}

namespace FieldPath

/-- The paths that cover a run are written as the run. -/
theorem Covers.writtenRow
    {schema : Schema}
    {paths : List FieldPath}
    (covers : Covers schema run paths) :
    WrittenRow (fun path => schema.KeyWritten path.key) paths run := by
  induction covers with
  | nil => exact .nil
  | @cons run path paths member further hypothesis =>
      obtain ⟨chain, through⟩ := Schema.exists_through_of_mem_candidates member
      rw [← List.take_append_drop path.consumed run]
      exact .cons ⟨chain, through.leads, through.key_eq, through.spells⟩ hypothesis

theorem writtenRow_of_resolveAll
    {schema : Schema}
    {paths : List FieldPath}
    (resolved : resolveAll schema run = .ok paths) :
    run ≠ [] ∧ WrittenRow (fun path => schema.KeyWritten path.key) paths run := by
  refine ⟨?_, (covers_of_resolveAll resolved).writtenRow⟩
  rintro rfl
  simp [resolveAll] at resolved

theorem keyWritten_of_resolve
    {schema : Schema}
    {path : FieldPath}
    (resolved : resolve schema run = .ok path) :
    schema.KeyWritten path.key run := by
  obtain ⟨consumed, chain, through⟩ := through_of_resolve resolved
  have spells := through.spells
  rw [consumed, List.take_length] at spells
  exact ⟨chain, through.leads, through.key_eq, spells⟩

end FieldPath

namespace Condition

theorem written_of_yields_read
    {condition : Condition}
    (yields : (Condition.read scope run).Yields params condition rest) :
    condition.Written scope.schema run := by
  obtain ⟨front, back, path, taken, rfl, -, -, phrase_eq, resolved, field_eq, -⟩ :=
    Condition.exists_of_yields_read yields
  exact .intro (field_eq ▸ FieldPath.keyWritten_of_resolve resolved) phrase_eq

end Condition

namespace QueryGrammar

/-- A derived run is the traversal of its tree once the brackets are left out. -/
theorem Nested.traversed
    {part : NestedPart}
    {expr : QueryExpr}
    (derives : Nested scope part run expr params rest) :
    expr.Traversed scope.schema (run.filter (!·.isBracket)) := by
  induction derives with
  | @condition run condition params rest plain reads =>
      have unchanged : run.filter (!·.isBracket) = run := by
        rw [List.filter_eq_self]
        intro word member
        rw [(plain word member).1]
        rfl
      rw [unchanged]
      exact .leaf (Condition.written_of_yields_read reads)
  | bracketed opens closes inside hypothesis =>
      simpa [Word.isBracket, opens, closes] using hypothesis
  | single term hypothesis => exact hypothesis
  | joined first stands others firstHypothesis othersHypothesis =>
      rw [List.filter_append,
        List.filter_cons_of_pos (by rw [Word.not_bracket_of_connective stands]; rfl)]
      exact .node firstHypothesis stands othersHypothesis

end QueryGrammar

namespace Query

theorem written_of_yields_read
    {query : Query}
    (free : scope.schema.BracketFree)
    (yields : (Query.read scope run).Yields params query rest) :
    query.Written scope.schema run := by
  rcases Query.yields_read_cases yields with
    ⟨first, rfl, isAll, rfl, rfl⟩ | ⟨first, body, rfl, isBy⟩
  · exact .all (Word.is_iff.mpr isAll)
  · obtain ⟨-, balanced, expr, rfl, -⟩ := (Query.yields_read_by_iff isBy).mp yields
    refine .matching (Word.is_iff.mpr isBy) balanced ?_
    cases strategy : scope.config.splitStrategy with
    | nested =>
        exact ((QueryGrammar.yields_read_by_iff_nested strategy free isBy).mp yields).traversed
    | legacy =>
        exact (QueryGrammar.legacy_of_yields_read_by strategy free isBy yields).nested.traversed

end Query

namespace Scope

/-- What opens an Update or Delete takes the mode word of a step and nothing
else. -/
theorem written_of_yields_openWrite
    {operation : Keyword}
    {signature : Except Cause Mode}
    {invocation : Invocation}
    {mode : Mode}
    {context : Option String}
    {body : List Word}
    (yields : (openWrite operation signature run invocation).Yields params
      (mode, context, body) rest) :
    ∃ front, mode.Written invocation front ∧ run = front ++ body := by
  rcases yields_openWrite_iff.mp yields with ⟨rfl, -, rfl, -⟩ | ⟨rfl, found, -⟩
  · exact ⟨[], .standalone, rfl⟩
  · obtain ⟨word, isMode, rfl⟩ := exists_of_nestedMode found
    exact ⟨[word], .nested isMode, rfl⟩

end Scope

namespace Insert

theorem written_of_yields_readStandalone
    {insert : Insert}
    (yields : (Insert.readStandalone scope run).Yields params insert rest) :
    insert.Written .standalone run := by
  obtain ⟨_, _, _, -, rfl | ⟨word, rfl, spelled⟩, -⟩ := yields_readStandalone_iff.mp yields
  · exact .omitted
  · exact .mode spelled

theorem written_of_yields_readNested
    {insert : Insert}
    (yields : (Insert.readNested scope run).Yields params insert rest) :
    insert.Written .nested run := by
  obtain ⟨found, -⟩ := yields_readNested_iff.mp yields
  obtain ⟨word, isMode, rfl⟩ := Scope.exists_of_nestedMode found
  exact .mode isMode

theorem written_of_yields_read
    {insert : Insert}
    {invocation : Invocation}
    (yields : (Insert.read scope run invocation).Yields params insert rest) :
    insert.Written invocation run := by
  cases invocation with
  | standalone => exact written_of_yields_readStandalone yields
  | nested => exact written_of_yields_readNested yields

end Insert

namespace Payload

/-- Every path is bound under its own key. -/
theorem map_field_of_yields_bindFields
    {paths : List FieldPath}
    {bindings : List FieldBinding}
    (yields : (bindFields run paths).Yields params bindings rest) :
    bindings.map FieldBinding.field = paths.map FieldPath.key := by
  induction paths generalizing params bindings with
  | nil =>
      obtain ⟨rfl, -⟩ := Binding.yields_pure.mp yields
      rfl
  | cons path paths hypothesis =>
      obtain ⟨param, middle, others, -, -, binds, rfl⟩ := yields_bindFields_cons_iff.mp yields
      rw [List.map_cons, hypothesis binds, List.map_cons]

theorem written_of_yields_read
    {body : List Word}
    {payload : Payload}
    (yields : (Payload.read scope body run).Yields params payload rest) :
    payload.Written scope.schema run := by
  rcases yields_read_iff.mp yields with
    ⟨rfl, _, _, -, -, rfl⟩ | ⟨nonempty, paths, bindings, resolved, binds, rfl⟩
  · exact .document
  · refine .fields nonempty ?_
    rw [map_field_of_yields_bindFields binds]
    obtain ⟨-, row⟩ := FieldPath.writtenRow_of_resolveAll resolved
    exact row.map FieldPath.key fun _ _ written => written

end Payload

namespace Update

theorem splitUpsert_cases (front : List Word) :
    (∃ (word : Word) (fields : List Word), word.is .upsert ∧ front = word :: fields ∧
      splitUpsert front = (true, fields)) ∨
    (splitUpsert front = (false, front) ∧ ∀ word ∈ front.head?, word.is .upsert = false) := by
  cases front with
  | nil => exact .inr ⟨rfl, by simp⟩
  | cons word fields =>
      cases isUpsert : word.is .upsert with
      | true => exact .inl ⟨word, fields, isUpsert, rfl, by simp [splitUpsert, isUpsert]⟩
      | false => exact .inr ⟨by simp [splitUpsert, isUpsert], by simpa using isUpsert⟩

theorem written_of_yields_read
    {update : Update}
    {invocation : Invocation}
    (free : scope.schema.BracketFree)
    (yields : (Update.read scope run invocation).Yields params update rest) :
    update.Written scope.schema invocation run := by
  obtain ⟨body, front, queryRun, _, _, opens, parts, upsert_eq, readsPayload, readsQuery, -⟩ :=
    yields_read_iff.mp yields
  obtain ⟨modeRun, modeWritten, rfl⟩ := Scope.written_of_yields_openWrite opens
  rw [Scope.append_of_splitAtQuery parts, ← List.append_assoc]
  have queryWritten := Query.written_of_yields_read free readsQuery
  have payloadWritten := Payload.written_of_yields_read readsPayload
  rcases splitUpsert_cases front with
    ⟨word, fields, isUpsert, rfl, split_eq⟩ | ⟨split_eq, noUpsert⟩
  · rw [split_eq] at upsert_eq payloadWritten
    exact .upsert modeWritten upsert_eq.symm isUpsert payloadWritten queryWritten
  · rw [split_eq] at upsert_eq payloadWritten
    exact .plain modeWritten upsert_eq.symm noUpsert payloadWritten queryWritten

end Update

namespace Delete

theorem written_of_yields_read
    {delete : Delete}
    {invocation : Invocation}
    (free : scope.schema.BracketFree)
    (yields : (Delete.read scope run invocation).Yields params delete rest) :
    delete.Written scope.schema invocation run := by
  obtain ⟨body, _, opens, -, readsQuery, -⟩ := yields_read_iff.mp yields
  obtain ⟨modeRun, modeWritten, rfl⟩ := Scope.written_of_yields_openWrite opens
  exact .intro modeWritten (Query.written_of_yields_read free readsQuery)

end Delete

end DerivedQuery
