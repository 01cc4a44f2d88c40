import DerivedQuery.Proofs.Rendering.Write

/-!
# Words of batches

A step is cut off the words of a batch without loss, whether it ends behind its
mode, in front of the next step or with the bracket that closes it.
-/

namespace DerivedQuery

variable {scope : Scope}
variable {params rest : List Param}
variable {run : List Word}

namespace Bulk

/-- A step is written as the word that starts it and the words cut off behind
that. -/
theorem written_of_yields_stepRead
    {word : Word}
    {kind : StepKind}
    {body after : List Word}
    {step : BulkStep}
    (free : scope.schema.BracketFree)
    (parts : cutStep word run = .ok (kind, body, after))
    (yields : (kind.read scope body).Yields params step rest) :
    step.Written scope.schema (word :: body) ∧ run = body ++ after := by
  rcases cutStep_eq_ok parts with
    ⟨isInsert, rfl, mode, -, rfl, rfl⟩ | ⟨⟨isUpdate, rfl⟩ | ⟨isDelete, rfl⟩, rfl, rfl⟩
  · obtain ⟨record, rfl, reads⟩ := Binding.yields_then_pure.mp yields
    exact ⟨.insert (Word.is_iff.mpr isInsert) (Insert.written_of_yields_read reads), rfl⟩
  · obtain ⟨record, rfl, reads⟩ := Binding.yields_then_pure.mp yields
    exact ⟨.update (Word.is_iff.mpr isUpdate) (Update.written_of_yields_read free reads),
      (Scope.stepBody_append_stepRest run).symm⟩
  · obtain ⟨record, rfl, reads⟩ := Binding.yields_then_pure.mp yields
    exact ⟨.delete (Word.is_iff.mpr isDelete) (Delete.written_of_yields_read free reads),
      (Scope.stepBody_append_stepRest run).symm⟩

theorem writtenRow_of_yields_readSteps
    {steps : List BulkStep}
    (free : scope.schema.BracketFree)
    (yields : (readSteps scope run).Yields params steps rest) :
    WrittenRow (BulkStep.Written scope.schema) steps run := by
  fun_induction readSteps scope run generalizing params steps rest with
  | case1 =>
      obtain ⟨rfl, -⟩ := Binding.yields_pure.mp yields
      exact .nil
  | case2 word after fault parts => simp at yields
  | case3 word after kind body others parts hypothesis =>
      simp only [Binding.yields_bind, Binding.yields_pure] at yields
      obtain ⟨step, _, readsStep, steps, _, readsSteps, rfl, -⟩ := yields
      obtain ⟨written, rfl⟩ := written_of_yields_stepRead free parts readsStep
      exact .cons written (hypothesis readsSteps)

theorem written_of_yields_read
    {bulk : Bulk}
    {invocation : Invocation}
    (free : scope.schema.BracketFree)
    (yields : (Bulk.read scope run invocation).Yields params bulk rest) :
    bulk.Written scope.schema run := by
  obtain ⟨opened, -, readsSteps, -⟩ := yields_read_iff.mp yields
  exact writtenRow_of_yields_readSteps free readsSteps

end Bulk

namespace Transaction

/-- The words in front of the one that starts a step name its collection. -/
theorem written_of_startStep
    {handles : List CollectionHandle}
    {word : Word}
    {start : StepStart}
    (found : startStep handles word run = .ok start) :
    start.head.is start.kind.operation.keyword ∧
      ∃ front, start.resource.Written handles front ∧
        word :: run = front ++ start.head :: start.rest := by
  rcases startStep_eq_ok_iff.mp found with
    ⟨starts, resource_eq, rfl, rfl⟩ | ⟨isCollection, inCollection⟩
  · exact ⟨starts, [], resource_eq ▸ .primary, rfl⟩
  · obtain ⟨behind, starts, named, handle, known, resource_eq⟩ :=
      startInCollection_eq_ok_iff.mp inCollection
    have spelled : handle.spelling = String.join (Word.texts (Scope.stepBody run)) := by
      simpa using List.find?_some known
    refine ⟨starts, word :: Scope.stepBody run, ?_, ?_⟩
    · rw [resource_eq]
      exact .handle isCollection (List.mem_of_find?_eq_some known) named spelled.symm
    · rw [List.cons_append, ← behind, Scope.stepBody_append_stepRest]

/-- What is cut off for a step, with the brackets around a Bulk. -/
theorem written_of_yields_stepRead
    {head : Word}
    {kind : StepKind}
    {body after : List Word}
    {action : TransactionAction}
    (free : scope.schema.BracketFree)
    (starts : head.is kind.operation.keyword)
    (parts : kind.cut head run = .ok (body, after))
    (yields : (kind.read scope body).Yields params action rest) :
    ∃ words, action.Written scope.schema words ∧ head :: run = words ++ after := by
  rcases StepKind.cut_eq_ok_iff.mp parts with
    ⟨rfl, rfl, rfl⟩ | ⟨isWrite, rfl, rfl⟩ | ⟨rfl, opening, inner, rfl, opens, found⟩
  · obtain ⟨record, rfl, reads⟩ := Binding.yields_then_pure.mp yields
    refine ⟨head :: run.take 1,
      .single (.insert starts (Insert.written_of_yields_read reads)), ?_⟩
    rw [List.cons_append, List.take_append_drop]
  · refine ⟨head :: Scope.stepBody run, ?_, ?_⟩
    · rcases isWrite with rfl | rfl
      · obtain ⟨record, rfl, reads⟩ := Binding.yields_then_pure.mp yields
        exact .single (.update starts (Update.written_of_yields_read free reads))
      · obtain ⟨record, rfl, reads⟩ := Binding.yields_then_pure.mp yields
        exact .single (.delete starts (Delete.written_of_yields_read free reads))
    · rw [List.cons_append, Scope.stepBody_append_stepRest]
  · obtain ⟨closing, closes, rfl, -⟩ := Brackets.splitClosing_eq_some_iff.mp found
    obtain ⟨record, rfl, reads⟩ := Binding.yields_then_pure.mp yields
    refine ⟨head :: opening :: body ++ [closing],
      .bulk starts opens closes (Bulk.written_of_yields_read free reads), ?_⟩
    simp

theorem writtenRow_of_yields_readSteps
    {handles : List CollectionHandle}
    {steps : List TransactionStep}
    (free : scope.schema.BracketFree)
    (yields : (readSteps scope handles run).Yields params steps rest) :
    WrittenRow (TransactionStep.Written scope.schema handles) steps run := by
  fun_induction readSteps scope handles run generalizing params steps rest with
  | case1 =>
      obtain ⟨rfl, -⟩ := Binding.yields_pure.mp yields
      exact .nil
  | case2 word after fault parts => simp at yields
  | case3 word after start body others parts hypothesis =>
      simp only [Binding.yields_bind, Binding.yields_pure] at yields
      obtain ⟨action, _, readsStep, steps, _, readsSteps, rfl, -⟩ := yields
      obtain ⟨found, cutParts⟩ := cutStep_eq_ok parts
      obtain ⟨starts, front, resource, run_eq⟩ := written_of_startStep found
      obtain ⟨words, action, words_eq⟩ :=
        written_of_yields_stepRead free starts cutParts readsStep
      rw [run_eq, words_eq, ← List.append_assoc]
      exact .cons (.intro resource action) (hypothesis readsSteps)

theorem written_of_yields_read
    {transaction : Transaction}
    (free : scope.schema.BracketFree)
    (yields : (Transaction.read scope run).Yields params transaction rest) :
    transaction.Written scope.schema run := by
  obtain ⟨_, _, row, _, steps, -, -, -, -, readsSteps, -, -, rfl⟩ := yields_read_iff.mp yields
  exact writtenRow_of_yields_readSteps free readsSteps

end Transaction

end DerivedQuery
