import DerivedQuery.Proofs.Comparison.Write

/-!
# Batches side by side

The steps of a Bulk or Transaction are cut in the same place, and the steps of
a Transaction write to the same collections.
-/

namespace DerivedQuery
namespace Comparison

variable {comparison : Comparison}
variable {run twin : List Word}

theorem startsStep_move (comparison : Comparison) (word : Word) :
    Scope.startsStep (comparison.move word) = Scope.startsStep word := by
  unfold Scope.startsStep
  rw [keyword?_move]

namespace Runs

theorem stepBody (runs : comparison.Runs run twin) :
    comparison.Runs (Scope.stepBody run) (Scope.stepBody twin) :=
  runs.takeWhile (!Scope.startsStep ·) (by simp [startsStep_move])

theorem stepRest (runs : comparison.Runs run twin) :
    comparison.Runs (Scope.stepRest run) (Scope.stepRest twin) :=
  runs.dropWhile (!Scope.startsStep ·) (by simp [startsStep_move])

/-- The first word of a run and the words of its first step. -/
theorem cons_stepBody
    {word twinWord : Word}
    (runs : comparison.Runs (word :: run) (twinWord :: twin)) :
    comparison.Runs (word :: Scope.stepBody run) (twinWord :: Scope.stepBody twin) := by
  have front : word :: Scope.stepBody run <+: word :: run :=
    List.cons_prefix_cons.mpr ⟨rfl, List.takeWhile_prefix _⟩
  obtain ⟨word_eq, -⟩ := List.cons.inj runs.twin_eq
  refine ⟨front.isInfix.trans runs.part, ?_⟩
  rw [word_eq, List.map_cons, runs.tail.stepBody.twin_eq]

end Runs

/-! ## Bulk -/

section Cut

variable {word twinWord : Word}
variable {rest twinRest : List Word}

theorem results_bulkCut
    (runs : comparison.Runs (word :: rest) (twinWord :: twinRest)) :
    Results comparison.Faults
      (fun (kind, body, after) (twinKind, twinBody, twinAfter) => kind = twinKind ∧
        comparison.Runs body twinBody ∧ comparison.Runs after twinAfter)
      (Bulk.cutStep word rest) (Bulk.cutStep twinWord twinRest) := by
  have restRuns := runs.tail
  obtain ⟨rfl, rfl⟩ := List.cons.inj runs.twin_eq
  simp only [Bulk.cutStep, keyword?_move]
  split
  · cases rest with
    | nil => exact .error (faults_on (runs.take 1) (.same _))
    | cons mode after =>
        simp only [List.map_cons, is_move]
        split
        · exact .ok ⟨rfl, restRuns.take 1, restRuns.drop 1⟩
        · split
          · exact .error (faults_on (runs.take 2) (.same _))
          · exact .error (faults_on (runs.take 1) (.same _))
  · exact .ok ⟨rfl, restRuns.stepBody, restRuns.stepRest⟩
  · exact .ok ⟨rfl, restRuns.stepBody, restRuns.stepRest⟩
  · exact .error (faults_on (runs.take 1) (.same _))
  · exact .error (faults_on (runs.take 1) (.same _))
  · exact .error (faults_on (runs.take 1) (.same _))
  · exact .error (faults_on (runs.take 1) (.same _))
  · exact .error (faults_unexpected runs.cons_stepBody _)

end Cut

theorem alike_bulkStep
    (runs : comparison.Runs run twin)
    (kind : Bulk.StepKind) :
    comparison.Alike (Relabels BulkStep.relabel)
      (kind.read comparison.scope run) (kind.read comparison.otherScope twin) := by
  cases kind with
  | insert => exact (alike_insert runs .nested).then_pure fun _ => rfl
  | update => exact (alike_update runs .nested).then_pure fun _ => rfl
  | delete => exact (alike_delete runs .nested).then_pure fun _ => rfl

theorem alike_bulkSteps (runs : comparison.Runs run twin) :
    comparison.Alike (Relabels (List.mapM BulkStep.relabel))
      (Bulk.readSteps comparison.scope run) (Bulk.readSteps comparison.otherScope twin) := by
  obtain ⟨part, rfl⟩ := runs
  fun_induction Bulk.readSteps comparison.scope run with
  | case1 =>
      rw [List.map_nil, Bulk.readSteps]
      exact alike_pure (Relabeling.takes_pure [])
  | case2 word rest fault parts =>
      have results := results_bulkCut ⟨part, rfl⟩
      rw [List.map_cons, Bulk.readSteps_cons]
      rw [parts] at results
      generalize Bulk.cutStep (comparison.move word) _ = outcome at results ⊢
      cases results with
      | error faults => exact alike_throw faults
  | case3 word rest kind body after parts hypothesis =>
      have results := results_bulkCut ⟨part, rfl⟩
      rw [List.map_cons, Bulk.readSteps_cons]
      rw [parts] at results
      generalize Bulk.cutStep (comparison.move word) _ = outcome at results ⊢
      cases results with
      | @ok _ twinParts same =>
          obtain ⟨_, twinBody, twinAfter⟩ := twinParts
          obtain ⟨rfl, bodyRuns, afterPart, rfl⟩ := same
          apply (alike_bulkStep bodyRuns kind).bind
          intro step names twinStep takes
          apply (hypothesis afterPart).bind
          intro steps more twinSteps takesMore
          apply alike_pure
          rw [List.append_nil]
          exact takes.cons takesMore

theorem alike_bulk
    (runs : comparison.Runs run twin)
    (invocation : Invocation) :
    comparison.Alike (Relabels Bulk.relabel)
      (Bulk.read comparison.scope run invocation)
      (Bulk.read comparison.otherScope twin invocation) := by
  have alikeContext : comparison.Alike (Relabels (Option.mapM Relabeling.next))
      (Bulk.readContext comparison.scope invocation)
      (Bulk.readContext comparison.otherScope invocation) := by
    cases invocation with
    | standalone =>
        have signature_eq : Signature.bulk comparison.other comparison.scope.config =
            Signature.bulk comparison.scope.method comparison.scope.config := by
          simp only [Signature.bulk, comparison.agree.standard_eq]
        apply (alike_ofCheck signature_eq).bind
        rintro _ _ _ ⟨rfl, -⟩
        apply alike_takeContext.bind
        rintro context _ twinContext rfl
        exact alike_pure fun _ => rfl
    | nested => exact alike_pure (Relabeling.takes_pure none)
  apply alikeContext.bind
  intro context names twinContext takesContext
  apply (alike_bulkSteps runs).bind
  intro steps more twinSteps takesSteps
  rw [takesSteps.isEmpty_eq]
  split
  · exact alike_refuse runs (.same _)
  · apply (alike_closeWrite invocation).bind
    rintro _ _ _ rfl
    rw [otherScope_name]
    exact alike_pure (takesContext.bind (takesSteps.bind (Relabeling.takes_pure _)))

/-! ## Transaction -/

section Cut

variable {word twinWord : Word}
variable {rest twinRest : List Word}

theorem results_transactionCut
    (runs : comparison.Runs (word :: rest) (twinWord :: twinRest))
    (kind : Transaction.StepKind) :
    Results comparison.Faults
      (fun (body, after) (twinBody, twinAfter) =>
        comparison.Runs body twinBody ∧ comparison.Runs after twinAfter)
      (kind.cut word rest) (kind.cut twinWord twinRest) := by
  have restRuns := runs.tail
  cases kind with
  | insert => exact .ok ⟨restRuns.take 1, restRuns.drop 1⟩
  | update => exact .ok ⟨restRuns.stepBody, restRuns.stepRest⟩
  | delete => exact .ok ⟨restRuns.stepBody, restRuns.stepRest⟩
  | bulk =>
      obtain ⟨rfl, rfl⟩ := List.cons.inj runs.twin_eq
      cases rest with
      | nil => exact .error (faults_on (runs.take 1) (.same _))
      | cons bracket inner =>
          simp only [Transaction.StepKind.cut, List.map_cons, is_move, splitClosing_move]
          split
          · cases divided : Brackets.splitClosing 0 inner with
            | none => exact .error (faults_on runs (.same _))
            | some parts =>
                obtain ⟨insidePart, afterPart⟩ := isInfix_of_splitClosing divided
                have innerRuns := restRuns.tail
                exact .ok ⟨innerRuns.of_isInfix insidePart, innerRuns.of_isInfix afterPart⟩
          · exact .error (faults_on (runs.take 1) (.same _))

/-- Steps that are found in the same place. -/
structure Starts (comparison : Comparison) (start twin : Transaction.StepStart) : Prop where
  resource_eq : start.resource = twin.resource
  kind_eq : start.kind = twin.kind
  runs : comparison.Runs (start.head :: start.rest) (twin.head :: twin.rest)

theorem results_startInCollection
    (runs : comparison.Runs (word :: rest) (twinWord :: twinRest))
    (handles : List CollectionHandle) :
    Results comparison.Faults comparison.Starts
      (Transaction.startInCollection handles word rest)
      (Transaction.startInCollection handles twinWord twinRest) := by
  have name := runs.tail.stepBody
  have behind := runs.tail.stepRest
  unfold Transaction.startInCollection
  simp only [runs.tail.isEmpty_eq, name.isEmpty_eq, name.texts_eq]
  generalize Scope.stepRest rest = step at behind ⊢
  generalize Scope.stepRest twinRest = twinStep at behind ⊢
  obtain rfl := behind.twin_eq
  cases step with
  | nil =>
      simp only [List.map_nil]
      split
      · exact .error (faults_on (runs.take 1) (.same _))
      · exact .error (faults_on runs.cons_stepBody (.same _))
  | cons head after =>
      rw [List.map_cons]
      dsimp only
      rw [keyword?_move]
      split
      · exact .error (faults_on runs.cons_stepBody (.same _))
      · split
        · exact .error (faults_on (behind.take 1) (.same _))
        · split
          · exact .error (faults_on (runs.take 1) (.same _))
          · split
            · exact .ok ⟨rfl, rfl, behind⟩
            · exact .error (faults_on name (.same _))

theorem results_startStep
    (runs : comparison.Runs (word :: rest) (twinWord :: twinRest))
    (handles : List CollectionHandle) :
    Results comparison.Faults comparison.Starts
      (Transaction.startStep handles word rest)
      (Transaction.startStep handles twinWord twinRest) := by
  have keyword_eq : twinWord.keyword? = word.keyword? := by
    rw [(List.cons.inj runs.twin_eq).1, keyword?_move]
  simp only [Transaction.startStep, keyword_eq]
  split
  · exact results_startInCollection runs handles
  · split
    · exact .error (faults_unexpected runs.cons_stepBody _)
    · split
      · exact .error (faults_on (runs.take 1) (.same _))
      · exact .ok ⟨rfl, rfl, runs⟩

theorem results_transactionCutStep
    (runs : comparison.Runs (word :: rest) (twinWord :: twinRest))
    (handles : List CollectionHandle) :
    Results comparison.Faults
      (fun (start, body, after) (twinStart, twinBody, twinAfter) =>
        start.resource = twinStart.resource ∧ start.kind = twinStart.kind ∧
          comparison.Runs body twinBody ∧ comparison.Runs after twinAfter)
      (Transaction.cutStep handles word rest)
      (Transaction.cutStep handles twinWord twinRest) := by
  have results := results_startStep runs handles
  unfold Transaction.cutStep
  generalize Transaction.startStep handles word rest = outcome at results ⊢
  generalize Transaction.startStep handles twinWord twinRest = twinOutcome at results ⊢
  cases results with
  | error faults => exact .error faults
  | @ok start twinStart starts =>
      have cuts := results_transactionCut starts.runs start.kind
      simp only [← starts.kind_eq]
      generalize start.kind.cut start.head start.rest = outcome at cuts ⊢
      generalize start.kind.cut twinStart.head twinStart.rest = twinOutcome at cuts ⊢
      cases cuts with
      | error faults => exact .error faults
      | ok parts => exact .ok ⟨starts.resource_eq, starts.kind_eq, parts⟩

end Cut

theorem alike_transactionAction
    (runs : comparison.Runs run twin)
    (kind : Transaction.StepKind) :
    comparison.Alike (Relabels TransactionAction.relabel)
      (kind.read comparison.scope run) (kind.read comparison.otherScope twin) := by
  cases kind with
  | insert => exact (alike_insert runs .nested).then_pure fun _ => rfl
  | update => exact (alike_update runs .nested).then_pure fun _ => rfl
  | delete => exact (alike_delete runs .nested).then_pure fun _ => rfl
  | bulk => exact (alike_bulk runs .nested).then_pure fun _ => rfl

theorem alike_transactionSteps
    (runs : comparison.Runs run twin)
    (handles : List CollectionHandle) :
    comparison.Alike (Relabels (List.mapM TransactionStep.relabel))
      (Transaction.readSteps comparison.scope handles run)
      (Transaction.readSteps comparison.otherScope handles twin) := by
  obtain ⟨part, rfl⟩ := runs
  fun_induction Transaction.readSteps comparison.scope handles run with
  | case1 =>
      rw [List.map_nil, Transaction.readSteps]
      exact alike_pure (Relabeling.takes_pure [])
  | case2 word rest fault parts =>
      have results := results_transactionCutStep ⟨part, rfl⟩ handles
      rw [List.map_cons, Transaction.readSteps_cons]
      rw [parts] at results
      generalize Transaction.cutStep handles (comparison.move word) _ = outcome at results ⊢
      cases results with
      | error faults => exact alike_throw faults
  | case3 word rest start body after parts hypothesis =>
      have results := results_transactionCutStep ⟨part, rfl⟩ handles
      rw [List.map_cons, Transaction.readSteps_cons]
      rw [parts] at results
      generalize Transaction.cutStep handles (comparison.move word) _ = outcome at results ⊢
      cases results with
      | @ok _ twinParts same =>
          obtain ⟨twinStart, twinBody, twinAfter⟩ := twinParts
          obtain ⟨resource_eq, kind_eq, bodyRuns, afterPart, rfl⟩ := same
          simp only [← resource_eq, ← kind_eq]
          apply (alike_transactionAction bodyRuns start.kind).bind
          intro action names twinAction takes
          apply (hypothesis afterPart).bind
          intro steps more twinSteps takesMore
          apply alike_pure
          rw [List.append_nil]
          have takesStep : (TransactionStep.relabel ⟨start.resource, action⟩).Takes names
              ⟨start.resource, twinAction⟩ := takes.then_pure _
          exact takesStep.cons takesMore

/-- The collections of a Transaction keep their names. -/
theorem takes_collections (collections : List Param) :
    ((collections.map CollectionHandle.ofParam).mapM CollectionHandle.relabel).Takes
      (collections.map Param.name) (collections.map CollectionHandle.ofParam) := by
  induction collections with
  | nil => exact Relabeling.takes_pure []
  | cons param rest hypothesis =>
      have takesHandle : (CollectionHandle.ofParam param).relabel.Takes [param.name]
          (CollectionHandle.ofParam param) := fun _ => rfl
      exact takesHandle.cons hypothesis

theorem alike_transaction (runs : comparison.Runs run twin) :
    comparison.Alike (Relabels Transaction.relabel)
      (Transaction.read comparison.scope run)
      (Transaction.read comparison.otherScope twin) := by
  apply (alike_ofCheck comparison.agree.transaction_eq).bind
  rintro _ _ _ ⟨rfl, -⟩
  apply alike_takeContext.bind
  rintro context _ twinContext rfl
  apply (alike_takeParam runs).bind
  rintro client _ twinClient ⟨rfl, -⟩
  apply alike_takeCollections.bind
  rintro collections _ _ ⟨rfl, rfl⟩
  apply (alike_transactionSteps runs _).bind
  intro steps names twinSteps takesSteps
  rw [takesSteps.isEmpty_eq]
  split
  · exact alike_refuse runs (.same _)
  · apply alike_ensureExhausted.bind
    rintro _ _ _ rfl
    rw [otherScope_name]
    exact alike_pure ((Relabeling.takes_next context twinContext).bind
      ((Relabeling.takes_next client.name twinClient.name).bind
        ((takes_collections collections).bind (takesSteps.bind (Relabeling.takes_pure _)))))

end Comparison
end DerivedQuery
