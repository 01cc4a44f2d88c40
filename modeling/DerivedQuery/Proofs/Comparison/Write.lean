import DerivedQuery.Proofs.Comparison.Words

/-!
# Writes side by side

Queries and single writes that are read from runs in the same place are alike,
as the operation of a method and as a step of a batch.
-/

namespace DerivedQuery
namespace Comparison

variable {comparison : Comparison}
variable {run twin : List Word}

/-! ## Queries -/

theorem alike_condition (runs : comparison.Runs run twin) :
    comparison.Alike (Relabels Condition.relabel)
      (Condition.read comparison.scope run) (Condition.read comparison.otherScope twin) := by
  have phrase_eq : Comparator.phrase? twin = Comparator.phrase? run := by
    rw [Comparator.phrase?, runs.texts_eq, Comparator.phrase?]
  simp only [Condition.read, runs.length_eq, runs.texts_eq, phrase_eq]
  split
  · exact alike_refuse runs (.same _)
  · split
    · exact alike_refuse runs (.same _)
    · rename_i comparator length found
      have fieldRuns := runs.take (run.length - length)
      simp only [fieldRuns.isEmpty_eq]
      split
      · exact alike_refuse runs (.same _)
      · apply (alike_ofResult_mapError ResolveError.fault (results_resolve fieldRuns _)).bind
        rintro path _ _ ⟨rfl, rfl⟩
        apply (alike_takeNames runs _ _).bind
        rintro names taken _ ⟨rfl, length_eq⟩
        exact alike_pure ((Relabeling.takes_mapM_next length_eq).bind (Relabeling.takes_pure _))

theorem alike_queryExpr
    {outline twinOutline : Outline}
    (outlines : comparison.Outlines outline twinOutline) :
    comparison.Alike (Relabels QueryExpr.relabel)
      (QueryExpr.read comparison.scope outline)
      (QueryExpr.read comparison.otherScope twinOutline) := by
  induction outlines with
  | leaf runs => exact (alike_condition runs).then_pure fun _ => rfl
  | node connective _ _ leftHypothesis rightHypothesis =>
      apply leftHypothesis.bind
      intro left names twinLeft takes
      apply rightHypothesis.bind
      intro right more twinRight takesMore
      exact alike_pure (takes.bind (takesMore.bind (Relabeling.takes_pure _)))
  | broken related => exact alike_throw related

theorem alike_query (runs : comparison.Runs run twin) :
    comparison.Alike (Relabels Query.relabel)
      (Query.read comparison.scope run) (Query.read comparison.otherScope twin) := by
  obtain ⟨part, rfl⟩ := runs
  cases run with
  | nil => exact alike_throw (faults_overall (.same _))
  | cons first body =>
      have runs : comparison.Runs (first :: body) _ := ⟨part, rfl⟩
      have bodyRuns := runs.tail
      simp only [List.map_cons, Query.read, keyword?_move, bodyRuns.isEmpty_eq]
      split
      · split
        · exact alike_pure (Relabeling.takes_pure _)
        · exact alike_refuse bodyRuns (.same _)
      · split
        · exact alike_refuse (runs.take 1) (.same _)
        · apply (alike_ofResult_mapError SplitError.fault (results_check bodyRuns)).bind
          rintro _ _ _ ⟨rfl, -⟩
          exact (alike_queryExpr (outlines_ofRun bodyRuns _)).then_pure fun _ => rfl
      · exact alike_refuse runs (.same _)

/-! ## Parts of writes -/

theorem faults_unexpected
    (runs : comparison.Runs run twin)
    (place : String) :
    comparison.Faults (Scope.unexpected run place) (Scope.unexpected twin place) := by
  rw [Scope.unexpected, Scope.unexpected, runs.texts_eq]
  exact faults_on runs (.same _)

theorem results_nestedMode
    (runs : comparison.Runs run twin)
    (operation : Keyword) :
    Results comparison.Faults
      (fun (mode, rest) (twinMode, twinRest) => mode = twinMode ∧ comparison.Runs rest twinRest)
      (Scope.nestedMode run operation) (Scope.nestedMode twin operation) := by
  obtain ⟨part, rfl⟩ := runs
  have runs : comparison.Runs run _ := ⟨part, rfl⟩
  cases run with
  | nil => exact .error (faults_on runs (.same _))
  | cons word rest =>
      have restRuns := runs.tail
      simp only [List.map_cons, Scope.nestedMode, is_move]
      split
      · exact .ok ⟨rfl, restRuns⟩
      · split
        · exact .ok ⟨rfl, restRuns⟩
        · exact .error (faults_on runs (.same _))

theorem startsQuery_move (comparison : Comparison) (word : Word) :
    Scope.startsQuery (comparison.move word) = Scope.startsQuery word := by
  rw [Scope.startsQuery, is_move, is_move, Scope.startsQuery]

theorem results_splitAtQuery (runs : comparison.Runs run twin) :
    Results comparison.Faults
      (fun (front, query) (twinFront, twinQuery) =>
        comparison.Runs front twinFront ∧ comparison.Runs query twinQuery)
      (Scope.splitAtQuery run) (Scope.splitAtQuery twin) := by
  have front := runs.takeWhile (!Scope.startsQuery ·) (by simp [startsQuery_move])
  have query := runs.dropWhile (!Scope.startsQuery ·) (by simp [startsQuery_move])
  unfold Scope.splitAtQuery
  generalize twin.dropWhile (!Scope.startsQuery ·) = twinQuery at query
  generalize run.dropWhile (!Scope.startsQuery ·) = queryRun at query
  obtain ⟨part, rfl⟩ := query
  cases queryRun with
  | nil => exact .error (faults_on runs (.same _))
  | cons first rest => exact .ok ⟨front, part, rfl⟩

theorem alike_openWrite
    {signature twinSignature : Except Cause Mode}
    (runs : comparison.Runs run twin)
    (operation : Keyword)
    (same : twinSignature = signature)
    (invocation : Invocation) :
    comparison.Alike
      (fun (mode, context, body) names (twinMode, twinContext, twinBody) =>
        mode = twinMode ∧ (context.mapM Relabeling.next).Takes names twinContext ∧
          comparison.Runs body twinBody)
      (Scope.openWrite operation signature run invocation)
      (Scope.openWrite operation twinSignature twin invocation) := by
  cases invocation with
  | standalone =>
      apply (alike_ofCheck same).bind
      rintro mode _ _ ⟨rfl, rfl⟩
      apply alike_takeContext.bind
      rintro context _ twinContext rfl
      exact alike_pure ⟨rfl, fun _ => rfl, runs⟩
  | nested =>
      apply (alike_ofResult (results_nestedMode runs operation)).bind
      rintro ⟨mode, rest⟩ _ ⟨_, twinRest⟩ ⟨rfl, rfl, restRuns⟩
      simp only [restRuns.isEmpty_eq]
      split
      · exact alike_refuse runs (.same _)
      · exact alike_pure ⟨rfl, Relabeling.takes_pure none, restRuns⟩

theorem alike_closeWrite (invocation : Invocation) :
    comparison.Alike (fun _ names _ => names = [])
      (Scope.closeWrite invocation) (Scope.closeWrite invocation) := by
  cases invocation with
  | standalone => exact alike_ensureExhausted
  | nested => exact alike_pure rfl

theorem alike_readBareQuery (runs : comparison.Runs run twin) :
    comparison.Alike (Relabels Query.relabel)
      (comparison.scope.readBareQuery run) (comparison.otherScope.readBareQuery twin) := by
  apply (alike_ofResult (results_splitAtQuery runs)).bind
  rintro ⟨front, queryRun⟩ _ ⟨twinFront, twinQuery⟩ ⟨rfl, frontRuns, queryRuns⟩
  simp only [frontRuns.isEmpty_eq]
  split
  · exact alike_query queryRuns
  · exact alike_throw (faults_unexpected frontRuns _)

/-! ## Insert -/

theorem results_writtenMode? (runs : comparison.Runs run twin) :
    Results comparison.Faults (fun written twinWritten => written = twinWritten)
      (Insert.writtenMode? run) (Insert.writtenMode? twin) := by
  obtain ⟨part, rfl⟩ := runs
  have runs : comparison.Runs run _ := ⟨part, rfl⟩
  match run with
  | [] => exact .ok rfl
  | [word] =>
      simp only [List.map_cons, List.map_nil, Insert.writtenMode?, is_move]
      split
      · exact .ok rfl
      · split
        · exact .ok rfl
        · exact .error (faults_unexpected runs _)
  | _ :: _ :: _ => exact .error (faults_unexpected runs _)

theorem alike_checkWritten
    (runs : comparison.Runs run twin)
    (mode : Mode)
    (type : TypeExpr)
    (written? : Option Mode) :
    comparison.Alike (fun _ names _ => names = [])
      (Insert.checkWritten mode type run written?)
      (Insert.checkWritten mode type twin written?) := by
  unfold Insert.checkWritten
  split
  · exact alike_pure rfl
  · split
    · exact alike_pure rfl
    · exact alike_refuse runs (.same _)

theorem alike_insert
    (runs : comparison.Runs run twin)
    (invocation : Invocation) :
    comparison.Alike (Relabels Insert.relabel)
      (Insert.read comparison.scope run invocation)
      (Insert.read comparison.otherScope twin invocation) := by
  cases invocation with
  | standalone =>
      apply (alike_ofCheck comparison.agree.insert_eq).bind
      rintro ⟨mode, type⟩ _ _ ⟨rfl, rfl⟩
      apply (alike_ofResult (results_writtenMode? runs)).bind
      rintro written? _ _ ⟨rfl, rfl⟩
      apply (alike_checkWritten runs mode type written?).bind
      rintro _ _ _ rfl
      apply alike_takeContext.bind
      rintro context _ twinContext rfl
      apply (alike_takeParam runs).bind
      rintro document _ twinDocument ⟨rfl, -⟩
      apply alike_ensureExhausted.bind
      rintro _ _ _ rfl
      rw [otherScope_name]
      exact alike_pure fun _ => rfl
  | nested =>
      apply (alike_ofResult (results_nestedMode runs .insert)).bind
      rintro ⟨mode, rest⟩ _ ⟨_, twinRest⟩ ⟨rfl, rfl, restRuns⟩
      simp only [restRuns.isEmpty_eq]
      split
      · apply (alike_takeParam runs).bind
        rintro document _ twinDocument ⟨rfl, pair⟩
        rw [comparison.type_eq pair, otherScope_name]
        split
        · exact alike_pure fun _ => rfl
        · apply alike_refuse runs
          exact .naming (fun param => .insertShape mode param.name document.type) pair rfl
      · exact alike_throw (faults_unexpected restRuns _)

/-! ## Update and Delete -/

theorem alike_readEntity (runs : comparison.Runs run twin) :
    comparison.Alike (Relabels Payload.relabel)
      (Payload.readEntity comparison.scope run)
      (Payload.readEntity comparison.otherScope twin) := by
  apply (alike_takeParam runs).bind
  rintro param _ twinParam ⟨rfl, pair⟩
  have mismatch := Causes.naming
    (fun other => .entityMismatch comparison.scope.schema.name param.type other.name) pair rfl
  simp only [comparison.type_eq pair, otherScope_schema]
  split
  · split
    · exact alike_pure fun _ => rfl
    · exact alike_refuse runs mismatch
  · exact alike_refuse runs mismatch
  · apply alike_refuse runs
    exact .naming (fun other => .entityNotPointer param.type other.name) pair rfl

/-- Each name of a row is bound to the same field. -/
theorem takes_mapM_field
    {key : String}
    {names twinNames more : List String}
    {bindings twinBindings : List FieldBinding}
    (length_eq : twinNames.length = names.length)
    (takes : (bindings.mapM FieldBinding.relabel).Takes more twinBindings) :
    ((names.map (FieldBinding.mk key) ++ bindings).mapM FieldBinding.relabel).Takes
      (twinNames ++ more) (twinNames.map (FieldBinding.mk key) ++ twinBindings) := by
  induction names generalizing twinNames with
  | nil =>
      obtain rfl := List.eq_nil_of_length_eq_zero length_eq
      exact takes
  | cons name names hypothesis =>
      obtain ⟨twinName, twinNames, rfl⟩ := List.exists_cons_of_length_eq_add_one length_eq
      have takesName : (FieldBinding.relabel ⟨key, name⟩).Takes [twinName] ⟨key, twinName⟩ :=
        fun _ => rfl
      exact takesName.cons (hypothesis (Nat.succ.inj length_eq))

theorem alike_bindFields
    (runs : comparison.Runs run twin)
    (paths : List FieldPath) :
    comparison.Alike (Relabels (List.mapM FieldBinding.relabel))
      (Payload.bindFields run paths) (Payload.bindFields twin paths) := by
  induction paths with
  | nil => exact alike_pure (Relabeling.takes_pure [])
  | cons path rest hypothesis =>
      apply (alike_takeNames runs path.type 1).bind
      rintro names taken _ ⟨rfl, length_eq⟩
      apply hypothesis.bind
      intro others more twinOthers takes
      apply alike_pure
      rw [List.append_nil]
      exact takes_mapM_field length_eq takes

theorem alike_payload
    {fields twinFields : List Word}
    (runs : comparison.Runs run twin)
    (fieldRuns : comparison.Runs fields twinFields) :
    comparison.Alike (Relabels Payload.relabel)
      (Payload.read comparison.scope run fields)
      (Payload.read comparison.otherScope twin twinFields) := by
  simp only [Payload.read, fieldRuns.isEmpty_eq]
  split
  · exact alike_readEntity runs
  · apply (alike_ofResult_mapError ResolveError.fault (results_resolveAll fieldRuns _)).bind
    rintro paths _ _ ⟨rfl, rfl⟩
    exact (alike_bindFields fieldRuns paths).then_pure fun _ => rfl

theorem runs_splitUpsert (runs : comparison.Runs run twin) :
    ∃ upsert fields twinFields, Update.splitUpsert run = (upsert, fields) ∧
      Update.splitUpsert twin = (upsert, twinFields) ∧ comparison.Runs fields twinFields := by
  obtain ⟨part, rfl⟩ := runs
  have runs : comparison.Runs run _ := ⟨part, rfl⟩
  cases run with
  | nil => exact ⟨false, [], [], rfl, rfl, runs⟩
  | cons first rest =>
      simp only [List.map_cons, Update.splitUpsert, is_move]
      split
      · exact ⟨true, _, _, rfl, rfl, runs.tail⟩
      · exact ⟨false, _, _, rfl, rfl, runs⟩

theorem alike_update
    (runs : comparison.Runs run twin)
    (invocation : Invocation) :
    comparison.Alike (Relabels Update.relabel)
      (Update.read comparison.scope run invocation)
      (Update.read comparison.otherScope twin invocation) := by
  have signature_eq : Signature.update comparison.other comparison.scope.config =
      Signature.update comparison.scope.method comparison.scope.config := by
    simp only [Signature.update, comparison.agree.standard_eq]
  apply (alike_openWrite runs .update signature_eq invocation).bind
  rintro ⟨mode, context, body⟩ names ⟨_, twinContext, twinBody⟩ ⟨rfl, takesContext, bodyRuns⟩
  apply (alike_ofResult (results_splitAtQuery bodyRuns)).bind
  rintro ⟨front, queryRun⟩ _ ⟨twinFront, twinQuery⟩ ⟨rfl, frontRuns, queryRuns⟩
  obtain ⟨upsert, fields, twinFields, front_eq, twinFront_eq, fieldRuns⟩ :=
    runs_splitUpsert frontRuns
  simp only [front_eq, twinFront_eq]
  apply (alike_payload bodyRuns fieldRuns).bind
  intro payload more twinPayload takesPayload
  apply (alike_query queryRuns).bind
  intro query last twinQuery takesQuery
  apply (alike_closeWrite invocation).bind
  rintro _ _ _ rfl
  rw [otherScope_name]
  exact alike_pure (takesContext.bind (takesPayload.bind (takesQuery.bind
    (Relabeling.takes_pure _))))

theorem alike_delete
    (runs : comparison.Runs run twin)
    (invocation : Invocation) :
    comparison.Alike (Relabels Delete.relabel)
      (Delete.read comparison.scope run invocation)
      (Delete.read comparison.otherScope twin invocation) := by
  have signature_eq : Signature.delete comparison.other comparison.scope.config =
      Signature.delete comparison.scope.method comparison.scope.config := by
    simp only [Signature.delete, comparison.agree.standard_eq]
  apply (alike_openWrite runs .delete signature_eq invocation).bind
  rintro ⟨mode, context, body⟩ names ⟨_, twinContext, twinBody⟩ ⟨rfl, takesContext, bodyRuns⟩
  apply (alike_readBareQuery bodyRuns).bind
  intro query more twinQuery takesQuery
  apply (alike_closeWrite invocation).bind
  rintro _ _ _ rfl
  rw [otherScope_name]
  exact alike_pure (takesContext.bind (takesQuery.bind (Relabeling.takes_pure _)))

end Comparison
end DerivedQuery
