import DerivedQuery.Proofs.Comparison.Write
import DerivedQuery.Proofs.Slots.Search

/-!
# Searches side by side

The clauses of a Find are cut in the same place and settle the same entries. A
finished Find is relabeled clause by clause; each word that starts a clause
takes just the names that its clause has bound.
-/

namespace DerivedQuery

namespace Find

/-! ## Relabeling clause by clause -/

/-- A Find with another context and with the entries that other clauses have
settled. -/
def settledBy (find : Find) (context : String) (settled : Clauses) : Find :=
  { find with
    context := context
    skip := settled.skip <|> find.skip
    limit := settled.limit <|> find.limit
    query := settled.query.getD find.query }

theorem orElse_eq_left
    {old? new? : Option String}
    (same : old?.isSome = new?.isSome) :
    (new? <|> old?) = new? := by
  cases new? with
  | none => simpa using same
  | some name => rfl

/-- Words that start no clause hold no names. -/
theorem relabelClause_eq_pure
    {word : Word}
    (within : startsClause word = false)
    (find relabeled : Find) :
    find.relabelClause relabeled word = pure relabeled := by
  unfold relabelClause
  split <;> simp_all [startsClause]

theorem foldlM_relabelClause_dropWhile
    (find relabeled : Find)
    (run : List Word) :
    (run.dropWhile (!startsClause ·)).foldlM find.relabelClause relabeled =
      run.foldlM find.relabelClause relabeled := by
  induction run with
  | nil => rfl
  | cons word rest hypothesis =>
      cases starts : startsClause word with
      | true => simp [starts]
      | false => simp [starts, hypothesis, relabelClause_eq_pure starts]

/-- Only the words that start clauses matter. -/
theorem foldlM_relabelClause_ofRun
    (find relabeled : Find)
    (run : List Word) :
    ((Clause.ofRun run).map Clause.head).foldlM find.relabelClause relabeled =
      run.foldlM find.relabelClause relabeled := by
  fun_induction Clause.ofRun run generalizing relabeled with
  | case1 => rfl
  | case2 head rest hypothesis =>
      simp only [List.map_cons, List.foldlM_cons, hypothesis, foldlM_relabelClause_dropWhile]

end Find

theorem Query.read_eq_refuse
    {scope : Scope}
    {first : Word}
    {body : List Word}
    (other : Scope.startsQuery first = false) :
    Query.read scope (first :: body) = Binding.refuse .missingQuery (first :: body) := by
  unfold Query.read
  split
  · simp_all [Scope.startsQuery, Word.is]
  · split <;> simp_all [Scope.startsQuery, Word.is]

namespace Comparison

variable {comparison : Comparison}
variable {run twin : List Word}

theorem alike_count (runs : comparison.Runs run twin) :
    comparison.Alike (Relabels Count.relabel)
      (Count.read comparison.scope run) (Count.read comparison.otherScope twin) := by
  have signature_eq : Signature.count comparison.other comparison.scope.config =
      Signature.count comparison.scope.method comparison.scope.config := by
    simp only [Signature.count, comparison.agree.standard_eq]
  apply (alike_ofCheck signature_eq).bind
  rintro _ _ _ ⟨rfl, -⟩
  apply alike_takeContext.bind
  rintro context _ twinContext rfl
  apply (alike_readBareQuery runs).bind
  intro query names twinQuery takes
  apply alike_ensureExhausted.bind
  rintro _ _ _ rfl
  rw [otherScope_name]
  exact alike_pure ((Relabeling.takes_next context twinContext).bind
    (takes.bind (Relabeling.takes_pure _)))

/-! ## Sort fields and projection -/

theorem results_readProjection
    (runs : comparison.Runs run twin)
    (schema : Schema) :
    Results comparison.Faults (fun keys twinKeys => keys = twinKeys)
      (Find.readProjection schema run) (Find.readProjection schema twin) := by
  simp only [Find.readProjection, runs.isEmpty_eq]
  split
  · exact .ok rfl
  · have results := results_resolveAll runs schema
    generalize FieldPath.resolveAll schema run = outcome at results ⊢
    generalize FieldPath.resolveAll schema twin = twinOutcome at results ⊢
    cases results with
    | error related => exact .error related
    | ok same =>
        subst same
        exact .ok rfl

theorem results_readSort
    (runs : comparison.Runs run twin)
    (schema : Schema) :
    Results comparison.Faults (fun sort twinSort => sort = twinSort)
      (Find.readSort schema run) (Find.readSort schema twin) := by
  induction length_eq : run.length using Nat.strong_induction_on generalizing run twin with
  | h length hypothesis =>
      have segment := runs.takeWhile (!·.is .desc) (by simp)
      have behind := runs.dropWhile (!·.is .desc) (by simp)
      have shorter := (run.dropWhile_suffix (!·.is .desc)).length_le
      have results := results_resolveAll segment schema
      rw [Find.readSort_eq schema run, Find.readSort_eq schema twin, segment.isEmpty_eq]
      generalize FieldPath.resolveAll schema (run.takeWhile _) = outcome at results ⊢
      generalize FieldPath.resolveAll schema (twin.takeWhile _) = twinOutcome at results ⊢
      generalize run.dropWhile (!·.is .desc) = rest at behind shorter ⊢
      generalize twin.dropWhile (!·.is .desc) = twinRest at behind ⊢
      obtain rfl := behind.twin_eq
      cases rest with
      | nil =>
          simp only [List.map_nil]
          split
          · exact .ok rfl
          · cases results with
            | error related => exact .error related
            | ok same =>
                subst same
                exact .ok rfl
      | cons desc after =>
          simp only [List.map_cons]
          split
          · exact .error (faults_on (behind.take 1) (.same _))
          · cases results with
            | error related => exact .error related
            | ok same =>
                subst same
                have smaller : after.length < length := by
                  rw [List.length_cons] at shorter
                  omega
                have further : Results comparison.Faults _ (Find.readSort schema after)
                    (Find.readSort schema (after.map comparison.move)) :=
                  hypothesis after.length smaller (behind.drop 1) rfl
                generalize Find.readSort schema after = sorted at further ⊢
                generalize Find.readSort schema (after.map comparison.move) = twinSorted
                  at further ⊢
                cases further with
                | error related => exact .error related
                | ok same =>
                    subst same
                    exact .ok rfl

/-! ## Clauses -/

theorem startsClause_move (comparison : Comparison) (word : Word) :
    Find.startsClause (comparison.move word) = Find.startsClause word := by
  unfold Find.startsClause
  rw [keyword?_move]

/-- Clauses whose words are in the same place. -/
abbrev ClausesPair (comparison : Comparison) (clause twin : Find.Clause) : Prop :=
  comparison.Runs clause.run twin.run

theorem forall₂_clauses (runs : comparison.Runs run twin) :
    List.Forall₂ comparison.ClausesPair (Find.Clause.ofRun run) (Find.Clause.ofRun twin) := by
  fun_induction Find.Clause.ofRun run generalizing twin with
  | case1 =>
      rw [runs.twin_eq, List.map_nil, Find.Clause.ofRun]
      exact .nil
  | case2 head rest hypothesis =>
      have restRuns := runs.of_isInfix (List.suffix_cons head rest).isInfix
      rw [runs.twin_eq, List.map_cons, Find.Clause.ofRun]
      refine .cons ?_ (hypothesis (restRuns.dropWhile _ (by simp [startsClause_move])))
      have body := restRuns.takeWhile (!Find.startsClause ·) (by simp [startsClause_move])
      refine ⟨?_, ?_⟩
      · have front : head :: rest.takeWhile (!Find.startsClause ·) <+: head :: rest :=
          List.cons_prefix_cons.mpr ⟨rfl, List.takeWhile_prefix _⟩
        exact front.isInfix.trans runs.part
      · exact congrArg (comparison.move head :: ·) body.twin_eq

section Clause

variable {clause twinClause : Find.Clause}

theorem ClausesPair.head_eq (pair : comparison.ClausesPair clause twinClause) :
    twinClause.head = comparison.move clause.head :=
  (List.cons.inj pair.twin_eq).1

theorem ClausesPair.body (pair : comparison.ClausesPair clause twinClause) :
    comparison.Runs clause.body twinClause.body := by
  have within : clause.body <:+: clause.run := (List.suffix_cons clause.head clause.body).isInfix
  exact ⟨within.trans pair.part, (List.cons.inj pair.twin_eq).2⟩

theorem alike_readPaging
    (pair : comparison.ClausesPair clause twinClause)
    (option : Keyword) :
    comparison.Alike (fun _ names twinName => names = [twinName])
      (Find.readPaging comparison.scope option clause)
      (Find.readPaging comparison.otherScope option twinClause) := by
  simp only [Find.readPaging, pair.body.isEmpty_eq]
  split
  · apply (alike_takeParam pair).bind
    rintro param _ twinParam ⟨rfl, paramPair⟩
    rw [comparison.type_eq paramPair]
    by_cases typed : param.type = comparison.scope.config.pagingType
    · have twinTyped : param.type = comparison.otherScope.config.pagingType := typed
      rw [if_pos typed, if_pos twinTyped]
      exact alike_pure rfl
    · have twinTyped : ¬ param.type = comparison.otherScope.config.pagingType := typed
      rw [if_neg typed, if_neg twinTyped]
      apply alike_refuse pair
      exact .naming (fun other => .pagingType option comparison.scope.config.pagingType
        other.name param.type) paramPair rfl
  · exact alike_throw (faults_unexpected pair.body _)

/-- Only a clause that starts with `By` or `All` is read as a query. -/
theorem alike_queryClause (pair : comparison.ClausesPair clause twinClause) :
    comparison.Alike
      (fun query names twinQuery => Scope.startsQuery clause.head ∧
        Relabels Query.relabel query names twinQuery)
      (Query.read comparison.scope clause.run)
      (Query.read comparison.otherScope twinClause.run) := by
  cases starts : Scope.startsQuery clause.head with
  | true =>
      apply (alike_query pair).mono
      intro query names twinQuery takes
      exact ⟨rfl, takes⟩
  | false =>
      have twinStarts : Scope.startsQuery twinClause.head = false := by
        rw [pair.head_eq, startsQuery_move, starts]
      rw [Find.Clause.run, Query.read_eq_refuse starts, Find.Clause.run,
        Query.read_eq_refuse twinStarts]
      exact alike_refuse pair (.same _)

end Clause

/-- Entries that clauses in the same place have settled. -/
structure Settles (settled twin : Find.Clauses) : Prop where
  sort_eq : settled.sort = twin.sort
  skip_eq : settled.skip.isSome = twin.skip.isSome
  limit_eq : settled.limit.isSome = twin.limit.isSome
  query_eq : settled.query.isSome = twin.query.isSome

/-- Clauses have settled entries behind other clauses. Whatever Find they are
part of in the end, relabeling it brings it from the entries in front of them
to those behind them. -/
structure Settling
    (relabel : Find -> Find -> Relabeling Find)
    (settled twinSettled next : Find.Clauses)
    (names : List String)
    (twinNext : Find.Clauses) : Prop where
  settles : Settles next twinNext
  keeps : ∀ find : Find, find.Keeps next -> find.Keeps settled
  takes : ∀ (find : Find) (context : String), find.Keeps next ->
    (relabel find (find.settledBy context twinSettled)).Takes names
      (find.settledBy context twinNext)

section Settled

variable {head : Word}
variable {settled twinSettled : Find.Clauses}

theorem Settles.settling_sort
    (settles : Settles settled twinSettled)
    (isOrder : head.keyword? = some .order)
    (sort : List SortField) :
    Settling (fun find relabeled => find.relabelClause relabeled head) settled twinSettled
      { settled with sort := some sort } [] { twinSettled with sort := some sort } := by
  refine ⟨⟨rfl, settles.skip_eq, settles.limit_eq, settles.query_eq⟩, ?_, ?_⟩
  · intro find keeps
    exact ⟨keeps.skip, keeps.limit, keeps.query⟩
  · intro find context keeps
    simp only [Find.relabelClause, isOrder]
    exact Relabeling.takes_pure _

theorem Settles.settling_skip
    (settles : Settles settled twinSettled)
    (isSkip : head.keyword? = some .skip)
    (unsettled : ¬ settled.skip.isSome)
    (name twinName : String) :
    Settling (fun find relabeled => find.relabelClause relabeled head) settled twinSettled
      { settled with skip := some name } [twinName] { twinSettled with skip := some twinName } := by
  refine ⟨⟨settles.sort_eq, rfl, settles.limit_eq, settles.query_eq⟩, ?_, ?_⟩
  · intro find keeps
    refine ⟨?_, keeps.limit, keeps.query⟩
    intro other settledEarlier
    -- A second `Skip` is refused, so nothing can have been settled before.
    simp [settledEarlier] at unsettled
  · intro find context keeps
    simp only [Find.relabelClause, isSkip, keeps.skip name rfl]
    exact fun _ => rfl

theorem Settles.settling_limit
    (settles : Settles settled twinSettled)
    (isLimit : head.keyword? = some .limit)
    (unsettled : ¬ settled.limit.isSome)
    (name twinName : String) :
    Settling (fun find relabeled => find.relabelClause relabeled head) settled twinSettled
      { settled with limit := some name } [twinName]
      { twinSettled with limit := some twinName } := by
  refine ⟨⟨settles.sort_eq, settles.skip_eq, rfl, settles.query_eq⟩, ?_, ?_⟩
  · intro find keeps
    refine ⟨keeps.skip, ?_, keeps.query⟩
    intro other settledEarlier
    simp [settledEarlier] at unsettled
  · intro find context keeps
    simp only [Find.relabelClause, isLimit, keeps.limit name rfl]
    exact fun _ => rfl

theorem Settles.settling_query
    {query twinQuery : Query}
    {names : List String}
    (settles : Settles settled twinSettled)
    (starts : Scope.startsQuery head)
    (unsettled : ¬ settled.query.isSome)
    (takes : query.relabel.Takes names twinQuery) :
    Settling (fun find relabeled => find.relabelClause relabeled head) settled twinSettled
      { settled with query := some query } names
      { twinSettled with query := some twinQuery } := by
  refine ⟨⟨settles.sort_eq, settles.skip_eq, settles.limit_eq, rfl⟩, ?_, ?_⟩
  · intro find keeps
    refine ⟨keeps.skip, keeps.limit, ?_⟩
    intro other settledEarlier
    simp [settledEarlier] at unsettled
  · intro find context keeps
    have kept : find.query = query := keeps.query query rfl
    have takesQuery := takes.then_pure fun other =>
      find.settledBy context { twinSettled with query := some other }
    have isQuery : head.keyword? = some .byQuery ∨ head.keyword? = some .allQuery := by
      simpa [Scope.startsQuery, Word.is] using starts
    rcases isQuery with isBy | isAll
    · simp only [Find.relabelClause, isBy, kept]
      exact takesQuery
    · simp only [Find.relabelClause, isAll, kept]
      exact takesQuery

end Settled

theorem alike_readClause
    {clause twinClause : Find.Clause}
    {settled twinSettled : Find.Clauses}
    (pair : comparison.ClausesPair clause twinClause)
    (settles : Settles settled twinSettled)
    (mode : Mode) :
    comparison.Alike
      (Settling (fun find relabeled => find.relabelClause relabeled clause.head)
        settled twinSettled)
      (Find.readClause comparison.scope mode settled clause)
      (Find.readClause comparison.otherScope mode twinSettled twinClause) := by
  have sorted_eq := congrArg Option.isSome settles.sort_eq
  simp only [Find.readClause, pair.head_eq, keyword?_move, pair.body.isEmpty_eq,
    ← sorted_eq, ← settles.skip_eq, ← settles.limit_eq, ← settles.query_eq]
  split
  · rename_i isOrder
    split
    · exact alike_refuse pair (.same _)
    · split
      · exact alike_refuse pair (.same _)
      · apply (alike_ofResult (results_readSort pair.body _)).bind
        rintro sort _ _ ⟨rfl, rfl⟩
        exact alike_pure (settles.settling_sort isOrder sort)
  · rename_i isSkip
    split
    · exact alike_refuse pair (.same _)
    · rename_i unsettled
      apply (alike_readPaging pair .skip).bind
      rintro name _ twinName rfl
      exact alike_pure (settles.settling_skip isSkip unsettled name twinName)
  · rename_i isLimit
    split
    · exact alike_refuse pair (.same _)
    · split
      · exact alike_refuse pair (.same _)
      · rename_i unsettled
        apply (alike_readPaging pair .limit).bind
        rintro name _ twinName rfl
        exact alike_pure (settles.settling_limit isLimit unsettled name twinName)
  · split
    · exact alike_refuse pair (.same _)
    · rename_i unsettled
      apply (alike_queryClause pair).bind
      rintro query names twinQuery ⟨starts, takes⟩
      apply alike_pure
      rw [List.append_nil]
      exact settles.settling_query starts unsettled takes

theorem alike_readClauses
    {clauses twinClauses : List Find.Clause}
    {settled twinSettled : Find.Clauses}
    (pairs : List.Forall₂ comparison.ClausesPair clauses twinClauses)
    (settles : Settles settled twinSettled)
    (mode : Mode) :
    comparison.Alike
      (Settling
        (fun find relabeled => (clauses.map Find.Clause.head).foldlM find.relabelClause relabeled)
        settled twinSettled)
      (Find.readClauses comparison.scope mode settled clauses)
      (Find.readClauses comparison.otherScope mode twinSettled twinClauses) := by
  induction pairs generalizing settled twinSettled with
  | nil => exact alike_pure ⟨settles, fun _ keeps => keeps, fun _ _ _ => Relabeling.takes_pure _⟩
  | cons pair _ hypothesis =>
      apply (alike_readClause pair settles mode).bind
      intro next names twinNext settling
      apply (hypothesis settling.settles).mono
      intro last more twinLast further
      refine ⟨further.settles, fun find keeps => settling.keeps find (further.keeps find keeps), ?_⟩
      intro find context keeps
      have takesClause := settling.takes find context (further.keeps find keeps)
      exact takesClause.bind (further.takes find context keeps)

theorem alike_find (runs : comparison.Runs run twin) :
    comparison.Alike (Relabels (Find.relabel run))
      (Find.read comparison.scope run) (Find.read comparison.otherScope twin) := by
  have signature_eq : Signature.find comparison.other comparison.scope.config =
      Signature.find comparison.scope.method comparison.scope.config := by
    simp only [Signature.find, comparison.agree.standard_eq]
  have front := runs.takeWhile (!Find.startsClause ·) (by simp [startsClause_move])
  have behind := runs.dropWhile (!Find.startsClause ·) (by simp [startsClause_move])
  apply (alike_ofCheck signature_eq).bind
  rintro ⟨mode, returnType⟩ _ _ ⟨rfl, rfl⟩
  apply alike_takeContext.bind
  rintro context _ twinContext rfl
  apply (alike_ofResult (results_splitAtQuery runs)).bind
  rintro _ _ _ ⟨rfl, -⟩
  apply (alike_ofResult (results_readProjection front _)).bind
  rintro projection _ _ ⟨rfl, rfl⟩
  apply (alike_readClauses (forall₂_clauses behind) ⟨rfl, rfl, rfl, rfl⟩ mode).bind
  rintro settled names twinSettled ⟨⟨sort_eq, skip_eq, limit_eq, query_eq⟩, -, takes⟩
  obtain ⟨sort, skip, limit, query?⟩ := settled
  obtain ⟨_, twinSkip, twinLimit, twinQuery?⟩ := twinSettled
  obtain rfl : sort = _ := sort_eq
  cases query? with
  | none =>
      obtain rfl : twinQuery? = none := by simpa using query_eq.symm
      exact alike_throw (faults_overall (.same _))
  | some query =>
      obtain ⟨twinQuery, rfl⟩ := Option.isSome_iff_exists.mp query_eq.symm
      apply alike_ensureExhausted.bind
      rintro _ _ _ rfl
      rw [otherScope_name]
      apply alike_pure
      generalize found_eq : Find.mk comparison.scope.method.name mode context returnType projection
        (sort.getD []) skip limit query = found
      have keeps : found.Keeps ⟨sort, skip, limit, some query⟩ := by
        subst found_eq
        exact ⟨fun _ kept => kept, fun _ kept => kept, fun _ kept => Option.some.inj kept⟩
      have takesClauses := takes found twinContext keeps
      rw [Find.foldlM_relabelClause_ofRun, Find.foldlM_relabelClause_dropWhile] at takesClauses
      have settled_eq : found.settledBy twinContext ⟨sort, twinSkip, twinLimit, some twinQuery⟩ =
          ⟨comparison.scope.method.name, mode, twinContext, returnType, projection, sort.getD [],
            twinSkip, twinLimit, twinQuery⟩ := by
        subst found_eq
        simp only [Find.settledBy, Find.orElse_eq_left skip_eq, Find.orElse_eq_left limit_eq,
          Option.getD_some]
      rw [settled_eq] at takesClauses
      simp only [List.nil_append, List.append_nil]
      exact (Relabeling.takes_next found.context twinContext).bind takesClauses

end Comparison
end DerivedQuery
