import DerivedQuery.Proofs.ClauseReader
import DerivedQuery.Proofs.Slots.Write

/-!
# Slots of searches

The clauses of a Find bind in the order in which they are written. Each clause
settles an entry of the record for good, since no clause may be repeated, so
the slots of a clause can be read off the finished record.
-/

namespace DerivedQuery

variable {scope : Scope}
variable {params rest : List Param}

namespace Count

theorem fills_of_yields_read
    {run : List Word}
    {count : Count}
    (yields : (Count.read scope run).Yields scope.method.params count rest) :
    Slot.Fills scope.schema scope.config count.slots scope.method.params rest ∧ rest = [] := by
  obtain ⟨context, opened, signed, params_eq, -, readsQuery, -, context_eq, rfl⟩ :=
    yields_read_iff.mp yields
  have fillsContext := (Signature.opensWithContext_of_standard signed).fills params_eq
  rw [Count.slots, context_eq]
  exact ⟨fillsContext.append (Query.fills_of_yields_read readsQuery), rfl⟩

end Count

namespace Find

/-- A `Skip` or `Limit` takes one parameter of the paging type. -/
theorem fills_of_yields_readPaging
    {option : Keyword}
    {clause : Clause}
    {name : String}
    (yields : (readPaging scope option clause).Yields params name rest) :
    Slot.Fills scope.schema scope.config [.paging name] params rest := by
  obtain ⟨-, param, rfl, typed, rfl⟩ := yields_readPaging_iff.mp yields
  exact .param rfl (by rw [Slot.Accepts, typed])

/-- A Find that keeps what clauses have settled. -/
structure Keeps (find : Find) (settled : Clauses) : Prop where
  skip : ∀ name, settled.skip = some name -> find.skip = some name
  limit : ∀ name, settled.limit = some name -> find.limit = some name
  query : ∀ query, settled.query = some query -> find.query = query

/-- A clause fills the slots that the finished record has for it. Keeping goes
backwards: a record that keeps what is settled behind a clause keeps what was
settled in front of it. -/
theorem fills_of_yields_readClause
    {find : Find}
    {mode : Mode}
    {settled next : Clauses}
    {clause : Clause}
    (yields : (readClause scope mode settled clause).Yields params next rest)
    (keeps : find.Keeps next) :
    find.Keeps settled ∧
      Slot.Fills scope.schema scope.config (find.clauseSlots clause.head) params rest := by
  obtain ⟨setting, reads, free, rfl⟩ := yields_readClause_iff.mp yields
  rcases yields_readSetting_iff.mp reads with
    ⟨isOrder, -, fields, rfl, -, rfl⟩ | ⟨isSkip, name, rfl, readsPaging⟩ |
    ⟨isLimit, -, name, rfl, readsPaging⟩ | ⟨-, -, -, query, rfl, readsQuery⟩
  · rw [clauseSlots, isOrder]
    exact ⟨⟨keeps.skip, keeps.limit, keeps.query⟩, .nil⟩
  · have unsettled : settled.skip = none := by simpa [Setting.entry, Clauses.get?] using free
    have kept : find.skip = some name := keeps.skip name rfl
    rw [clauseSlots, isSkip, kept]
    -- A second `Skip` is refused, so nothing can have been settled before.
    exact ⟨⟨by simp [unsettled], keeps.limit, keeps.query⟩, fills_of_yields_readPaging readsPaging⟩
  · have unsettled : settled.limit = none := by simpa [Setting.entry, Clauses.get?] using free
    have kept : find.limit = some name := keeps.limit name rfl
    rw [clauseSlots, isLimit, kept]
    exact ⟨⟨keeps.skip, by simp [unsettled], keeps.query⟩, fills_of_yields_readPaging readsPaging⟩
  · have unsettled : settled.query = none := by simpa [Setting.entry, Clauses.get?] using free
    have kept : find.query = query := keeps.query query rfl
    refine ⟨⟨keeps.skip, keeps.limit, by simp [unsettled]⟩, ?_⟩
    rcases Query.yields_read_cases readsQuery with
      ⟨first, run_eq, isAll, rfl, rfl⟩ | ⟨first, body, run_eq, isBy⟩
    · obtain ⟨rfl, -⟩ := List.cons.inj run_eq
      rw [clauseSlots, isAll]
      exact .nil
    · obtain ⟨rfl, -⟩ := List.cons.inj run_eq
      rw [clauseSlots, isBy, kept]
      exact Query.fills_of_yields_read readsQuery

/-- Clauses fill their slots one behind the other. -/
theorem fills_of_yields_readClauses
    {find : Find}
    {mode : Mode}
    {clauses : List Clause}
    {settled last : Clauses}
    (yields : (readClauses scope mode settled clauses).Yields params last rest)
    (keeps : find.Keeps last) :
    find.Keeps settled ∧
      Slot.Fills scope.schema scope.config
        (clauses.flatMap fun clause => find.clauseSlots clause.head) params rest := by
  induction clauses generalizing settled params with
  | nil =>
      obtain ⟨rfl, rfl⟩ := Binding.yields_pure.mp yields
      exact ⟨keeps, .nil⟩
  | cons clause clauses hypothesis =>
      obtain ⟨next, middle, readsClause, readsClauses⟩ := Binding.yields_bind.mp yields
      obtain ⟨keepsNext, fillsClauses⟩ := hypothesis readsClauses
      obtain ⟨keepsSettled, fillsClause⟩ := fills_of_yields_readClause readsClause keepsNext
      exact ⟨keepsSettled, fillsClause.append fillsClauses⟩

/-- Words that start no clause have no slots. -/
theorem clauseSlots_eq_nil
    {find : Find}
    {word : Word}
    (within : startsClause word = false) :
    find.clauseSlots word = [] := by
  unfold clauseSlots
  split <;> simp_all [startsClause]

/-- Words in front of the first clause have no slots. -/
theorem flatMap_clauseSlots_dropWhile
    (find : Find)
    (run : List Word) :
    (run.dropWhile (!startsClause ·)).flatMap find.clauseSlots =
      run.flatMap find.clauseSlots := by
  have front : (run.takeWhile (!startsClause ·)).flatMap find.clauseSlots = [] := by
    rw [List.flatMap_eq_nil_iff]
    intro word member
    have outside := List.all_eq_true.mp List.all_takeWhile word member
    exact clauseSlots_eq_nil (by simpa using outside)
  calc
    (run.dropWhile (!startsClause ·)).flatMap find.clauseSlots =
        (run.takeWhile (!startsClause ·)).flatMap find.clauseSlots ++
          (run.dropWhile (!startsClause ·)).flatMap find.clauseSlots := by
      rw [front, List.nil_append]
    _ = run.flatMap find.clauseSlots := by
      rw [← List.flatMap_append, List.takeWhile_append_dropWhile]

theorem flatMap_clauseSlots_ofRun
    (find : Find)
    (run : List Word) :
    ((Clause.ofRun run).flatMap fun clause => find.clauseSlots clause.head) =
      run.flatMap find.clauseSlots := by
  fun_induction Clause.ofRun run with
  | case1 => rfl
  | case2 head rest hypothesis =>
      rw [List.flatMap_cons, hypothesis, flatMap_clauseSlots_dropWhile, List.flatMap_cons]

/-- The clauses of a Find bind in the order in which they are written. -/
theorem fills_of_yields_read
    {run : List Word}
    {find : Find}
    (yields : (Find.read scope run).Yields scope.method.params find rest) :
    Slot.Fills scope.schema scope.config (find.slots run) scope.method.params rest ∧
      rest = [] := by
  obtain ⟨context, others, settled, signed, params_eq, -, -, readsClauses, settles, -, context_eq,
    -, skip_eq, limit_eq, rfl⟩ := yields_read_iff.mp yields
  have keeps : find.Keeps settled := by
    refine ⟨fun name found => skip_eq.trans found, fun name found => limit_eq.trans found, ?_⟩
    intro query found
    exact Option.some.inj (settles.symm.trans found)
  obtain ⟨-, fillsClauses⟩ := fills_of_yields_readClauses readsClauses keeps
  rw [flatMap_clauseSlots_ofRun, flatMap_clauseSlots_dropWhile] at fillsClauses
  have fillsContext := (Signature.opensWithContext_of_standard signed).fills params_eq
  rw [Find.slots, context_eq]
  exact ⟨fillsContext.append fillsClauses, rfl⟩

/-- A word that names an operation starts no clause. -/
theorem startsClause_eq_false_of_ofName?
    {word : Word}
    {kind : OperationKind}
    (named : OperationKind.ofName? word.text = some kind) :
    startsClause word = false := by
  obtain ⟨keyword, spelled, starts⟩ := Option.bind_eq_some_iff.mp named
  have keyword_eq : word.keyword? = some keyword := spelled
  unfold startsClause
  cases keyword <;> simp_all [Keyword.operation?]

end Find

end DerivedQuery
