import DerivedQuery.Proofs.RecordReader

/-!
# How operations depend on their queries

The split strategy is consulted when a query is read and nowhere else. A
relation between readers that sequencing respects therefore carries over from
the queries written in a descriptor to the whole operation: to single writes,
searches, and the steps of batches at any depth.
-/

namespace DerivedQuery

namespace Binding

/-- A value that a reader succeeds with on some parameters. -/
def Reaches
    {α : Type}
    (binding : Binding α)
    (value : α) : Prop :=
  ∃ params rest, binding.Yields params value rest

/-- A relation between readers that holds of equal ones and that sequencing
respects. -/
structure Congruence (related : {α : Type} -> Binding α -> Binding α -> Prop) : Prop where
  refl : ∀ {α : Type} (binding : Binding α), related binding binding
  bind : ∀ {α β : Type} {first second : Binding α} {next other : α -> Binding β},
    related first second ->
      (∀ value, first.Reaches value -> related (next value) (other value)) ->
        related (first >>= next) (second >>= other)

/-- Related readers stay related when their values are wrapped. -/
theorem Congruence.then_pure
    {related : {α : Type} -> Binding α -> Binding α -> Prop}
    (congruence : Congruence related)
    {α β : Type}
    {first second : Binding α}
    (same : related first second)
    (image : α -> β) :
    related (first >>= fun value => pure (image value))
      (second >>= fun value => pure (image value)) :=
  congruence.bind same fun _ _ => congruence.refl _

end Binding

namespace Scope

/-- The same scope with another split strategy. -/
def withStrategy
    (scope : Scope)
    (strategy : SplitStrategy) : Scope :=
  { scope with config := scope.config.withSplitStrategy strategy }

theorem suffix_of_splitAtQuery
    {run front queryRun : List Word}
    (parts : splitAtQuery run = .ok (front, queryRun)) :
    queryRun <:+ run :=
  ⟨front, (append_of_splitAtQuery parts).symm⟩

/-- The opening of a write takes words off the front only. -/
theorem suffix_of_openWrite
    {operation : Keyword}
    {signature : Except Cause Mode}
    {run body : List Word}
    {invocation : Invocation}
    {mode : Mode}
    {context : Option String}
    (reaches : (openWrite operation signature run invocation).Reaches (mode, context, body)) :
    body <:+ run := by
  obtain ⟨params, rest, yields⟩ := reaches
  rcases yields_openWrite_iff.mp yields with ⟨-, -, rfl, -⟩ | ⟨-, opened, -⟩
  · exact List.suffix_rfl
  · obtain ⟨word, -, rfl⟩ := exists_of_nestedMode opened
    exact List.suffix_cons word body

theorem stepBody_infix_stepRest_suffix (run : List Word) :
    stepBody run <:+: run ∧ stepRest run <:+ run :=
  ⟨⟨[], stepRest run, stepBody_append_stepRest run⟩,
    ⟨stepBody run, stepBody_append_stepRest run⟩⟩

end Scope

namespace Find

/-- The words of a clause stand together in the run it was cut from. -/
theorem Clause.infix_of_mem_ofRun
    {run : List Word}
    {clause : Clause}
    (member : clause ∈ ofRun run) :
    clause.run <:+: run := by
  fun_induction ofRun run with
  | case1 => simp at member
  | case2 head rest hypothesis =>
      rcases List.mem_cons.mp member with rfl | later
      · exact ⟨[], rest.dropWhile (!startsClause ·), by simp [Clause.run]⟩
      · have behind : rest.dropWhile (!startsClause ·) <:+ head :: rest :=
          (List.dropWhile_suffix _).trans (List.suffix_cons head rest)
        exact (hypothesis later).trans behind.isInfix

end Find

namespace Bulk

theorem infix_of_cutStep
    {word : Word}
    {rest body after : List Word}
    {kind : StepKind}
    (parts : cutStep word rest = .ok (kind, body, after)) :
    body <:+: rest ∧ after <:+ rest := by
  rcases cutStep_eq_ok parts with ⟨-, -, mode, -, rfl, rfl⟩ | ⟨-, rfl, rfl⟩
  · exact ⟨⟨[], after, rfl⟩, List.suffix_cons mode after⟩
  · exact Scope.stepBody_infix_stepRest_suffix rest

end Bulk

namespace Transaction

theorem infix_of_cut
    {kind : StepKind}
    {head : Word}
    {rest body after : List Word}
    (parts : kind.cut head rest = .ok (body, after)) :
    body <:+: rest ∧ after <:+ rest := by
  rcases StepKind.cut_eq_ok_iff.mp parts with
    ⟨-, rfl, rfl⟩ | ⟨-, rfl, rfl⟩ | ⟨-, opening, inner, rfl, -, found⟩
  · exact ⟨⟨[], rest.drop 1, List.take_append_drop 1 rest⟩, List.drop_suffix 1 rest⟩
  · exact Scope.stepBody_infix_stepRest_suffix rest
  · obtain ⟨closing, -, rfl, -⟩ := Brackets.splitClosing_eq_some_iff.mp found
    exact ⟨⟨[opening], closing :: after, by simp⟩, ⟨opening :: (body ++ [closing]), by simp⟩⟩

/-- A step starts at its first word, behind the name of its collection. -/
theorem suffix_of_startStep
    {handles : List CollectionHandle}
    {word : Word}
    {rest : List Word}
    {start : StepStart}
    (found : startStep handles word rest = .ok start) :
    start.rest <:+ rest := by
  rcases startStep_eq_ok_iff.mp found with ⟨-, -, -, rfl⟩ | ⟨-, inCollection⟩
  · exact List.suffix_rfl
  · obtain ⟨behind, -⟩ := startInCollection_eq_ok_iff.mp inCollection
    apply (List.suffix_cons start.head start.rest).trans
    rw [← behind]
    exact (Scope.stepBody_infix_stepRest_suffix rest).2

theorem infix_of_cutStep
    {handles : List CollectionHandle}
    {word : Word}
    {rest body after : List Word}
    {start : StepStart}
    (parts : cutStep handles word rest = .ok (start, body, after)) :
    body <:+: rest ∧ after <:+ rest := by
  obtain ⟨found, cut⟩ := cutStep_eq_ok parts
  obtain ⟨bodyPart, afterPart⟩ := infix_of_cut cut
  have startPart := suffix_of_startStep found
  exact ⟨bodyPart.trans startPart.isInfix, afterPart.trans startPart⟩

end Transaction

section Dependence

variable {related : {α : Type} -> Binding α -> Binding α -> Prop}
variable (congruence : Binding.Congruence related)
variable {scope : Scope}
variable {first second : SplitStrategy}
variable {words : List Word}
variable (queries : ∀ run, run ⊆ words ->
  related (Query.read (scope.withStrategy first) run)
    (Query.read (scope.withStrategy second) run))

include congruence queries

/-! ## Single writes and searches -/

/-- The query of a run is a part of it, so the assumption on queries applies. -/
theorem related_readBareQuery
    {run : List Word}
    (part : run ⊆ words) :
    related ((scope.withStrategy first).readBareQuery run)
      ((scope.withStrategy second).readBareQuery run) := by
  unfold Scope.readBareQuery
  apply congruence.bind (congruence.refl _)
  rintro ⟨front, queryRun⟩ ⟨params, rest, yields⟩
  obtain ⟨parts, -⟩ := Binding.yields_ofResult.mp yields
  have queryPart := List.Subset.trans (Scope.suffix_of_splitAtQuery parts).subset part
  by_cases bare : front.isEmpty
  · simp only [if_pos bare]
    exact queries queryRun queryPart
  · simp only [if_neg bare]
    exact congruence.refl _

theorem related_delete
    {run : List Word}
    (part : run ⊆ words)
    (invocation : Invocation) :
    related (Delete.read (scope.withStrategy first) run invocation)
      (Delete.read (scope.withStrategy second) run invocation) := by
  unfold Delete.read
  apply congruence.bind (congruence.refl _)
  rintro ⟨mode, context, body⟩ reaches
  have bodyPart := List.Subset.trans (Scope.suffix_of_openWrite reaches).subset part
  apply congruence.bind (related_readBareQuery congruence queries bodyPart)
  intro query _
  exact congruence.refl _

theorem related_update
    {run : List Word}
    (part : run ⊆ words)
    (invocation : Invocation) :
    related (Update.read (scope.withStrategy first) run invocation)
      (Update.read (scope.withStrategy second) run invocation) := by
  unfold Update.read
  apply congruence.bind (congruence.refl _)
  rintro ⟨mode, context, body⟩ reaches
  have bodyPart := List.Subset.trans (Scope.suffix_of_openWrite reaches).subset part
  apply congruence.bind (congruence.refl _)
  rintro ⟨front, queryRun⟩ ⟨params, rest, yields⟩
  obtain ⟨parts, -⟩ := Binding.yields_ofResult.mp yields
  have queryPart := List.Subset.trans (Scope.suffix_of_splitAtQuery parts).subset bodyPart
  apply congruence.bind (congruence.refl _)
  intro payload _
  apply congruence.bind (queries queryRun queryPart)
  intro query _
  exact congruence.refl _

theorem related_count
    {run : List Word}
    (part : run ⊆ words) :
    related (Count.read (scope.withStrategy first) run)
      (Count.read (scope.withStrategy second) run) := by
  unfold Count.read
  apply congruence.bind (congruence.refl _)
  intro _ _
  apply congruence.bind (congruence.refl _)
  intro context _
  apply congruence.bind (related_readBareQuery congruence queries part)
  intro query _
  exact congruence.refl _

theorem related_readClause
    {mode : Mode}
    {settled : Find.Clauses}
    {clause : Find.Clause}
    (part : clause.run ⊆ words) :
    related (Find.readClause (scope.withStrategy first) mode settled clause)
      (Find.readClause (scope.withStrategy second) mode settled clause) := by
  unfold Find.readClause
  split
  · exact congruence.refl _
  · exact congruence.refl _
  · exact congruence.refl _
  · split
    · exact congruence.refl _
    · exact congruence.then_pure (queries clause.run part) _

/-- The clauses of a Find are parts of its words. -/
theorem related_readClauses
    {mode : Mode}
    {settled : Find.Clauses}
    {clauses : List Find.Clause}
    (parts : ∀ clause ∈ clauses, clause.run ⊆ words) :
    related (Find.readClauses (scope.withStrategy first) mode settled clauses)
      (Find.readClauses (scope.withStrategy second) mode settled clauses) := by
  induction clauses generalizing settled with
  | nil => exact congruence.refl _
  | cons clause rest hypothesis =>
      rw [List.forall_mem_cons] at parts
      apply congruence.bind (related_readClause congruence queries parts.1)
      intro next _
      exact hypothesis parts.2

theorem related_find
    {run : List Word}
    (part : run ⊆ words) :
    related (Find.read (scope.withStrategy first) run)
      (Find.read (scope.withStrategy second) run) := by
  unfold Find.read
  apply congruence.bind (congruence.refl _)
  rintro ⟨mode, returnType⟩ _
  apply congruence.bind (congruence.refl _)
  intro context _
  apply congruence.bind (congruence.refl _)
  intro _ _
  apply congruence.bind (congruence.refl _)
  intro projection _
  apply congruence.bind
  · apply related_readClauses congruence queries
    intro clause member
    have inClauses := (Find.Clause.infix_of_mem_ofRun member).trans
      (List.dropWhile_suffix _).isInfix
    exact List.Subset.trans inClauses.subset part
  · intro settled _
    exact congruence.refl _

/-! ## Batches -/

theorem related_bulkStep
    {body : List Word}
    (part : body ⊆ words)
    (kind : Bulk.StepKind) :
    related (kind.read (scope.withStrategy first) body)
      (kind.read (scope.withStrategy second) body) := by
  cases kind with
  | insert => exact congruence.refl _
  | update => exact congruence.then_pure (related_update congruence queries part .nested) _
  | delete => exact congruence.then_pure (related_delete congruence queries part .nested) _

/-- A step and the words behind it are parts of the words of the batch. -/
theorem related_bulkSteps
    {run : List Word}
    (part : run ⊆ words) :
    related (Bulk.readSteps (scope.withStrategy first) run)
      (Bulk.readSteps (scope.withStrategy second) run) := by
  fun_induction Bulk.readSteps (scope.withStrategy first) run with
  | case1 => simpa only [Bulk.readSteps] using congruence.refl _
  | case2 word rest fault parts =>
      rw [Bulk.readSteps_cons, parts]
      exact congruence.refl _
  | case3 word rest kind body after parts hypothesis =>
      have restPart : rest ⊆ words := List.subset_of_cons_subset part
      obtain ⟨bodyPart, afterPart⟩ := Bulk.infix_of_cutStep parts
      rw [Bulk.readSteps_cons, parts]
      apply congruence.bind
        (related_bulkStep congruence queries (List.Subset.trans bodyPart.subset restPart) kind)
      intro step _
      exact congruence.then_pure (hypothesis (List.Subset.trans afterPart.subset restPart)) _

theorem related_bulk
    {run : List Word}
    (part : run ⊆ words)
    (invocation : Invocation) :
    related (Bulk.read (scope.withStrategy first) run invocation)
      (Bulk.read (scope.withStrategy second) run invocation) := by
  unfold Bulk.read
  apply congruence.bind (congruence.refl _)
  intro context _
  apply congruence.bind (related_bulkSteps congruence queries part)
  intro steps _
  exact congruence.refl _

theorem related_transactionAction
    {body : List Word}
    (part : body ⊆ words)
    (kind : Transaction.StepKind) :
    related (kind.read (scope.withStrategy first) body)
      (kind.read (scope.withStrategy second) body) := by
  cases kind with
  | insert => exact congruence.refl _
  | update => exact congruence.then_pure (related_update congruence queries part .nested) _
  | delete => exact congruence.then_pure (related_delete congruence queries part .nested) _
  | bulk => exact congruence.then_pure (related_bulk congruence queries part .nested) _

theorem related_transactionSteps
    {handles : List CollectionHandle}
    {run : List Word}
    (part : run ⊆ words) :
    related (Transaction.readSteps (scope.withStrategy first) handles run)
      (Transaction.readSteps (scope.withStrategy second) handles run) := by
  fun_induction Transaction.readSteps (scope.withStrategy first) handles run with
  | case1 => simpa only [Transaction.readSteps] using congruence.refl _
  | case2 word rest fault parts =>
      rw [Transaction.readSteps_cons, parts]
      exact congruence.refl _
  | case3 word rest start body after parts hypothesis =>
      have restPart : rest ⊆ words := List.subset_of_cons_subset part
      obtain ⟨bodyPart, afterPart⟩ := Transaction.infix_of_cutStep parts
      rw [Transaction.readSteps_cons, parts]
      apply congruence.bind
        (related_transactionAction congruence queries (List.Subset.trans bodyPart.subset restPart)
          start.kind)
      intro action _
      exact congruence.then_pure (hypothesis (List.Subset.trans afterPart.subset restPart)) _

theorem related_transaction
    {run : List Word}
    (part : run ⊆ words) :
    related (Transaction.read (scope.withStrategy first) run)
      (Transaction.read (scope.withStrategy second) run) := by
  unfold Transaction.read
  apply congruence.bind (congruence.refl _)
  intro _ _
  apply congruence.bind (congruence.refl _)
  intro context _
  apply congruence.bind (congruence.refl _)
  intro client _
  apply congruence.bind (congruence.refl _)
  intro collections _
  apply congruence.bind (related_transactionSteps congruence queries part)
  intro steps _
  exact congruence.refl _

/-! ## Whole descriptors -/

/-- An operation read under two strategies is related as its queries are. -/
theorem related_operation :
    related (Operation.read (scope.withStrategy first) words)
      (Operation.read (scope.withStrategy second) words) := by
  cases words with
  | nil => exact congruence.refl _
  | cons head rest =>
      have part : rest ⊆ head :: rest := List.subset_cons_self head rest
      simp only [Operation.read]
      split
      · exact congruence.refl _
      · rename_i kind _
        cases kind with
        | insert => exact congruence.refl _
        | find => exact congruence.then_pure (related_find congruence queries part) _
        | update =>
            exact congruence.then_pure (related_update congruence queries part .standalone) _
        | delete =>
            exact congruence.then_pure (related_delete congruence queries part .standalone) _
        | count => exact congruence.then_pure (related_count congruence queries part) _
        | transaction =>
            exact congruence.then_pure (related_transaction congruence queries part) _
        | bulk =>
            exact congruence.then_pure (related_bulk congruence queries part .standalone) _

end Dependence

end DerivedQuery
