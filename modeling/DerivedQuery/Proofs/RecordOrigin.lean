import DerivedQuery.Proofs.ClauseReader
import DerivedQuery.Proofs.QueryDependence
import DerivedQuery.Proofs.Rendering.Batch

/-!
# What parts of records are read from

The query of a Find is read from one of its clauses, and a step of a batch from
words of the batch by the reader of its kind. So every query of an operation is
read from words of its descriptor that stand together.
-/

namespace DerivedQuery

variable {scope : Scope}
variable {params rest : List Param}
variable {run : List Word}

namespace Find

/-- The query that clauses settle is the one found before, or that of a clause
among them. -/
theorem query_of_yields_readClauses
    {mode : Mode}
    {clauses : List Clause}
    {settled last : Clauses}
    {query : Query}
    (yields : (readClauses scope mode settled clauses).Yields params last rest)
    (settles : last.query = some query) :
    settled.query = some query ∨
      ∃ clause ∈ clauses, (Query.read scope clause.run).Reaches query := by
  induction clauses generalizing settled params with
  | nil =>
      obtain ⟨rfl, -⟩ := Binding.yields_pure.mp yields
      exact .inl settles
  | cons clause clauses hypothesis =>
      obtain ⟨next, middle, readsClause, readsClauses⟩ := Binding.yields_bind.mp yields
      rcases hypothesis readsClauses with before | ⟨other, member, reaches⟩
      · obtain ⟨setting, reads, -, rfl⟩ := yields_readClause_iff.mp readsClause
        cases setting with
        | query found =>
            obtain rfl := Option.some.inj before
            obtain ⟨-, -, _, ⟨⟩, -⟩ | ⟨-, _, ⟨⟩, -⟩ | ⟨-, -, _, ⟨⟩, -⟩ |
              ⟨-, -, -, _, ⟨⟩, readsQuery⟩ := yields_readSetting_iff.mp reads
            exact .inr ⟨clause, by simp, params, middle, readsQuery⟩
        | order fields => exact .inl before
        | skip param => exact .inl before
        | limit param => exact .inl before
      · exact .inr ⟨other, by simp [member], reaches⟩

end Find

namespace Bulk

/-- Every step of a Bulk was cut off its words and read by the reader of its
kind. -/
theorem exists_of_mem_steps
    {steps : List BulkStep}
    {step : BulkStep}
    (yields : (readSteps scope run).Yields params steps rest)
    (member : step ∈ steps) :
    ∃ word others kind body after,
      cutStep word others = .ok (kind, body, after) ∧
      body <:+: run ∧
      (kind.read scope body).Reaches step := by
  fun_induction readSteps scope run generalizing params steps rest with
  | case1 =>
      obtain ⟨rfl, -⟩ := Binding.yields_pure.mp yields
      simp at member
  | case2 word after fault parts => simp at yields
  | case3 word others kind body after parts hypothesis =>
      simp only [Binding.yields_bind, Binding.yields_pure] at yields
      obtain ⟨first, middle, readsStep, steps, _, readsSteps, rfl, rfl⟩ := yields
      obtain ⟨bodyPart, afterPart⟩ := infix_of_cutStep parts
      rcases List.mem_cons.mp member with rfl | later
      · exact ⟨word, others, kind, body, after, parts,
          bodyPart.trans (List.suffix_cons _ _).isInfix, params, middle, readsStep⟩
      · obtain ⟨head, tail, found, part, behind, cut, within, reaches⟩ :=
          hypothesis readsSteps later
        have inside : part <:+: word :: others :=
          within.trans (afterPart.trans (List.suffix_cons _ _)).isInfix
        exact ⟨head, tail, found, part, behind, cut, inside, reaches⟩

end Bulk

namespace Transaction

/-- Every step of a Transaction was found at one of its words, cut off and read
by the reader of its kind. -/
theorem exists_of_mem_steps
    {handles : List CollectionHandle}
    {steps : List TransactionStep}
    {step : TransactionStep}
    (yields : (readSteps scope handles run).Yields params steps rest)
    (member : step ∈ steps) :
    ∃ word others start body after,
      cutStep handles word others = .ok (start, body, after) ∧
      body <:+: run ∧
      start.resource = step.resource ∧
      (start.kind.read scope body).Reaches step.action := by
  fun_induction readSteps scope handles run generalizing params steps rest with
  | case1 =>
      obtain ⟨rfl, -⟩ := Binding.yields_pure.mp yields
      simp at member
  | case2 word after fault parts => simp at yields
  | case3 word others start body after parts hypothesis =>
      simp only [Binding.yields_bind, Binding.yields_pure] at yields
      obtain ⟨first, middle, readsStep, steps, _, readsSteps, rfl, rfl⟩ := yields
      obtain ⟨bodyPart, afterPart⟩ := infix_of_cutStep parts
      rcases List.mem_cons.mp member with rfl | later
      · exact ⟨word, others, start, body, after, parts,
          bodyPart.trans (List.suffix_cons _ _).isInfix, rfl, params, middle, readsStep⟩
      · obtain ⟨head, tail, found, part, behind, cut, within, same, reaches⟩ :=
          hypothesis readsSteps later
        have inside : part <:+: word :: others :=
          within.trans (afterPart.trans (List.suffix_cons _ _)).isInfix
        exact ⟨head, tail, found, part, behind, cut, inside, same, reaches⟩

/-- A step writes to the collection of the repository or to one of the
handles. -/
theorem resource_of_startStep
    {handles : List CollectionHandle}
    {word : Word}
    {start : StepStart}
    (found : startStep handles word run = .ok start) :
    start.resource = .primary ∨ ∃ handle ∈ handles, start.resource = .handle handle.param := by
  obtain ⟨-, front, written, -⟩ := written_of_startStep found
  generalize start.resource = resource at written
  cases written with
  | primary => exact .inl rfl
  | handle _ member => exact .inr ⟨_, member, rfl⟩

end Transaction

/-! ## Queries -/

namespace BulkStep

/-- The queries of a step. -/
def queries : BulkStep -> List Query
  | .insert _ => []
  | .update record => [record.query]
  | .delete record => [record.query]

end BulkStep

/-- The queries of a Bulk. -/
def Bulk.queries (bulk : Bulk) : List Query :=
  bulk.steps.flatMap BulkStep.queries

namespace TransactionAction

/-- The queries of a step. -/
def queries : TransactionAction -> List Query
  | .insert _ => []
  | .update record => [record.query]
  | .delete record => [record.query]
  | .bulk record => record.queries

end TransactionAction

namespace Operation

/-- The queries of an operation, those of its steps included. -/
def queries : Operation -> List Query
  | .insert _ => []
  | .find record => [record.query]
  | .update record => [record.query]
  | .delete record => [record.query]
  | .count record => [record.query]
  | .transaction record => record.steps.flatMap (·.action.queries)
  | .bulk record => record.queries

end Operation

section Origin

variable {query : Query}

/-- A query is read from words that stand together in a run. -/
def Query.WrittenIn (scope : Scope) (run : List Word) (query : Query) : Prop :=
  ∃ part, part <:+: run ∧ (Query.read scope part).Reaches query

theorem Query.WrittenIn.mono
    {part : List Word}
    (written : query.WrittenIn scope part)
    (within : part <:+: run) :
    query.WrittenIn scope run := by
  obtain ⟨queryRun, inPart, reaches⟩ := written
  exact ⟨queryRun, inPart.trans within, reaches⟩

theorem Update.query_writtenIn
    {update : Update}
    {invocation : Invocation}
    (reaches : (Update.read scope run invocation).Reaches update) :
    update.query.WrittenIn scope run := by
  obtain ⟨params, rest, yields⟩ := reaches
  obtain ⟨body, front, queryRun, opened, middle, opens, parts, -, -, readsQuery, -⟩ :=
    Update.yields_read_iff.mp yields
  have bodyPart := Scope.suffix_of_openWrite ⟨params, opened, opens⟩
  have queryPart := (Scope.suffix_of_splitAtQuery parts).trans bodyPart
  exact ⟨queryRun, queryPart.isInfix, middle, rest, readsQuery⟩

theorem Delete.query_writtenIn
    {delete : Delete}
    {invocation : Invocation}
    (reaches : (Delete.read scope run invocation).Reaches delete) :
    delete.query.WrittenIn scope run := by
  obtain ⟨params, rest, yields⟩ := reaches
  obtain ⟨body, opened, opens, -, readsQuery, -⟩ := Delete.yields_read_iff.mp yields
  have bodyPart := Scope.suffix_of_openWrite ⟨params, opened, opens⟩
  exact ⟨body, bodyPart.isInfix, opened, rest, readsQuery⟩

theorem Find.query_writtenIn
    {find : Find}
    (reaches : (Find.read scope run).Reaches find) :
    find.query.WrittenIn scope run := by
  obtain ⟨params, rest, yields⟩ := reaches
  obtain ⟨context, others, settled, -, -, -, -, readsClauses, settles, -⟩ :=
    Find.yields_read_iff.mp yields
  rcases Find.query_of_yields_readClauses readsClauses settles with
    before | ⟨clause, member, reads⟩
  · simp at before
  · have clausePart := (Find.Clause.infix_of_mem_ofRun member).trans
      (List.dropWhile_suffix _).isInfix
    exact ⟨clause.run, clausePart, reads⟩

theorem Bulk.StepKind.queries_writtenIn
    {step : BulkStep}
    (kind : Bulk.StepKind)
    (reaches : (kind.read scope run).Reaches step)
    (member : query ∈ step.queries) :
    query.WrittenIn scope run := by
  obtain ⟨params, rest, yields⟩ := reaches
  cases kind with
  | insert =>
      obtain ⟨record, rfl, -⟩ := Binding.yields_then_pure.mp yields
      simp [BulkStep.queries] at member
  | update =>
      obtain ⟨record, rfl, reads⟩ := Binding.yields_then_pure.mp yields
      obtain rfl := List.mem_singleton.mp member
      exact Update.query_writtenIn ⟨params, rest, reads⟩
  | delete =>
      obtain ⟨record, rfl, reads⟩ := Binding.yields_then_pure.mp yields
      obtain rfl := List.mem_singleton.mp member
      exact Delete.query_writtenIn ⟨params, rest, reads⟩

theorem Bulk.queries_writtenIn
    {bulk : Bulk}
    {invocation : Invocation}
    (reaches : (Bulk.read scope run invocation).Reaches bulk)
    (member : query ∈ bulk.queries) :
    query.WrittenIn scope run := by
  obtain ⟨params, rest, yields⟩ := reaches
  obtain ⟨opened, -, readsSteps, -⟩ := Bulk.yields_read_iff.mp yields
  obtain ⟨step, stepMember, inStep⟩ := List.mem_flatMap.mp member
  obtain ⟨_, _, kind, body, _, -, bodyPart, reads⟩ := Bulk.exists_of_mem_steps readsSteps stepMember
  exact (kind.queries_writtenIn reads inStep).mono bodyPart

theorem Transaction.StepKind.queries_writtenIn
    {action : TransactionAction}
    (kind : Transaction.StepKind)
    (reaches : (kind.read scope run).Reaches action)
    (member : query ∈ action.queries) :
    query.WrittenIn scope run := by
  obtain ⟨params, rest, yields⟩ := reaches
  cases kind with
  | insert =>
      obtain ⟨record, rfl, -⟩ := Binding.yields_then_pure.mp yields
      simp [TransactionAction.queries] at member
  | update =>
      obtain ⟨record, rfl, reads⟩ := Binding.yields_then_pure.mp yields
      obtain rfl := List.mem_singleton.mp member
      exact Update.query_writtenIn ⟨params, rest, reads⟩
  | delete =>
      obtain ⟨record, rfl, reads⟩ := Binding.yields_then_pure.mp yields
      obtain rfl := List.mem_singleton.mp member
      exact Delete.query_writtenIn ⟨params, rest, reads⟩
  | bulk =>
      obtain ⟨record, rfl, reads⟩ := Binding.yields_then_pure.mp yields
      exact Bulk.queries_writtenIn ⟨params, rest, reads⟩ member

theorem Transaction.queries_writtenIn
    {transaction : Transaction}
    {step : TransactionStep}
    (reaches : (Transaction.read scope run).Reaches transaction)
    (stepMember : step ∈ transaction.steps)
    (member : query ∈ step.action.queries) :
    query.WrittenIn scope run := by
  obtain ⟨params, rest, yields⟩ := reaches
  obtain ⟨_, _, _, _, steps, -, -, -, -, readsSteps, -, -, rfl⟩ :=
    Transaction.yields_read_iff.mp yields
  obtain ⟨_, _, start, body, _, -, bodyPart, -, reads⟩ :=
    Transaction.exists_of_mem_steps readsSteps stepMember
  exact (start.kind.queries_writtenIn reads member).mono bodyPart

/-- Every query of an operation is read from words of its descriptor. -/
theorem Operation.queries_writtenIn
    {words : List Word}
    {operation : Operation}
    (reaches : (Operation.read scope words).Reaches operation)
    (member : query ∈ operation.queries) :
    query.WrittenIn scope words := by
  obtain ⟨params, rest, yields⟩ := reaches
  cases words with
  | nil => simp [Operation.read] at yields
  | cons first behind =>
      simp only [Operation.read] at yields
      split at yields
      · simp at yields
      · rename_i kind _
        refine Query.WrittenIn.mono (?_ : query.WrittenIn scope behind)
          (List.suffix_cons first behind).isInfix
        cases kind with
        | insert =>
            obtain ⟨record, rfl, reads⟩ := Binding.yields_then_pure.mp yields
            simp [queries] at member
        | find =>
            obtain ⟨record, rfl, reads⟩ := Binding.yields_then_pure.mp yields
            obtain rfl := List.mem_singleton.mp member
            exact Find.query_writtenIn ⟨params, rest, reads⟩
        | update =>
            obtain ⟨record, rfl, reads⟩ := Binding.yields_then_pure.mp yields
            obtain rfl := List.mem_singleton.mp member
            exact Update.query_writtenIn ⟨params, rest, reads⟩
        | delete =>
            obtain ⟨record, rfl, reads⟩ := Binding.yields_then_pure.mp yields
            obtain rfl := List.mem_singleton.mp member
            exact Delete.query_writtenIn ⟨params, rest, reads⟩
        | count =>
            obtain ⟨record, rfl, reads⟩ := Binding.yields_then_pure.mp yields
            obtain rfl := List.mem_singleton.mp member
            obtain ⟨context, opened, -, rfl, -, readsQuery, -⟩ := Count.yields_read_iff.mp reads
            exact ⟨behind, List.infix_rfl, opened, [], readsQuery⟩
        | transaction =>
            obtain ⟨record, rfl, reads⟩ := Binding.yields_then_pure.mp yields
            obtain ⟨step, stepMember, inStep⟩ := List.mem_flatMap.mp member
            exact Transaction.queries_writtenIn ⟨params, rest, reads⟩ stepMember inStep
        | bulk =>
            obtain ⟨record, rfl, reads⟩ := Binding.yields_then_pure.mp yields
            exact Bulk.queries_writtenIn ⟨params, rest, reads⟩ member

end Origin

end DerivedQuery
