import DerivedQuery.Proofs.BatchComposition
import DerivedQuery.Proofs.RecordOrigin

/-!
# Words that start steps

A word that starts an operation or names a collection is never read as anything
else: not as a field, not as a part of a query, not as the name of a collection
and not as the mode of an Insert. So each such word of a batch that is read starts
a step of the batch, and an operation that the batch does not support appears
nowhere in it.
-/

namespace DerivedQuery

variable {scope : Scope}
variable {params rest : List Param}
variable {run : List Word}

namespace Scope

/-- Every word of a run that starts a step spells one of the given keywords. -/
def StartsOnly
    (keywords : List Keyword)
    (run : List Word) : Prop :=
  ∀ word ∈ run, startsStep word -> ∃ keyword ∈ keywords, word.is keyword

namespace StartsOnly

variable {keywords others : List Keyword}
variable {front back : List Word}
variable {word : Word}

theorem nil : StartsOnly keywords [] := nofun

theorem of_plain
    (plain : ∀ word ∈ run, startsStep word = false) :
    StartsOnly keywords run := by
  intro word present starts
  rw [plain word present] at starts
  cases starts

theorem append
    (frontStarts : StartsOnly keywords front)
    (backStarts : StartsOnly keywords back) :
    StartsOnly keywords (front ++ back) :=
  List.forall_mem_append.mpr ⟨frontStarts, backStarts⟩

theorem cons
    {keyword : Keyword}
    (spelled : word.is keyword)
    (member : keyword ∈ keywords)
    (others : StartsOnly keywords run) :
    StartsOnly keywords (word :: run) :=
  List.forall_mem_cons.mpr ⟨fun _ => ⟨keyword, member, spelled⟩, others⟩

theorem mono
    (starts : StartsOnly keywords run)
    (within : keywords ⊆ others) :
    StartsOnly others run := by
  intro word present isStart
  obtain ⟨keyword, member, spelled⟩ := starts word present isStart
  exact ⟨keyword, within member, spelled⟩

end StartsOnly

/-- The words up to the next step start none. -/
theorem startsStep_of_mem_stepBody
    {word : Word}
    (present : word ∈ stepBody run) :
    startsStep word = false := by
  simpa using List.mem_takeWhile_imp present

/-- Other keywords than those of operations and collections start no step. -/
theorem startsStep_of_is
    {word : Word}
    {keyword : Keyword}
    (spelled : word.is keyword)
    (other : keyword.isOperation = false ∧ keyword ≠ .collection) :
    startsStep word = false := by
  simp [startsStep, Word.is_iff.mp spelled, other.1, other.2]

end Scope

namespace Bulk

/-- The keywords of the steps of a Bulk. -/
def stepKeywords : List Keyword :=
  [.insert, .update, .delete]

/-- A step that is cut off starts with a word of its own and has none of another
step. -/
theorem startsOnly_of_cutStep
    {word : Word}
    {body after : List Word}
    {kind : StepKind}
    (parts : cutStep word run = .ok (kind, body, after)) :
    Scope.StartsOnly stepKeywords (word :: body) ∧ run = body ++ after := by
  rcases cutStep_eq_ok parts with
    ⟨isInsert, rfl, mode, isOne, rfl, rfl⟩ | ⟨isStep, rfl, rfl⟩
  · have plain : ∀ word ∈ [mode], Scope.startsStep word = false :=
      List.forall_mem_singleton.mpr (Scope.startsStep_of_is isOne (by decide))
    exact ⟨.cons (Word.is_iff.mpr isInsert) (by decide) (.of_plain plain), rfl⟩
  · have plain : Scope.StartsOnly stepKeywords (Scope.stepBody run) :=
      .of_plain fun _ => Scope.startsStep_of_mem_stepBody
    refine ⟨?_, (Scope.stepBody_append_stepRest run).symm⟩
    rcases isStep with ⟨isUpdate, -⟩ | ⟨isDelete, -⟩
    · exact .cons (Word.is_iff.mpr isUpdate) (by decide) plain
    · exact .cons (Word.is_iff.mpr isDelete) (by decide) plain

theorem startsOnly_of_yields_readSteps
    {steps : List BulkStep}
    (yields : (readSteps scope run).Yields params steps rest) :
    Scope.StartsOnly stepKeywords run := by
  fun_induction readSteps scope run generalizing params steps rest with
  | case1 => exact .nil
  | case2 word after fault parts => simp at yields
  | case3 word others kind body after parts hypothesis =>
      simp only [Binding.yields_bind] at yields
      obtain ⟨step, middle, -, steps, _, readsSteps, -⟩ := yields
      obtain ⟨starts, rfl⟩ := startsOnly_of_cutStep parts
      exact starts.append (hypothesis readsSteps)

theorem startsOnly_of_yields_read
    {bulk : Bulk}
    {invocation : Invocation}
    (yields : (Bulk.read scope run invocation).Yields params bulk rest) :
    Scope.StartsOnly stepKeywords run := by
  obtain ⟨opened, -, readsSteps, -⟩ := yields_read_iff.mp yields
  exact startsOnly_of_yields_readSteps readsSteps

end Bulk

namespace Transaction

/-- The keywords of the steps of a Transaction. -/
def stepKeywords : List Keyword :=
  .collection :: .bulk :: Bulk.stepKeywords

variable {handles : List CollectionHandle}
variable {word head : Word}

theorem keyword_mem_stepKeywords (kind : StepKind) :
    kind.operation.keyword ∈ stepKeywords := by
  cases kind <;> decide

/-- In front of the word that starts a step there is nothing, or `Collection` and
a name without such a word. -/
theorem startsOnly_of_startStep
    {start : StepStart}
    (found : startStep handles word run = .ok start) :
    start.head.is start.kind.operation.keyword ∧
      ∃ front, Scope.StartsOnly stepKeywords front ∧
        word :: run = front ++ start.head :: start.rest := by
  rcases startStep_eq_ok_iff.mp found with ⟨spelled, -, rfl, rfl⟩ | ⟨isCollection, inCollection⟩
  · exact ⟨spelled, [], .nil, rfl⟩
  · obtain ⟨behind, spelled, -⟩ := startInCollection_eq_ok_iff.mp inCollection
    refine ⟨spelled, word :: Scope.stepBody run, ?_, ?_⟩
    · refine .cons isCollection (by decide) (.of_plain ?_)
      exact fun _ => Scope.startsStep_of_mem_stepBody
    · rw [List.cons_append, ← behind, Scope.stepBody_append_stepRest]

/-- Behind the word that starts a step there is nothing of another step, up to
where the step ends. -/
theorem startsOnly_of_cut
    {kind : StepKind}
    {body after : List Word}
    {action : TransactionAction}
    (parts : kind.cut head run = .ok (body, after))
    (yields : (kind.read scope body).Yields params action rest) :
    ∃ words, Scope.StartsOnly stepKeywords words ∧ run = words ++ after := by
  rcases StepKind.cut_eq_ok_iff.mp parts with
    ⟨rfl, rfl, rfl⟩ | ⟨-, rfl, rfl⟩ | ⟨rfl, opening, inner, rfl, opens, found⟩
  · -- The only word behind `Insert` is a mode.
    obtain ⟨record, -, reads⟩ := Binding.yields_then_pure.mp yields
    obtain ⟨opened, -⟩ := Insert.yields_readNested_iff.mp reads
    obtain ⟨mode, isMode, mode_eq⟩ := Scope.exists_of_nestedMode opened
    refine ⟨run.take 1, ?_, (List.take_append_drop 1 run).symm⟩
    rw [mode_eq]
    refine .of_plain (List.forall_mem_singleton.mpr (Scope.startsStep_of_is isMode ?_))
    cases record.mode <;> decide
  · exact ⟨Scope.stepBody run, .of_plain fun _ => Scope.startsStep_of_mem_stepBody,
      (Scope.stepBody_append_stepRest run).symm⟩
  · obtain ⟨closing, closes, rfl, -⟩ := Brackets.splitClosing_eq_some_iff.mp found
    obtain ⟨record, -, reads⟩ := Binding.yields_then_pure.mp yields
    have inside := Bulk.startsOnly_of_yields_read reads
    have left := Scope.startsStep_of_is opens (by decide)
    have right := Scope.startsStep_of_is closes (by decide)
    refine ⟨[opening] ++ body ++ [closing], ?_, by simp⟩
    refine .append (.append (.of_plain ?_) (inside.mono ?_)) (.of_plain ?_)
    · exact List.forall_mem_singleton.mpr left
    · exact fun _ => List.mem_cons_of_mem _ ∘ List.mem_cons_of_mem _
    · exact List.forall_mem_singleton.mpr right

theorem startsOnly_of_yields_readSteps
    {steps : List TransactionStep}
    (yields : (readSteps scope handles run).Yields params steps rest) :
    Scope.StartsOnly stepKeywords run := by
  fun_induction readSteps scope handles run generalizing params steps rest with
  | case1 => exact .nil
  | case2 word after fault parts => simp at yields
  | case3 word others start body after parts hypothesis =>
      simp only [Binding.yields_bind] at yields
      obtain ⟨action, middle, readsStep, steps, _, readsSteps, -⟩ := yields
      obtain ⟨found, cutParts⟩ := cutStep_eq_ok parts
      obtain ⟨spelled, front, frontStarts, run_eq⟩ := startsOnly_of_startStep found
      obtain ⟨words, wordsStart, rest_eq⟩ := startsOnly_of_cut cutParts readsStep
      rw [run_eq, rest_eq]
      refine frontStarts.append (.cons spelled (keyword_mem_stepKeywords start.kind) ?_)
      exact wordsStart.append (hypothesis readsSteps)

end Transaction

namespace OperationKind

/-- The keywords that no word of a batch may spell. -/
def barred : OperationKind -> List Keyword
  | .bulk => [.find, .count, .bulk, .transaction, .collection]
  | .transaction => [.find, .count, .transaction]
  | _ => []

end OperationKind

/-- What starts a step is not barred, if the keywords of the steps are not. -/
theorem Scope.StartsOnly.not_barred
    {keywords : List Keyword}
    {kind : OperationKind}
    {word : Word}
    {keyword : Keyword}
    (starts : StartsOnly keywords run)
    (present : word ∈ run)
    (spelled : word.is keyword)
    (isStart : keyword.isOperation ∨ keyword = .collection)
    (allowed : ∀ keyword ∈ keywords, keyword ∉ kind.barred) :
    keyword ∉ kind.barred := by
  have isStep : startsStep word := startsStep_iff.mpr ⟨keyword, Word.is_iff.mp spelled, isStart⟩
  obtain ⟨found, member, foundSpelled⟩ := starts word present isStep
  rw [Word.is_iff, Word.is_iff.mp spelled, Option.some.injEq] at foundSpelled
  rw [foundSpelled]
  exact allowed found member

theorem Keyword.starts_of_barred
    {kind : OperationKind}
    {keyword : Keyword}
    (isBarred : keyword ∈ kind.barred) :
    keyword.isOperation ∨ keyword = .collection := by
  revert keyword
  cases kind <;> simp [OperationKind.barred, isOperation, operation?]

/-- A word that is read as a part of a batch is not barred from it. -/
theorem Operation.not_barred_of_yields_readKind
    {kind : OperationKind}
    {operation : Operation}
    {word : Word}
    {keyword : Keyword}
    (yields : (readKind scope run kind).Yields params operation rest)
    (present : word ∈ run)
    (spelled : word.is keyword) :
    keyword ∉ kind.barred := by
  intro isBarred
  have isStart := Keyword.starts_of_barred isBarred
  cases kind with
  | bulk =>
      obtain ⟨record, -, reads⟩ := Binding.yields_then_pure.mp yields
      have starts := Bulk.startsOnly_of_yields_read reads
      exact starts.not_barred present spelled isStart (by decide) isBarred
  | transaction =>
      obtain ⟨record, -, reads⟩ := Binding.yields_then_pure.mp yields
      obtain ⟨_, _, _, _, _, -, -, -, -, readsSteps, -⟩ := Transaction.yields_read_iff.mp reads
      have starts := Transaction.startsOnly_of_yields_readSteps readsSteps
      exact starts.not_barred present spelled isStart (by decide) isBarred
  | insert => cases isBarred
  | find => cases isBarred
  | update => cases isBarred
  | delete => cases isBarred
  | count => cases isBarred

/-- A batch with the word of an operation it does not support does not compile,
wherever the word stands. -/
theorem Method.compile_of_barred_word
    (method : Method)
    (schema : Schema)
    (config : Config)
    (kind : OperationKind)
    (keyword : Keyword)
    (first word : Word)
    (others : List Word)
    (words : Word.segment method.descriptor = first :: others)
    (named : first.text = kind.name)
    (isBarred : keyword ∈ kind.barred)
    (present : word ∈ others)
    (spelled : word.text = keyword.text) :
    ∃ error, method.compile schema config = .error error := by
  cases outcome : method.compile schema config with
  | error error => exact ⟨error, rfl⟩
  | ok operation =>
      obtain ⟨rest, yields⟩ := compile_eq_ok_iff.mp outcome
      have isFirst : (first :: others).head?.map Word.text = some kind.name := congrArg some named
      rw [words, Operation.read_of_first isFirst] at yields
      have isKeyword : word.is keyword := Word.is_iff_text.mpr spelled
      exact absurd isBarred (Operation.not_barred_of_yields_readKind yields present isKeyword)

/-- A field that is called like an operation cannot be written to inside a
Bulk of a Transaction. -/
theorem Method.compile_of_barred_word_field_name :
    let schema : Schema := ⟨"Log",
      [⟨"FindCount", "find_count", .ident "int", none⟩, ⟨"Name", "name", .ident "string", none⟩]⟩
    let method : Method := {
      name := "Reset"
      descriptor := "TransactionInsertOneBulkLbUpdateOneFindCountByNameEqualRb"
      params := [⟨"ctx", .selector "context" "Context"⟩,
        ⟨"client", .pointer (.selector "mongo" "Client")⟩,
        ⟨"entry", .pointer (.selector "model" "Log")⟩, ⟨"count", .ident "int"⟩,
        ⟨"name", .ident "string"⟩]
      returns := [.ident "error"] }
    let first : Word := ⟨"Transaction", ⟨0, 11⟩⟩
    let word : Word := ⟨"Count", ⟨39, 44⟩⟩
    (∃ others, Word.segment method.descriptor = first :: others ∧ word ∈ others) ∧
      first.text = OperationKind.transaction.name ∧
      Keyword.count ∈ OperationKind.transaction.barred ∧
      word.text = Keyword.count.text ∧
      ∃ error, method.compile schema Config.standard = .error error := by
  intro schema method first word
  have words : Word.segment method.descriptor =
      first :: (Word.segment method.descriptor).tail := by
    decide +kernel
  have present : word ∈ (Word.segment method.descriptor).tail := by decide +kernel
  have isBarred : Keyword.count ∈ OperationKind.transaction.barred := by decide
  refine ⟨⟨_, words, present⟩, rfl, isBarred, rfl, ?_⟩
  exact method.compile_of_barred_word schema Config.standard .transaction .count first word _ words
    rfl isBarred present rfl

end DerivedQuery
