import DerivedQuery.Compile
import DerivedQuery.Proofs.Binding
import DerivedQuery.Proofs.Brackets

/-!
# Reading operations

When the small steps of writes succeed, equations for the readers that recurse
on the words left over, and what it means that a method compiles.
-/

namespace DerivedQuery

namespace Word

/-- A word that starts an operation spells its keyword. -/
theorem is_keyword_of_operation?
    {word : Word}
    {operation : OperationKind}
    (starts : word.keyword?.bind Keyword.operation? = some operation) :
    word.is operation.keyword := by
  obtain ⟨keyword, spelled, started⟩ := Option.bind_eq_some_iff.mp starts
  rw [is_iff, spelled]
  cases keyword <;> cases started <;> rfl

end Word

namespace Insert

/-- A mode may be left out, but not contradict the signature. -/
theorem yields_checkWritten_iff
    {params rest : List Param}
    {run : List Word}
    {mode : Mode}
    {type : TypeExpr}
    {written? : Option Mode}
    {done : Unit} :
    (checkWritten mode type run written?).Yields params done rest ↔
      (∀ written, written? = some written -> written = mode) ∧ params = rest := by
  cases written? with
  | none => simp [checkWritten]
  | some written =>
      by_cases same : written = mode
      · simp [checkWritten, same]
      · simp [checkWritten, same]

end Insert

namespace Scope

theorem stepBody_append_stepRest (run : List Word) : stepBody run ++ stepRest run = run :=
  List.takeWhile_append_dropWhile

theorem append_of_splitAtQuery
    {run front query : List Word}
    (parts : splitAtQuery run = .ok (front, query)) :
    run = front ++ query := by
  unfold splitAtQuery at parts
  split at parts
  · simp at parts
  · simp only [Except.ok.injEq, Prod.mk.injEq] at parts
    obtain ⟨rfl, rfl⟩ := parts
    exact List.takeWhile_append_dropWhile.symm

theorem exists_of_nestedMode
    {operation : Keyword}
    {mode : Mode}
    {run body : List Word}
    (found : nestedMode run operation = .ok (mode, body)) :
    ∃ word : Word, word.is mode.keyword ∧ run = word :: body := by
  unfold nestedMode at found
  split at found
  · simp at found
  · rename_i word others
    split at found
    · rename_i isOne
      simp only [Except.ok.injEq, Prod.mk.injEq] at found
      obtain ⟨rfl, rfl⟩ := found
      exact ⟨word, isOne, rfl⟩
    · split at found
      · rename_i isMany
        simp only [Except.ok.injEq, Prod.mk.injEq] at found
        obtain ⟨rfl, rfl⟩ := found
        exact ⟨word, isMany, rfl⟩
      · simp at found

/-- Only the operation of a method must have bound every parameter. -/
theorem yields_closeWrite_iff
    {invocation : Invocation}
    {params rest : List Param}
    {done : Unit} :
    (closeWrite invocation).Yields params done rest ↔
      params = rest ∧ (invocation = .standalone -> rest = []) := by
  cases invocation with
  | standalone =>
      simp only [closeWrite, Binding.yields_ensureExhausted]
      grind
  | nested => simp [closeWrite]

/-- Naming the method in errors does not interfere with composition. -/
theorem start_bind
    {α β : Type}
    (scope : Scope)
    (binding : Binding α)
    (next : α -> Binding β)
    (params : List Param) :
    scope.start (binding >>= next) params =
      match scope.start binding params with
      | (.ok value, middle) => scope.start (next value) middle
      | (.error error, middle) => (.error error, middle) := by
  simp only [start, Binding.start_bind]
  rcases binding.start params with ⟨_ | _, _⟩ <;> rfl

end Scope

namespace Find

/-- The sort fields up to the first `Desc` and those behind it. -/
theorem readSort_eq
    (schema : Schema)
    (run : List Word) :
    readSort schema run =
      match run.dropWhile (!·.is .desc) with
      | [] =>
          if (run.takeWhile (!·.is .desc)).isEmpty then
            .ok []
          else
            match FieldPath.resolveAll schema (run.takeWhile (!·.is .desc)) with
            | .error error => .error error.fault
            | .ok paths => .ok (paths.map fun path => ⟨path.key, .ascending⟩)
      | desc :: after =>
          if (run.takeWhile (!·.is .desc)).isEmpty then
            .error (Fault.on .descWithoutField [desc])
          else
            match FieldPath.resolveAll schema (run.takeWhile (!·.is .desc)) with
            | .error error => .error error.fault
            | .ok paths => (readSort schema after).map (lastDescending paths ++ ·) := by
  rw [readSort]
  split
  · rename_i ended
    exact ended.symm ▸ rfl
  · rename_i desc after found
    exact found.symm ▸ rfl

end Find

namespace Bulk

/-- A step of a Bulk is `Insert One`, or an Update or Delete up to the next
step. -/
theorem cutStep_eq_ok
    {word : Word}
    {rest body after : List Word}
    {kind : StepKind}
    (parts : cutStep word rest = .ok (kind, body, after)) :
    (word.keyword? = some .insert ∧ kind = .insert ∧
      ∃ mode : Word, mode.is .one ∧ body = [mode] ∧ rest = mode :: after) ∨
    ((word.keyword? = some .update ∧ kind = .update ∨
        word.keyword? = some .delete ∧ kind = .delete) ∧
      body = Scope.stepBody rest ∧ after = Scope.stepRest rest) := by
  unfold cutStep at parts
  split at parts
  · rename_i isInsert
    split at parts
    · simp at parts
    · split at parts
      · rename_i mode others isOne
        simp only [Except.ok.injEq, Prod.mk.injEq] at parts
        obtain ⟨rfl, rfl, rfl⟩ := parts
        exact .inl ⟨isInsert, rfl, mode, isOne, rfl, rfl⟩
      · split at parts <;> simp at parts
  · rename_i isUpdate
    simp only [Except.ok.injEq, Prod.mk.injEq] at parts
    obtain ⟨rfl, rfl, rfl⟩ := parts
    exact .inr ⟨.inl ⟨isUpdate, rfl⟩, rfl, rfl⟩
  · rename_i isDelete
    simp only [Except.ok.injEq, Prod.mk.injEq] at parts
    obtain ⟨rfl, rfl, rfl⟩ := parts
    exact .inr ⟨.inr ⟨isDelete, rfl⟩, rfl, rfl⟩
  all_goals simp at parts

theorem readSteps_cons
    (scope : Scope)
    (word : Word)
    (rest : List Word) :
    readSteps scope (word :: rest) =
      match cutStep word rest with
      | .error fault => throw fault
      | .ok (kind, body, after) => do
          let step ← kind.read scope body
          let others ← readSteps scope after
          return step :: others := by
  rw [readSteps]
  split <;> simp_all

end Bulk

namespace Transaction

variable {handles : List CollectionHandle}
variable {word head : Word}
variable {run body after : List Word}

namespace StepKind

/-- The operation of a kind of step. -/
def operation : StepKind -> OperationKind
  | .insert => .insert
  | .update => .update
  | .delete => .delete
  | .bulk => .bulk

theorem ofOperation?_operation (kind : StepKind) :
    ofOperation? kind.operation = some kind := by
  cases kind <;> rfl

theorem operation_eq_of_ofOperation?
    {operation : OperationKind}
    {kind : StepKind}
    (found : ofOperation? operation = some kind) :
    kind.operation = operation := by
  cases operation <;> cases found <;> rfl

theorem keyword_ne_collection (kind : StepKind) : kind.operation.keyword ≠ .collection := by
  cases kind <;> decide

/-- An Insert is cut behind one word, an Update or Delete in front of the next
step, and a Bulk at the bracket that closes it. -/
theorem cut_eq_ok_iff
    {kind : StepKind}
    {head : Word}
    {run body after : List Word} :
    kind.cut head run = .ok (body, after) ↔
      (kind = .insert ∧ run.take 1 = body ∧ run.drop 1 = after) ∨
      ((kind = .update ∨ kind = .delete) ∧
        Scope.stepBody run = body ∧ Scope.stepRest run = after) ∨
      (kind = .bulk ∧ ∃ opening inner, run = opening :: inner ∧ opening.is .leftBracket ∧
        Brackets.splitClosing 0 inner = some (body, after)) := by
  cases kind with
  | insert => simp [cut]
  | update => simp [cut]
  | delete => simp [cut]
  | bulk =>
      cases run with
      | nil => simp [cut]
      | cons opening inner =>
          by_cases opens : opening.is .leftBracket
          · cases found : Brackets.splitClosing 0 inner with
            | none => simp [cut, opens, found]
            | some parts => simp [cut, opens, found, and_assoc]
          · simp [cut, opens]

end StepKind

/-- A word that starts a step spells the keyword of its kind. -/
theorem is_keyword_of_ofOperation?
    {word : Word}
    {operation : OperationKind}
    {kind : StepKind}
    (starts : word.keyword?.bind Keyword.operation? = some operation)
    (found : StepKind.ofOperation? operation = some kind) :
    word.is kind.operation.keyword := by
  rw [StepKind.operation_eq_of_ofOperation? found]
  exact Word.is_keyword_of_operation? starts

theorem operation?_of_is
    {kind : StepKind}
    (spelled : head.is kind.operation.keyword) :
    head.keyword?.bind Keyword.operation? = some kind.operation := by
  rw [Word.is_iff.mp spelled, Option.bind_some, OperationKind.operation?_keyword]

/-- A step in another collection starts with `Collection`, the name of a handle
and the word of its operation. -/
theorem startInCollection_eq_ok_iff
    {start : StepStart} :
    startInCollection handles word run = .ok start ↔
      Scope.stepRest run = start.head :: start.rest ∧
      start.head.is start.kind.operation.keyword ∧
      Scope.stepBody run ≠ [] ∧
      ∃ handle,
        handles.find? (·.spelling == String.join (Word.texts (Scope.stepBody run))) =
          some handle ∧
        start.resource = .handle handle.param := by
  constructor
  · intro found
    simp only [startInCollection] at found
    split at found
    · split at found <;> simp at found
    · rename_i head after behind
      split at found
      · simp at found
      · rename_i operation starts
        split at found
        · simp at found
        · rename_i kind supported
          split at found
          · simp at found
          · rename_i named
            split at found
            · rename_i handle known
              obtain rfl := Except.ok.inj found
              exact ⟨behind, is_keyword_of_ofOperation? starts supported, by simpa using named,
                handle, known, rfl⟩
            · simp at found
  · obtain ⟨resource, kind, head, after⟩ := start
    rintro ⟨behind, spelled, named, handle, known, rfl⟩
    simp only [startInCollection, behind, operation?_of_is spelled,
      StepKind.ofOperation?_operation, List.isEmpty_iff, if_neg named, known]

/-- A step starts with the word of its operation, or with the collection it
writes to. -/
theorem startStep_eq_ok_iff
    {start : StepStart} :
    startStep handles word run = .ok start ↔
      (word.is start.kind.operation.keyword ∧ start.resource = .primary ∧
        start.head = word ∧ start.rest = run) ∨
      (word.is .collection ∧ startInCollection handles word run = .ok start) := by
  constructor
  · intro found
    unfold startStep at found
    split at found
    · rename_i isCollection
      exact .inr ⟨Word.is_iff.mpr isCollection, found⟩
    · split at found
      · simp at found
      · rename_i operation starts
        split at found
        · simp at found
        · rename_i kind supported
          obtain rfl := Except.ok.inj found
          exact .inl ⟨is_keyword_of_ofOperation? starts supported, rfl, rfl, rfl⟩
  · obtain ⟨resource, kind, head, after⟩ := start
    rintro (⟨spelled, rfl, rfl, rfl⟩ | ⟨isCollection, found⟩)
    · unfold startStep
      split
      · rename_i isCollection
        rw [Word.is_iff.mp spelled, Option.some.injEq] at isCollection
        exact absurd isCollection kind.keyword_ne_collection
      · rw [operation?_of_is spelled]
        simp only [StepKind.ofOperation?_operation]
    · simp only [startStep, Word.is_iff.mp isCollection, found]

/-- A step is found first and then cut off the words behind its first one. -/
theorem cutStep_eq_ok
    {start : StepStart}
    (parts : cutStep handles word run = .ok (start, body, after)) :
    startStep handles word run = .ok start ∧
      start.kind.cut start.head start.rest = .ok (body, after) := by
  unfold cutStep at parts
  split at parts
  · simp at parts
  · rename_i found
    split at parts
    · simp at parts
    · rename_i cutParts
      simp only [Except.ok.injEq, Prod.mk.injEq] at parts
      obtain ⟨rfl, rfl, rfl⟩ := parts
      exact ⟨found, cutParts⟩

theorem readSteps_cons
    (scope : Scope)
    (handles : List CollectionHandle)
    (word : Word)
    (rest : List Word) :
    readSteps scope handles (word :: rest) =
      match cutStep handles word rest with
      | .error fault => throw fault
      | .ok (start, body, after) => do
          let action ← start.kind.read scope body
          let others ← readSteps scope handles after
          return ⟨start.resource, action⟩ :: others := by
  rw [readSteps]
  split <;> simp_all

end Transaction

namespace Operation

/-- The first word of a descriptor tells the reader. -/
theorem read_of_first
    {scope : Scope}
    {kind : OperationKind}
    {words : List Word}
    (named : words.head?.map Word.text = some kind.name) :
    read scope words = readKind scope words.tail kind := by
  cases words with
  | nil => cases named
  | cons first others =>
      have text_eq : first.text = kind.name := Option.some.inj named
      have found : OperationKind.ofName? first.text = some kind := by
        rw [text_eq]
        cases kind <;> rfl
      simp only [read, found, List.tail_cons]

end Operation

namespace Method

/-- A method compiles to what its descriptor is read as from all of its
parameters. -/
theorem compile_eq_ok_iff
    {method : Method}
    {schema : Schema}
    {config : Config}
    {operation : Operation} :
    method.compile schema config = .ok operation ↔
      ∃ rest, (Operation.read ⟨method, schema, config⟩
        (Word.segment method.descriptor)).Yields method.params operation rest := by
  simp [compile, Scope.start, Binding.Yields, Prod.ext_iff]

end Method

theorem CompiledInterface.error?_eq_some_iff
    {outcome : Except MethodError Operation}
    {error : MethodError} :
    error? outcome = some error ↔ outcome = .error error := by
  cases outcome with
  | error found => simp [error?]
  | ok operation => simp [error?]

end DerivedQuery
