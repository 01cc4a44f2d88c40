import DerivedQuery.Operation.Write

/-!
# Reading batches of writes

Grammar of the words behind `Bulk` and `Transaction`:

* `Bulk` is a row of `Insert One`, `Update` and `Delete` steps.
* `Transaction` is a row of `Insert`, `Update`, `Delete` and `Bulk Lb ... Rb`
  steps, each possibly preceded by `Collection` and the name of a handle.

An `Update` or `Delete` step ends in front of the next word that starts an
operation or a collection; an `Insert` step is always one word long.
-/

namespace DerivedQuery

namespace Scope

/-- Whether a word starts an operation or names a collection. -/
def startsStep (word : Word) : Bool :=
  match word.keyword? with
  | some keyword => keyword.isOperation || keyword == .collection
  | none => false

/-- The words up to the next step. -/
def stepBody (run : List Word) : List Word :=
  run.takeWhile (!startsStep ·)

/-- The words from the next step on. -/
def stepRest (run : List Word) : List Word :=
  run.dropWhile (!startsStep ·)

theorem length_stepRest_le (run : List Word) : (stepRest run).length ≤ run.length :=
  (run.dropWhile_suffix (!startsStep ·)).length_le

end Scope

namespace Bulk

/-- The operations a step of a Bulk can perform. -/
inductive StepKind
  | insert
  | update
  | delete
  deriving DecidableEq, Repr

namespace StepKind

/-- Read the words of a step. -/
def read (scope : Scope) (body : List Word) : StepKind -> Binding BulkStep
  | .insert => return .insert (← Insert.read scope body .nested)
  | .update => return .update (← Update.read scope body .nested)
  | .delete => return .delete (← Delete.read scope body .nested)

end StepKind

/-- Cut the step that starts with a word off the words that follow it. -/
def cutStep (word : Word) (rest : List Word) :
    Except Fault (StepKind × List Word × List Word) :=
  match word.keyword? with
  | some .insert =>
      match rest with
      | [] => .error (Fault.on .insertWithoutOne [word])
      | mode :: after =>
          if mode.is .one then
            .ok (.insert, [mode], after)
          else if mode.is .many then
            .error (Fault.on .insertManyInBulk [word, mode])
          else
            .error (Fault.on .insertWithoutOne [word])
  | some .update => .ok (.update, Scope.stepBody rest, Scope.stepRest rest)
  | some .delete => .ok (.delete, Scope.stepBody rest, Scope.stepRest rest)
  | some .find | some .count | some .bulk | some .transaction =>
      .error (Fault.on .unsupportedInBulk [word])
  | _ =>
      .error (Scope.unexpected (word :: Scope.stepBody rest)
        "in Bulk, expected Insert, Update or Delete")

theorem length_le_of_cutStep
    {word : Word}
    {rest body after : List Word}
    {kind : StepKind}
    (parts : cutStep word rest = .ok (kind, body, after)) :
    after.length ≤ rest.length := by
  unfold cutStep at parts
  split at parts
  · split at parts
    · simp at parts
    · split at parts
      · simp only [Except.ok.injEq, Prod.mk.injEq] at parts
        obtain ⟨-, -, rfl⟩ := parts
        exact Nat.le_succ _
      · split at parts <;> simp at parts
  · simp only [Except.ok.injEq, Prod.mk.injEq] at parts
    obtain ⟨-, -, rfl⟩ := parts
    exact Scope.length_stepRest_le rest
  · simp only [Except.ok.injEq, Prod.mk.injEq] at parts
    obtain ⟨-, -, rfl⟩ := parts
    exact Scope.length_stepRest_le rest
  all_goals simp at parts

/-- Read the steps of a Bulk. -/
def readSteps (scope : Scope) : List Word -> Binding (List BulkStep)
  | [] => pure []
  | word :: rest =>
      match _parts : cutStep word rest with
      | .error fault => throw fault
      | .ok (kind, body, after) => do
          let step ← kind.read scope body
          let others ← readSteps scope after
          return step :: others
termination_by run => run.length
decreasing_by exact Nat.lt_succ_of_le (length_le_of_cutStep _parts)

/-- The context of a Bulk, which a Bulk inside a Transaction does not have. -/
def readContext (scope : Scope) : Invocation -> Binding (Option String)
  | .standalone => do
      Binding.ofCheck (Signature.bulk scope.method scope.config)
      let context ← Binding.takeContext
      return some context
  | .nested => pure none

/-- Read the words behind `Bulk`. -/
def read (scope : Scope) (run : List Word) (invocation : Invocation) : Binding Bulk := do
  let context ← readContext scope invocation
  let steps ← readSteps scope run
  if steps.isEmpty then
    Binding.refuse .emptyBulk run
  else
    Scope.closeWrite invocation
    return ⟨scope.method.name, context, steps⟩

end Bulk

namespace CollectionHandle

/-- The letters and digits of a parameter name, where the first of each row of
them is a capital. `fresh` tells that a new row starts. -/
def spellingOf (fresh : Bool) : List Char -> List Char
  | [] => []
  | char :: rest =>
      if char.isAlphanum then
        (if fresh then char.toUpper else char) :: spellingOf false rest
      else
        spellingOf true rest

/-- The handle passed as a parameter: `audit_log` is spelled `AuditLog`. -/
def ofParam (param : Param) : CollectionHandle :=
  ⟨String.ofList (spellingOf true param.name.toList), param.name⟩

end CollectionHandle

namespace Transaction

/-- The operations a step of a Transaction can perform. -/
inductive StepKind
  | insert
  | update
  | delete
  | bulk
  deriving DecidableEq, Repr

namespace StepKind

/-- The kind of step a keyword starts, or nothing for the operations a
Transaction does not support. -/
def ofOperation? : OperationKind -> Option StepKind
  | .insert => some .insert
  | .update => some .update
  | .delete => some .delete
  | .bulk => some .bulk
  | .find | .count | .transaction => none

/-- The words of a step and the words behind it. `head` is the word that
starts the step. -/
def cut (kind : StepKind) (head : Word) (rest : List Word) :
    Except Fault (List Word × List Word) :=
  match kind with
  | .insert => .ok (rest.take 1, rest.drop 1)
  | .update | .delete => .ok (Scope.stepBody rest, Scope.stepRest rest)
  | .bulk =>
      match rest with
      | [] => .error (Fault.on .bulkWithoutBracket [head])
      | bracket :: inner =>
          if bracket.is .leftBracket then
            match Brackets.splitClosing 0 inner with
            | some parts => .ok parts
            | none => .error (Fault.on .bulkUnclosed (head :: rest))
          else
            .error (Fault.on .bulkWithoutBracket [head])

theorem length_le_of_cut
    {kind : StepKind}
    {head : Word}
    {rest body after : List Word}
    (parts : kind.cut head rest = .ok (body, after)) :
    after.length ≤ rest.length := by
  cases kind with
  | insert =>
      simp only [cut, Except.ok.injEq, Prod.mk.injEq] at parts
      obtain ⟨-, rfl⟩ := parts
      simp
  | update =>
      simp only [cut, Except.ok.injEq, Prod.mk.injEq] at parts
      obtain ⟨-, rfl⟩ := parts
      exact Scope.length_stepRest_le rest
  | delete =>
      simp only [cut, Except.ok.injEq, Prod.mk.injEq] at parts
      obtain ⟨-, rfl⟩ := parts
      exact Scope.length_stepRest_le rest
  | bulk =>
      cases rest with
      | nil => simp [cut] at parts
      | cons bracket inner =>
          simp only [cut] at parts
          split at parts
          · split at parts
            · rename_i found
              simp only [Except.ok.injEq] at parts
              subst parts
              have total := Brackets.length_of_splitClosing found
              simp only [List.length_cons]
              omega
            · simp at parts
          · simp at parts

/-- Read the words of a step. -/
def read (scope : Scope) (body : List Word) : StepKind -> Binding TransactionAction
  | .insert => return .insert (← Insert.read scope body .nested)
  | .update => return .update (← Update.read scope body .nested)
  | .delete => return .delete (← Delete.read scope body .nested)
  | .bulk => return .bulk (← Bulk.read scope body .nested)

end StepKind

/-- A step found in a run: what it writes to, its first word and the words
behind that. -/
structure StepStart where
  resource : Resource
  kind : StepKind
  head : Word
  rest : List Word

/-- Find the step that follows `Collection` and the name of a handle. -/
def startInCollection
    (handles : List CollectionHandle)
    (collection : Word)
    (rest : List Word) :
    Except Fault StepStart :=
  let name := Scope.stepBody rest
  match Scope.stepRest rest with
  | [] =>
      if rest.isEmpty then
        .error (Fault.on .loneCollection [collection])
      else
        .error (Fault.on .collectionWithoutOperation (collection :: name))
  | head :: after =>
      match head.keyword?.bind Keyword.operation? with
      | none => .error (Fault.on .collectionWithoutOperation (collection :: name))
      | some operation =>
          match StepKind.ofOperation? operation with
          | none => .error (Fault.on .unsupportedInTransaction [head])
          | some kind =>
              if name.isEmpty then
                .error (Fault.on .collectionWithoutName [collection])
              else
                let spelling := String.join (Word.texts name)
                match handles.find? (·.spelling == spelling) with
                | some handle => .ok ⟨.handle handle.param, kind, head, after⟩
                | none => .error (Fault.on (.unknownCollection spelling) name)

/-- Find the step that starts with a word. -/
def startStep
    (handles : List CollectionHandle)
    (word : Word)
    (rest : List Word) :
    Except Fault StepStart :=
  match word.keyword? with
  | some .collection => startInCollection handles word rest
  | keyword? =>
      match keyword?.bind Keyword.operation? with
      | none =>
          .error (Scope.unexpected (word :: Scope.stepBody rest)
            "in Transaction, expected Insert, Update, Delete, Bulk or Collection")
      | some operation =>
          match StepKind.ofOperation? operation with
          | none => .error (Fault.on .unsupportedInTransaction [word])
          | some kind => .ok ⟨.primary, kind, word, rest⟩

theorem length_le_of_startStep
    {handles : List CollectionHandle}
    {word : Word}
    {rest : List Word}
    {start : StepStart}
    (found : startStep handles word rest = .ok start) :
    start.rest.length ≤ rest.length := by
  unfold startStep at found
  split at found
  · simp only [startInCollection] at found
    have shorter := Scope.length_stepRest_le rest
    split at found
    · split at found <;> simp at found
    · rename_i head after behind
      rw [behind] at shorter
      simp only [List.length_cons] at shorter
      split at found
      · simp at found
      · split at found
        · simp at found
        · split at found
          · simp at found
          · split at found
            · simp only [Except.ok.injEq] at found
              subst found
              exact Nat.le_of_succ_le shorter
            · simp at found
  · split at found
    · simp at found
    · split at found
      · simp at found
      · simp only [Except.ok.injEq] at found
        subst found
        exact Nat.le_refl _

/-- Find a step and cut it off the words that follow it. -/
def cutStep
    (handles : List CollectionHandle)
    (word : Word)
    (rest : List Word) :
    Except Fault (StepStart × List Word × List Word) :=
  match startStep handles word rest with
  | .error fault => .error fault
  | .ok start =>
      match start.kind.cut start.head start.rest with
      | .error fault => .error fault
      | .ok (body, after) => .ok (start, body, after)

theorem length_le_of_cutStep
    {handles : List CollectionHandle}
    {word : Word}
    {rest body after : List Word}
    {start : StepStart}
    (parts : cutStep handles word rest = .ok (start, body, after)) :
    after.length ≤ rest.length := by
  unfold cutStep at parts
  split at parts
  · simp at parts
  · rename_i found
    split at parts
    · simp at parts
    · rename_i cutParts
      simp only [Except.ok.injEq, Prod.mk.injEq] at parts
      obtain ⟨rfl, rfl, rfl⟩ := parts
      exact Nat.le_trans (StepKind.length_le_of_cut cutParts) (length_le_of_startStep found)

/-- Read the steps of a Transaction. -/
def readSteps (scope : Scope) (handles : List CollectionHandle) :
    List Word -> Binding (List TransactionStep)
  | [] => pure []
  | word :: rest =>
      match _parts : cutStep handles word rest with
      | .error fault => throw fault
      | .ok (start, body, after) => do
          let action ← start.kind.read scope body
          let others ← readSteps scope handles after
          return ⟨start.resource, action⟩ :: others
termination_by run => run.length
decreasing_by exact Nat.lt_succ_of_le (length_le_of_cutStep _parts)

/-- Read the words behind `Transaction`. -/
def read (scope : Scope) (run : List Word) : Binding Transaction := do
  Binding.ofCheck (Signature.transaction scope.method scope.config)
  let context ← Binding.takeContext
  let client ← Binding.takeParam run
  let collections ← Binding.takeWhileType scope.config.collectionType
  let handles := collections.map CollectionHandle.ofParam
  let steps ← readSteps scope handles run
  if steps.isEmpty then
    Binding.refuse .emptyTransaction run
  else
    Binding.ensureExhausted
    return ⟨scope.method.name, context, client.name, handles, steps⟩

end Transaction

end DerivedQuery
