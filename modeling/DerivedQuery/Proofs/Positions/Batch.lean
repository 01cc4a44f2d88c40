import DerivedQuery.Proofs.Positions.Write

/-!
# Reading batches by position

The steps of a Bulk or Transaction are found from position to position. Where a
step starts, its words and the position behind them are found without leaving
the run; the brackets around an inner Bulk are counted from the one that opens
it, so the count never falls below zero.
-/

namespace DerivedQuery
namespace Positions

open Checked

/-! ## Where a step ends -/

/-- The position of the first word from a position on that starts an operation
or names a collection, or else the end of the run. -/
def nextStep (words : List Word) (position : Nat) : Nat :=
  match (words.drop position).findIdx? Scope.startsStep with
  | some offset => position + offset
  | none => words.length

section Standing

variable {words rest : List Word}
variable {index : Nat}
variable {word : Word}

theorem getElem?_of_stands
    (stands : words.drop index = word :: rest) :
    words[index]? = some word := by
  rw [← List.head?_drop, stands]
  rfl

/-- A word that stands at a position has a part of the run in front of it. -/
theorem exists_front
    (stands : words.drop index = word :: rest) :
    ∃ front, words = front ++ (word :: rest) ∧ index = front.length := by
  obtain ⟨front, after, rfl, rfl⟩ := Word.exists_append_of_getElem? (getElem?_of_stands stands)
  rw [List.drop_left] at stands
  exact ⟨front, by rw [stands], rfl⟩

theorem lt_of_stands
    (stands : words.drop index = word :: rest) :
    index < words.length := by
  obtain ⟨front, rfl, rfl⟩ := exists_front stands
  simp

theorem drop_succ_of_stands
    (stands : words.drop index = word :: rest) :
    words.drop (index + 1) = rest := by
  rw [← List.drop_drop, stands]
  rfl

theorem getElem?_behind
    (stands : words.drop index = word :: rest) :
    words[index + 1]? = rest.head? := by
  rw [← List.head?_drop, drop_succ_of_stands stands]

/-- A part that starts with the word at a position. -/
theorem slice?_of_stands
    {part behind : List Word}
    {stop : Nat}
    (stands : words.drop index = word :: rest)
    (rest_eq : rest = part ++ behind)
    (stop_eq : stop = index + (part.length + 1)) :
    slice? words index stop = some (word :: part) := by
  obtain ⟨front, rfl, rfl⟩ := exists_front stands
  subst rest_eq
  exact slice?_append rfl rfl stop_eq

theorem slice?_alone
    (stands : words.drop index = word :: rest) :
    slice? words index (index + 1) = some [word] :=
  slice?_of_stands stands (List.nil_append rest).symm rfl

/-- A part that starts behind the word at a position. -/
theorem slice?_behind
    {part behind : List Word}
    {stop : Nat}
    (stands : words.drop index = word :: rest)
    (rest_eq : rest = part ++ behind)
    (stop_eq : stop = index + 1 + part.length) :
    slice? words (index + 1) stop = some part := by
  obtain ⟨front, rfl, rfl⟩ := exists_front stands
  subst rest_eq
  refine slice?_append (show _ = (front ++ [word]) ++ (part ++ behind) by simp) ?_ ?_
  · simp
  · simp [stop_eq]

theorem nextStep_eq
    (stands : words.drop index = word :: rest) :
    nextStep words (index + 1) = index + 1 + (Scope.stepBody rest).length := by
  rw [nextStep, drop_succ_of_stands stands, Scope.stepBody, takeWhile_eq_take_findIdx,
    List.length_take_of_le List.findIdx_le_length]
  cases found : rest.findIdx? Scope.startsStep with
  | some offset => rw [(List.findIdx?_eq_some_iff_findIdx_eq.mp found).2]
  | none =>
      obtain ⟨front, rfl, rfl⟩ := exists_front stands
      rw [List.findIdx?_eq_none_iff_findIdx_eq.mp found]
      change (front ++ word :: rest).length = front.length + 1 + rest.length
      rw [List.length_append, List.length_cons]
      omega

/-- A word and those up to the next step. -/
theorem slice?_stepPart
    (stands : words.drop index = word :: rest) :
    slice? words index (nextStep words (index + 1)) = some (word :: Scope.stepBody rest) :=
  slice?_of_stands stands (Scope.stepBody_append_stepRest rest).symm
    ((nextStep_eq stands).trans (by omega))

/-- The words of a step are those up to the next one. -/
theorem slice?_stepBody
    (stands : words.drop index = word :: rest) :
    slice? words (index + 1) (nextStep words (index + 1)) = some (Scope.stepBody rest) :=
  slice?_behind stands (Scope.stepBody_append_stepRest rest).symm (nextStep_eq stands)

theorem drop_nextStep
    (stands : words.drop index = word :: rest) :
    words.drop (nextStep words (index + 1)) = Scope.stepRest rest := by
  have divided := congrArg (List.drop (Scope.stepBody rest).length)
    (Scope.stepBody_append_stepRest rest)
  rw [List.drop_left] at divided
  rw [nextStep_eq stands, ← List.drop_drop, drop_succ_of_stands stands, divided]

end Standing

/-! ## What is found at a position -/

/-- A step found at a position: its kind, its words and the position behind it. -/
structure Piece (Kind : Type) where
  kind : Kind
  body : List Word
  next : Nat

/-- A step that was found by position is the one cut off the words from there
on. -/
structure Piece.Leaves
    {Kind : Type}
    (piece : Piece Kind)
    (words : List Word)
    (kind : Kind)
    (body after : List Word) : Prop where
  kind_eq : piece.kind = kind
  body_eq : piece.body = body
  drop_eq : words.drop piece.next = after

/-- Look-ups that all succeed and end with the same fault as a result, or with
something that fits it. -/
inductive Finds
    {α β : Type}
    (fits : α -> β -> Prop) :
    Option (Except Fault α) -> Except Fault β -> Prop
  | refused (fault : Fault) : Finds fits (some (.error fault)) (.error fault)
  | found {value : α} {other : β} (fit : fits value other) :
      Finds fits (some (.ok value)) (.ok other)

/-! ## Bulks -/

/-- Find the step of a Bulk that starts at a position. -/
def bulkStepAt (words : List Word) (index : Nat) :
    Option (Except Fault (Piece Bulk.StepKind)) := do
  let word ← words[index]?
  match word.keyword? with
  | some .insert =>
      match words[index + 1]? with
      | none =>
          let alone ← slice? words index (index + 1)
          return .error (Fault.on .insertWithoutOne alone)
      | some mode =>
          if mode.is .one then
            let body ← slice? words (index + 1) (index + 2)
            return .ok ⟨.insert, body, index + 2⟩
          else if mode.is .many then
            let both ← slice? words index (index + 2)
            return .error (Fault.on .insertManyInBulk both)
          else
            let alone ← slice? words index (index + 1)
            return .error (Fault.on .insertWithoutOne alone)
  | some .update =>
      let stop := nextStep words (index + 1)
      let body ← slice? words (index + 1) stop
      return .ok ⟨.update, body, stop⟩
  | some .delete =>
      let stop := nextStep words (index + 1)
      let body ← slice? words (index + 1) stop
      return .ok ⟨.delete, body, stop⟩
  | some .find | some .count | some .bulk | some .transaction =>
      let alone ← slice? words index (index + 1)
      return .error (Fault.on .unsupportedInBulk alone)
  | _ =>
      let part ← slice? words index (nextStep words (index + 1))
      return .error (Scope.unexpected part "in Bulk, expected Insert, Update or Delete")

theorem bulkStepAt_finds
    {words rest : List Word}
    {index : Nat}
    {word : Word}
    (stands : words.drop index = word :: rest) :
    Finds (fun piece step => piece.Leaves words step.1 step.2.1 step.2.2)
      (bulkStepAt words index) (Bulk.cutStep word rest) := by
  have alone_eq := slice?_alone stands
  unfold bulkStepAt Bulk.cutStep
  simp only [getElem?_of_stands stands, Option.bind_eq_bind, Option.bind_some, alone_eq,
    slice?_stepPart stands, slice?_stepBody stands]
  cases word.keyword? with
  | none => exact .refused _
  | some keyword =>
      cases keyword with
      | insert =>
          simp only [getElem?_behind stands]
          cases rest with
          | nil => exact .refused _
          | cons mode others =>
              have body_eq : slice? words (index + 1) (index + 2) = some [mode] :=
                slice?_alone (drop_succ_of_stands stands)
              have both_eq : slice? words index (index + 2) = some [word, mode] :=
                slice?_of_stands stands (List.singleton_append).symm rfl
              simp only [List.head?_cons, body_eq, both_eq, Option.bind_some]
              split
              · exact .found ⟨rfl, rfl, drop_succ_of_stands (drop_succ_of_stands stands)⟩
              · split <;> exact .refused _
      | update | delete => exact .found ⟨rfl, rfl, drop_nextStep stands⟩
      | _ => exact .refused _

/-- Behind a step of a Bulk there are fewer words left. -/
theorem progress_of_bulkStepAt
    {words : List Word}
    {index : Nat}
    {piece : Piece Bulk.StepKind}
    (within : index < words.length)
    (found : bulkStepAt words index = some (.ok piece)) :
    words.length - piece.next < words.length - index := by
  have finds := bulkStepAt_finds (List.drop_eq_getElem_cons within)
  rw [found] at finds
  generalize cut_eq : Bulk.cutStep _ _ = outcome at finds
  cases finds with
  | found leaves =>
      have shorter := Bulk.length_le_of_cutStep cut_eq
      rw [← leaves.drop_eq, List.length_drop, List.length_drop] at shorter
      omega

/-- Read the words of a step of a Bulk. -/
def bulkStep (scope : Scope) (body : List Word) : Bulk.StepKind -> Checked BulkStep
  | .insert => return .insert (← insert scope body .nested)
  | .update => return .update (← update scope body .nested)
  | .delete => return .delete (← delete scope body .nested)

theorem bulkStep_eq
    (scope : Scope)
    (body : List Word)
    (kind : Bulk.StepKind) :
    bulkStep scope body kind = lift (kind.read scope body) := by
  cases kind with
  | insert => exact then_pure_eq_lift (insert_eq scope body .nested) BulkStep.insert
  | update => exact then_pure_eq_lift (update_eq scope body .nested) BulkStep.update
  | delete => exact then_pure_eq_lift (delete_eq scope body .nested) BulkStep.delete

/-- Read the steps of a Bulk from a position on. -/
def bulkSteps (scope : Scope) (words : List Word) (index : Nat) : Checked (List BulkStep) :=
  if _within : index < words.length then
    match _found : bulkStepAt words index with
    | none => lookUp none
    | some (.error fault) => lift (throw fault)
    | some (.ok piece) => do
        let step ← bulkStep scope piece.body piece.kind
        let others ← bulkSteps scope words piece.next
        return step :: others
  else
    pure []
termination_by words.length - index
decreasing_by exact progress_of_bulkStepAt _within _found

theorem bulkSteps_eq
    (scope : Scope)
    (words : List Word)
    (index : Nat) :
    bulkSteps scope words index = lift (Bulk.readSteps scope (words.drop index)) := by
  fun_induction bulkSteps scope words index with
  | case1 index within missing =>
      have finds := bulkStepAt_finds (List.drop_eq_getElem_cons within)
      rw [missing] at finds
      cases finds
  | case2 index within fault refused =>
      have finds := bulkStepAt_finds (List.drop_eq_getElem_cons within)
      rw [refused] at finds
      rw [List.drop_eq_getElem_cons within, Bulk.readSteps_cons]
      generalize Bulk.cutStep _ _ = outcome at finds ⊢
      cases finds
      rfl
  | case3 index within piece found hypothesis =>
      have finds := bulkStepAt_finds (List.drop_eq_getElem_cons within)
      rw [found] at finds
      rw [List.drop_eq_getElem_cons within, Bulk.readSteps_cons]
      generalize Bulk.cutStep _ _ = outcome at finds ⊢
      cases finds with
      | @found _ step leaves =>
          obtain ⟨kind, body, after⟩ := step
          obtain ⟨rfl, rfl, rfl⟩ := leaves
          refine bind_eq_lift (bulkStep_eq scope piece.body piece.kind) fun step _ => ?_
          exact then_pure_eq_lift hypothesis _
  | case4 index outside =>
      rw [List.drop_eq_nil_of_le (Nat.not_lt.mp outside), Bulk.readSteps]
      rfl

/-- Read the words behind `Bulk`. -/
def bulk (scope : Scope) (run : List Word) (invocation : Invocation) : Checked Bulk := do
  let context ← lift (Bulk.readContext scope invocation)
  let steps ← bulkSteps scope run 0
  if steps.isEmpty then
    lift (Binding.refuse .emptyBulk run)
  else
    lift (Scope.closeWrite invocation)
    return ⟨scope.method.name, context, steps⟩

theorem bulk_eq
    (scope : Scope)
    (run : List Word)
    (invocation : Invocation) :
    bulk scope run invocation = lift (Bulk.read scope run invocation) := by
  refine bind_eq_lift rfl fun context _ => ?_
  refine bind_eq_lift (bulkSteps_eq scope run 0) fun steps _ => ?_
  split
  · rfl
  · exact then_pure_eq_lift rfl _

/-! ## Steps of a Transaction -/

/-- The position of the bracket that ends the inner Bulk at a position. -/
def blockEnd (words : List Word) (index : Nat) : Option (Except Fault Nat) :=
  if words[index + 1]?.any (·.is .leftBracket) then do
    match ← closingFrom (index + 1) 0 (words.drop (index + 1)) with
    | some close => return .ok close
    | none =>
        let part ← slice? words index words.length
        return .error (Fault.on .bulkUnclosed part)
  else do
    let alone ← slice? words index (index + 1)
    return .error (Fault.on .bulkWithoutBracket alone)

/-- Find the inner Bulk that starts at a position. -/
def blockAt (words : List Word) (index : Nat) :
    Option (Except Fault (Piece Transaction.StepKind)) := do
  match ← blockEnd words index with
  | .error fault => return .error fault
  | .ok close =>
      let body ← slice? words (index + 2) close
      return .ok ⟨.bulk, body, close + 1⟩

/-- Find the words of the step whose first word stands at a position. -/
def cutAt (words : List Word) (index : Nat) :
    Option (Except Fault (Piece Transaction.StepKind)) := do
  let head ← words[index]?
  match head.keyword? with
  | some .insert =>
      let stop := min (index + 2) words.length
      let body ← slice? words (index + 1) stop
      return .ok ⟨.insert, body, stop⟩
  | some .update =>
      let stop := nextStep words (index + 1)
      let body ← slice? words (index + 1) stop
      return .ok ⟨.update, body, stop⟩
  | some .delete =>
      let stop := nextStep words (index + 1)
      let body ← slice? words (index + 1) stop
      return .ok ⟨.delete, body, stop⟩
  | _ => blockAt words index

/-- The kind of step a word starts in a Transaction. -/
def stepKind? (word : Word) : Option Transaction.StepKind :=
  (word.keyword?.bind Keyword.operation?).bind Transaction.StepKind.ofOperation?

/-- The end of an inner Bulk is found where its bracket is closed. -/
theorem blockEnd_eq
    {words inner : List Word}
    {index : Nat}
    {head bracket : Word}
    (stands : words.drop index = head :: bracket :: inner)
    (opens : bracket.is .leftBracket) :
    blockEnd words index =
      some (match Brackets.splitClosing 0 inner with
        | some parts => .ok (index + 2 + parts.1.length)
        | none => .error (Fault.on .bulkUnclosed (head :: bracket :: inner))) := by
  have part_eq : slice? words index words.length = some (head :: bracket :: inner) := by
    rw [slice?_from (lt_of_stands stands).le, stands]
  rw [blockEnd, if_pos (by simp [getElem?_behind stands, opens]), drop_succ_of_stands stands,
    closingFrom, if_pos opens, closingFrom_eq]
  cases Brackets.splitClosing 0 inner with
  | none =>
      simp only [Option.bind_eq_bind, Option.bind_some, Option.map_none, part_eq]
      rfl
  | some parts => rfl

theorem blockEnd_refused
    {words rest : List Word}
    {index : Nat}
    {head : Word}
    (stands : words.drop index = head :: rest)
    (unopened : ¬ rest.head?.any (·.is .leftBracket)) :
    blockEnd words index = some (.error (Fault.on .bulkWithoutBracket [head])) := by
  rw [blockEnd, if_neg (by rwa [getElem?_behind stands]), slice?_alone stands]
  rfl

theorem blockAt_finds
    {words rest : List Word}
    {index : Nat}
    {head : Word}
    (stands : words.drop index = head :: rest) :
    Finds (fun piece parts => piece.Leaves words .bulk parts.1 parts.2)
      (blockAt words index) (Transaction.StepKind.cut .bulk head rest) := by
  rw [blockAt]
  cases rest with
  | nil =>
      rw [blockEnd_refused stands (by simp)]
      exact .refused _
  | cons bracket inner =>
      by_cases opens : bracket.is .leftBracket
      · simp only [blockEnd_eq stands opens, Transaction.StepKind.cut, if_pos opens]
        cases divided : Brackets.splitClosing 0 inner with
        | none => exact .refused _
        | some parts =>
            obtain ⟨inside, after⟩ := parts
            obtain ⟨closing, -, rfl, -⟩ := Brackets.splitClosing_eq_some_iff.mp divided
            have behind := drop_succ_of_stands stands
            have body_eq : slice? words (index + 2) (index + 2 + inside.length) = some inside :=
              slice?_behind behind rfl rfl
            have closes : words.drop (index + 2 + inside.length) = closing :: after := by
              rw [← List.drop_drop, drop_succ_of_stands behind, List.drop_left]
            simp only [Option.bind_eq_bind, Option.bind_some, body_eq]
            exact .found ⟨rfl, rfl, drop_succ_of_stands closes⟩
      · simp only [blockEnd_refused stands opens, Transaction.StepKind.cut, if_neg opens]
        exact .refused _

/-- The words of a step are those that are cut off behind its first word. -/
theorem cutAt_finds
    {words rest : List Word}
    {index : Nat}
    {head : Word}
    {kind : Transaction.StepKind}
    (stands : words.drop index = head :: rest)
    (isKind : stepKind? head = some kind) :
    Finds (fun piece parts => piece.Leaves words kind parts.1 parts.2)
      (cutAt words index) (kind.cut head rest) := by
  have behind := drop_succ_of_stands stands
  unfold stepKind? at isKind
  simp only [cutAt, getElem?_of_stands stands, Option.bind_eq_bind, Option.bind_some,
    slice?_stepBody stands]
  cases keyword_eq : head.keyword? with
  | none => simp [keyword_eq] at isKind
  | some keyword =>
      rw [keyword_eq] at isKind
      cases keyword with
      | insert =>
          obtain rfl := Option.some.inj isKind
          cases rest with
          | nil =>
              have stop_eq : min (index + 2) words.length = index + 1 := by
                have within := lt_of_stands stands
                have ended := List.drop_eq_nil_iff.mp behind
                omega
              have body_eq : slice? words (index + 1) (index + 1) = some [] :=
                slice?_behind stands (List.nil_append []).symm rfl
              simp only [stop_eq, body_eq]
              exact .found ⟨rfl, rfl, behind⟩
          | cons mode others =>
              have stop_eq : min (index + 2) words.length = index + 2 :=
                Nat.min_eq_left (lt_of_stands behind)
              simp only [stop_eq, slice?_alone behind]
              exact .found ⟨rfl, rfl, drop_succ_of_stands behind⟩
      | update | delete =>
          obtain rfl := Option.some.inj isKind
          exact .found ⟨rfl, rfl, drop_nextStep stands⟩
      | bulk =>
          obtain rfl := Option.some.inj isKind
          exact blockAt_finds stands
      | _ => simp [Keyword.operation?, Transaction.StepKind.ofOperation?] at isKind

/-- The collection named behind `Collection` at a position, and the position of
the step that follows. -/
def startInCollection (handles : List CollectionHandle) (words : List Word) (index : Nat) :
    Option (Except Fault (Resource × Nat)) :=
  if index + 1 = words.length then do
    let alone ← slice? words index words.length
    return .error (Fault.on .loneCollection alone)
  else do
    let position := nextStep words (index + 1)
    match (words[position]?.bind Word.keyword?).bind Keyword.operation? with
    | none =>
        let part ← slice? words index position
        return .error (Fault.on .collectionWithoutOperation part)
    | some operation =>
        match Transaction.StepKind.ofOperation? operation with
        | none =>
            let head ← slice? words position (position + 1)
            return .error (Fault.on .unsupportedInTransaction head)
        | some _ =>
            if position = index + 1 then
              let alone ← slice? words index (index + 1)
              return .error (Fault.on .collectionWithoutName alone)
            else
              let name ← slice? words (index + 1) position
              let spelling := String.join (Word.texts name)
              match handles.find? (·.spelling == spelling) with
              | some handle => return .ok (.handle handle.param, position)
              | none => return .error (Fault.on (.unknownCollection spelling) name)

/-- What the step at a position writes to, and the position of its first word. -/
def startAt (handles : List CollectionHandle) (words : List Word) (index : Nat) :
    Option (Except Fault (Resource × Nat)) := do
  let word ← words[index]?
  match word.keyword? with
  | some .collection => startInCollection handles words index
  | keyword? =>
      match keyword?.bind Keyword.operation? with
      | none =>
          let part ← slice? words index (nextStep words (index + 1))
          return .error (Scope.unexpected part
            "in Transaction, expected Insert, Update, Delete, Bulk or Collection")
      | some operation =>
          match Transaction.StepKind.ofOperation? operation with
          | none =>
              let alone ← slice? words index (index + 1)
              return .error (Fault.on .unsupportedInTransaction alone)
          | some _ => return .ok (.primary, index)

/-- A start of a step that was found by position is the one found in the words
from there on. -/
structure StartsAt
    (words : List Word)
    (place : Resource × Nat)
    (start : Transaction.StepStart) : Prop where
  resource_eq : place.1 = start.resource
  stands : words.drop place.2 = start.head :: start.rest
  isKind : stepKind? start.head = some start.kind

theorem startInCollection_finds
    (handles : List CollectionHandle)
    {words rest : List Word}
    {index : Nat}
    {collection : Word}
    (stands : words.drop index = collection :: rest) :
    Finds (StartsAt words) (startInCollection handles words index)
      (Transaction.startInCollection handles collection rest) := by
  have alone_eq := slice?_alone stands
  have part_eq := slice?_stepPart stands
  have name_eq := slice?_stepBody stands
  have next_eq := nextStep_eq stands
  have following := drop_nextStep stands
  unfold startInCollection Transaction.startInCollection
  generalize nextStep words (index + 1) = position at part_eq name_eq next_eq following ⊢
  simp only [Option.bind_eq_bind]
  cases rest with
  | nil =>
      have ended : index + 1 = words.length := by
        have within := lt_of_stands stands
        have nothing := List.drop_eq_nil_iff.mp (drop_succ_of_stands stands)
        omega
      rw [if_pos ended, ← ended, alone_eq]
      exact .refused _
  | cons first others =>
      have notEnded : index + 1 ≠ words.length :=
        (lt_of_stands (drop_succ_of_stands stands)).ne
      rw [if_neg notEnded]
      cases stepped : Scope.stepRest (first :: others) with
      | nil =>
          rw [stepped] at following
          have nothing : words[position]? = none :=
            List.getElem?_eq_none (List.drop_eq_nil_iff.mp following)
          simp only [nothing, part_eq]
          exact .refused _
      | cons head after =>
          rw [stepped] at following
          have head_eq := slice?_alone following
          simp only [getElem?_of_stands following, Option.bind_some, part_eq]
          cases operation_eq : head.keyword?.bind Keyword.operation? with
          | none => exact .refused _
          | some operation =>
              simp only [head_eq]
              cases kind_eq : Transaction.StepKind.ofOperation? operation with
              | none => exact .refused _
              | some kind =>
                  by_cases unnamed : (Scope.stepBody (first :: others)).isEmpty
                  · have position_eq : position = index + 1 := by
                      rw [next_eq, List.isEmpty_iff.mp unnamed]
                      rfl
                    simp only [if_pos position_eq, if_pos unnamed, alone_eq]
                    exact .refused _
                  · have position_ne : position ≠ index + 1 := by
                      intro position_eq
                      apply unnamed
                      rw [List.isEmpty_iff, ← List.length_eq_zero_iff]
                      omega
                    simp only [if_neg position_ne, if_neg unnamed, name_eq, Option.bind_some]
                    cases handles.find? (·.spelling ==
                      String.join (Word.texts (Scope.stepBody (first :: others)))) with
                    | none => exact .refused _
                    | some handle =>
                        refine .found ⟨rfl, following, ?_⟩
                        rw [stepKind?, operation_eq]
                        exact kind_eq

theorem startAt_finds
    (handles : List CollectionHandle)
    {words rest : List Word}
    {index : Nat}
    {word : Word}
    (stands : words.drop index = word :: rest) :
    Finds (StartsAt words) (startAt handles words index)
      (Transaction.startStep handles word rest) := by
  unfold startAt Transaction.startStep
  simp only [getElem?_of_stands stands, Option.bind_eq_bind, Option.bind_some,
    slice?_alone stands, slice?_stepPart stands]
  cases keyword_eq : word.keyword? with
  | none => exact .refused _
  | some keyword =>
      cases keyword with
      | collection => exact startInCollection_finds handles stands
      | insert | update | delete | bulk =>
          refine .found ⟨rfl, stands, ?_⟩
          rw [stepKind?, keyword_eq]
          rfl
      | _ => exact .refused _

/-- Find the step of a Transaction that starts at a position, and what it
writes to. -/
def transactionStepAt (handles : List CollectionHandle) (words : List Word) (index : Nat) :
    Option (Except Fault (Resource × Piece Transaction.StepKind)) := do
  match ← startAt handles words index with
  | .error fault => return .error fault
  | .ok (resource, position) =>
      match ← cutAt words position with
      | .error fault => return .error fault
      | .ok piece => return .ok (resource, piece)

theorem transactionStepAt_finds
    (handles : List CollectionHandle)
    {words rest : List Word}
    {index : Nat}
    {word : Word}
    (stands : words.drop index = word :: rest) :
    Finds
      (fun found step => found.1 = step.1.resource ∧
        found.2.Leaves words step.1.kind step.2.1 step.2.2)
      (transactionStepAt handles words index) (Transaction.cutStep handles word rest) := by
  have starts := startAt_finds handles stands
  rw [transactionStepAt, Transaction.cutStep]
  generalize startAt handles words index = looked at starts ⊢
  generalize Transaction.startStep handles word rest = outcome at starts ⊢
  cases starts with
  | refused fault => exact .refused fault
  | @found place start startsAt =>
      obtain ⟨resource, position⟩ := place
      have cuts := cutAt_finds startsAt.stands startsAt.isKind
      simp only [Option.bind_eq_bind, Option.bind_some]
      generalize cutAt words position = lookedUp at cuts ⊢
      generalize start.kind.cut start.head start.rest = parts at cuts ⊢
      cases cuts with
      | refused fault => exact .refused fault
      | found leaves => exact .found ⟨startsAt.resource_eq, leaves⟩

/-- Behind a step of a Transaction there are fewer words left. -/
theorem progress_of_transactionStepAt
    {handles : List CollectionHandle}
    {words : List Word}
    {index : Nat}
    {found : Resource × Piece Transaction.StepKind}
    (within : index < words.length)
    (found_eq : transactionStepAt handles words index = some (.ok found)) :
    words.length - found.2.next < words.length - index := by
  have finds := transactionStepAt_finds handles (List.drop_eq_getElem_cons within)
  rw [found_eq] at finds
  generalize cut_eq : Transaction.cutStep _ _ _ = outcome at finds
  cases finds with
  | found fit =>
      have shorter := Transaction.length_le_of_cutStep cut_eq
      rw [← fit.2.drop_eq, List.length_drop, List.length_drop] at shorter
      omega

/-! ## Transactions -/

/-- Read the words of a step of a Transaction. -/
def action (scope : Scope) (body : List Word) :
    Transaction.StepKind -> Checked TransactionAction
  | .insert => return .insert (← insert scope body .nested)
  | .update => return .update (← update scope body .nested)
  | .delete => return .delete (← delete scope body .nested)
  | .bulk => return .bulk (← bulk scope body .nested)

theorem action_eq
    (scope : Scope)
    (body : List Word)
    (kind : Transaction.StepKind) :
    action scope body kind = lift (kind.read scope body) := by
  cases kind with
  | insert => exact then_pure_eq_lift (insert_eq scope body .nested) TransactionAction.insert
  | update => exact then_pure_eq_lift (update_eq scope body .nested) TransactionAction.update
  | delete => exact then_pure_eq_lift (delete_eq scope body .nested) TransactionAction.delete
  | bulk => exact then_pure_eq_lift (bulk_eq scope body .nested) TransactionAction.bulk

/-- Read the steps of a Transaction from a position on. -/
def transactionSteps (scope : Scope) (handles : List CollectionHandle) (words : List Word)
    (index : Nat) : Checked (List TransactionStep) :=
  if _within : index < words.length then
    match _found : transactionStepAt handles words index with
    | none => lookUp none
    | some (.error fault) => lift (throw fault)
    | some (.ok (resource, piece)) => do
        let step ← action scope piece.body piece.kind
        let others ← transactionSteps scope handles words piece.next
        return ⟨resource, step⟩ :: others
  else
    pure []
termination_by words.length - index
decreasing_by exact progress_of_transactionStepAt _within _found

theorem transactionSteps_eq
    (scope : Scope)
    (handles : List CollectionHandle)
    (words : List Word)
    (index : Nat) :
    transactionSteps scope handles words index =
      lift (Transaction.readSteps scope handles (words.drop index)) := by
  fun_induction transactionSteps scope handles words index with
  | case1 index within missing =>
      have finds := transactionStepAt_finds handles (List.drop_eq_getElem_cons within)
      rw [missing] at finds
      cases finds
  | case2 index within fault refused =>
      have finds := transactionStepAt_finds handles (List.drop_eq_getElem_cons within)
      rw [refused] at finds
      rw [List.drop_eq_getElem_cons within, Transaction.readSteps_cons]
      generalize Transaction.cutStep _ _ _ = outcome at finds ⊢
      cases finds
      rfl
  | case3 index within resource piece found hypothesis =>
      have finds := transactionStepAt_finds handles (List.drop_eq_getElem_cons within)
      rw [found] at finds
      rw [List.drop_eq_getElem_cons within, Transaction.readSteps_cons]
      generalize Transaction.cutStep _ _ _ = outcome at finds ⊢
      cases finds with
      | @found _ step fit =>
          obtain ⟨start, body, after⟩ := step
          obtain ⟨resource_eq, kind_eq, rfl, rfl⟩ := fit
          simp only at resource_eq kind_eq
          rw [resource_eq, kind_eq]
          refine bind_eq_lift (action_eq scope piece.body start.kind) fun step _ => ?_
          exact then_pure_eq_lift hypothesis _
  | case4 index outside =>
      rw [List.drop_eq_nil_of_le (Nat.not_lt.mp outside), Transaction.readSteps]
      rfl

/-- A Transaction returns nothing but an error. -/
def checkTransaction (method : Method) (config : Config) : Option (Except Cause Unit) :=
  behindCheck
    (do
      Signature.paramsAtLeast method 2
      returnsExactly method 1
      Signature.paramIs method 0 config.contextType
      Signature.paramIs method 1 config.clientType)
    (do
      let only ← method.returns[0]?
      if only = config.errorType then
        return .ok ()
      else
        return .error (.onlyReturn config.errorType))

/-- A method with one result has a first one. -/
theorem checkTransaction_eq
    (method : Method)
    (config : Config) :
    checkTransaction method config = some (Signature.transaction method config) := by
  rw [checkTransaction, Signature.transaction]
  cases Signature.paramsAtLeast method 2 with
  | error cause => rfl
  | ok done =>
      rcases cases_of_takes (Signature.takes_oneReturn method)
          (rfl : returnsExactly method 1 = _) with
        ⟨refused, refusedToo⟩ | ⟨only, returns, counted, looked⟩
      · rw [refused, refusedToo]
        rfl
      · simp only [counted, looked, returns, except_ok_bind]
        cases Signature.paramIs method 0 config.contextType with
        | error cause => rfl
        | ok done =>
            cases Signature.paramIs method 1 config.clientType with
            | error cause => rfl
            | ok done =>
                simp only [except_ok_bind, behindCheck, List.getElem?_cons_zero,
                  Option.bind_eq_bind, Option.bind_some]
                split <;> rfl

/-- Read the words behind `Transaction`. -/
def transaction (scope : Scope) (run : List Word) : Checked Transaction := do
  let checked ← lookUp (checkTransaction scope.method scope.config)
  lift (Binding.ofCheck checked)
  let context ← lift Binding.takeContext
  let client ← lift (Binding.takeParam run)
  let collections ← lift (Binding.takeWhileType scope.config.collectionType)
  let handles := collections.map CollectionHandle.ofParam
  let steps ← transactionSteps scope handles run 0
  if steps.isEmpty then
    lift (Binding.refuse .emptyTransaction run)
  else
    lift Binding.ensureExhausted
    return ⟨scope.method.name, context, client.name, handles, steps⟩

theorem transaction_eq
    (scope : Scope)
    (run : List Word) :
    transaction scope run = lift (Transaction.read scope run) := by
  rw [transaction, checkTransaction_eq, lookUp_some_bind]
  refine bind_eq_lift rfl fun _ _ => ?_
  refine bind_eq_lift rfl fun context _ => ?_
  refine bind_eq_lift rfl fun client _ => ?_
  refine bind_eq_lift rfl fun collections _ => ?_
  refine bind_eq_lift (transactionSteps_eq scope _ run 0) fun steps _ => ?_
  split
  · rfl
  · exact then_pure_eq_lift rfl _

end Positions
end DerivedQuery
