import DerivedQuery.Proofs.Locality
import DerivedQuery.Proofs.RecordReader
import DerivedQuery.Proofs.Signature

/-!
# Batches one behind the other

No step of a batch reaches over a word that starts another step. Reading a Bulk
is therefore a homomorphism: two runs of steps written one behind the other are
read as the first and then the second, faults included. Transactions compose in
the same way where both are accepted; there the collection handles in front of
the steps are shared.
-/

namespace DerivedQuery

variable {first : Word}

theorem OperationKind.isOperation_keyword (kind : OperationKind) : kind.keyword.isOperation := by
  rw [Keyword.isOperation, operation?_keyword, Option.isSome_some]

namespace Scope

/-- A step starts with an operation or names its collection. -/
theorem startsStep_iff
    {word : Word} :
    startsStep word ↔
      ∃ keyword, word.keyword? = some keyword ∧ (keyword.isOperation ∨ keyword = .collection) := by
  unfold startsStep
  cases word.keyword? with
  | none => simp
  | some keyword => simp

/-- A word that starts a step is no mode. -/
theorem not_mode_of_startsStep
    (starts : startsStep first) :
    first.is .one = false ∧ first.is .many = false := by
  obtain ⟨keyword, spelled, isStep⟩ := startsStep_iff.mp starts
  simp only [Word.is, spelled]
  cases keyword <;> simp_all [Keyword.isOperation, Keyword.operation?]

/-- The words of a step end in front of the next one. -/
theorem stepBody_append
    (run others : List Word)
    (starts : startsStep first) :
    stepBody (run ++ first :: others) = stepBody run := by
  unfold stepBody
  rw [List.takeWhile_append, List.takeWhile_cons_of_neg (by simp [starts]), List.append_nil]
  split
  · rename_i whole
    exact ((List.takeWhile_sublist _).eq_of_length whole).symm
  · rfl

theorem stepRest_append
    (run others : List Word)
    (starts : startsStep first) :
    stepRest (run ++ first :: others) = stepRest run ++ first :: others := by
  unfold stepRest
  rw [List.dropWhile_append, List.dropWhile_cons_of_neg (by simp [starts])]
  split
  · rename_i nothing
    rw [List.isEmpty_iff.mp nothing, List.nil_append]
  · rfl

end Scope

namespace Bulk

/-- The cut of a step, or the fault in its place, does not depend on the steps
behind it. -/
theorem cutStep_append
    (word : Word)
    (rest others : List Word)
    (starts : Scope.startsStep first) :
    cutStep word (rest ++ first :: others) =
      (cutStep word rest).map fun (kind, body, after) =>
        (kind, body, after ++ first :: others) := by
  unfold cutStep
  split
  · cases rest with
    | nil =>
        obtain ⟨notOne, notMany⟩ := Scope.not_mode_of_startsStep starts
        simp [notOne, notMany, Except.map]
    | cons mode after =>
        simp only [List.cons_append]
        split
        · rfl
        · split <;> rfl
  all_goals
    simp only [Scope.stepBody_append _ _ starts, Scope.stepRest_append _ _ starts, Except.map]

/-- Steps are read one after the other, across the place where two runs of them
meet. -/
theorem readSteps_append
    (scope : Scope)
    (run others : List Word)
    (starts : Scope.startsStep first) :
    readSteps scope (run ++ first :: others) = do
      let front ← readSteps scope run
      let back ← readSteps scope (first :: others)
      return front ++ back := by
  fun_induction readSteps scope run with
  | case1 => simp
  | case2 word rest fault parts =>
      rw [List.cons_append, readSteps_cons, cutStep_append word rest others starts, parts]
      rfl
  | case3 word rest kind body after parts hypothesis =>
      rw [List.cons_append, readSteps_cons, cutStep_append word rest others starts, parts]
      simp only [Except.map, hypothesis, bind_assoc, pure_bind, List.cons_append]

/-- A Bulk with words behind it has a step or a fault. -/
theorem read_nested_cons
    (scope : Scope)
    (word : Word)
    (rest : List Word) :
    Bulk.read scope (word :: rest) .nested = do
      let steps ← readSteps scope (word :: rest)
      return ⟨scope.method.name, none, steps⟩ := by
  simp only [Bulk.read, readContext, Scope.closeWrite, pure_bind, readSteps_cons]
  cases cutStep word rest with
  | error fault => rfl
  | ok parts => simp only [bind_assoc, pure_bind, List.isEmpty_cons, Bool.false_eq_true, if_false]

theorem read_nested_append_eq
    (scope : Scope)
    {run : List Word}
    (nonempty : run ≠ [])
    (others : List Word)
    (starts : Scope.startsStep first) :
    Bulk.read scope (run ++ first :: others) .nested = do
      let front ← Bulk.read scope run .nested
      let back ← Bulk.read scope (first :: others) .nested
      return ⟨scope.method.name, none, front.steps ++ back.steps⟩ := by
  obtain ⟨word, rest, rfl⟩ := List.exists_cons_of_ne_nil nonempty
  rw [List.cons_append, read_nested_cons, read_nested_cons, read_nested_cons,
    ← List.cons_append, readSteps_append scope (word :: rest) others starts]
  simp only [bind_assoc, pure_bind]

/-- Reading the Bulk of a step is a homomorphism on runs of steps. The second
run is read from the parameters that the first has left; a fault of either is
the fault of both, with the same parameters left over. -/
theorem read_nested_append
    (scope : Scope)
    (run : List Word)
    (nonempty : run ≠ [])
    (first : Word)
    (others : List Word)
    (starts : ∃ keyword, first.keyword? = some keyword ∧
      (keyword.isOperation ∨ keyword = .collection))
    (params : List Param) :
    scope.start (Bulk.read scope (run ++ first :: others) .nested) params =
      match scope.start (Bulk.read scope run .nested) params with
      | (.error error, rest) => (.error error, rest)
      | (.ok front, middle) =>
          match scope.start (Bulk.read scope (first :: others) .nested) middle with
          | (.error error, rest) => (.error error, rest)
          | (.ok back, rest) =>
              (.ok ⟨scope.method.name, none, front.steps ++ back.steps⟩, rest) := by
  rw [read_nested_append_eq scope nonempty others (Scope.startsStep_iff.mpr starts),
    Scope.start_bind]
  rcases scope.start (Bulk.read scope run .nested) params with ⟨error | front, middle⟩
  · rfl
  · dsimp only
    rw [Scope.start_bind]
    rcases scope.start (Bulk.read scope (first :: others) .nested) middle with ⟨error | back, rest⟩
    · rfl
    · rfl

/-- Three kinds of steps, divided in front of the last one. -/
theorem read_nested_append_three_steps :
    let scope : Scope := {
      method := ⟨"Sync", "", [], []⟩
      schema := ⟨"User",
        [⟨"Name", "name", .ident "string", none⟩, ⟨"Age", "age", .ident "int", none⟩]⟩
      config := Config.standard }
    let word (text : String) : Word := ⟨text, 0, 0⟩
    let run := ["Insert", "One", "Update", "Many", "Age", "All"].map word
    let others := ["One", "By", "Name", "Equal"].map word
    let rest : List Param := [⟨"extra", .ident "bool"⟩]
    let params : List Param := [⟨"user", .pointer (.selector "model" "User")⟩,
      ⟨"age", .ident "int"⟩, ⟨"name", .ident "string"⟩] ++ rest
    run ≠ [] ∧
      (∃ keyword, (word "Delete").keyword? = some keyword ∧
        (keyword.isOperation ∨ keyword = .collection)) ∧
      scope.start (Bulk.read scope (run ++ word "Delete" :: others) .nested) params =
        (.ok ⟨"Sync", none, [.insert ⟨"Sync", .one, none, "user"⟩,
          .update ⟨"Sync", .many, none, false, .fields [⟨"age", "age"⟩], .all⟩,
          .delete ⟨"Sync", .one, none, .matching (.leaf ⟨.equal, "name", ["name"]⟩)⟩]⟩, rest) := by
  intro scope word run others rest params
  have nonempty : run ≠ [] := by simp [run]
  have starts : ∃ keyword, (word "Delete").keyword? = some keyword ∧
      (keyword.isOperation ∨ keyword = .collection) := ⟨.delete, by decide, by decide⟩
  have readsFront : scope.start (Bulk.read scope run .nested) params =
      (.ok ⟨"Sync", none, [.insert ⟨"Sync", .one, none, "user"⟩,
        .update ⟨"Sync", .many, none, false, .fields [⟨"age", "age"⟩], .all⟩]⟩,
        ⟨"name", .ident "string"⟩ :: rest) := by
    apply toOption_pair_eq_iff.mp
    decide +kernel
  have readsBack : scope.start (Bulk.read scope (word "Delete" :: others) .nested)
      (⟨"name", .ident "string"⟩ :: rest) =
      (.ok ⟨"Sync", none,
        [.delete ⟨"Sync", .one, none, .matching (.leaf ⟨.equal, "name", ["name"]⟩)⟩]⟩, rest) := by
    apply toOption_pair_eq_iff.mp
    decide +kernel
  refine ⟨nonempty, starts, ?_⟩
  rw [read_nested_append scope run nonempty (word "Delete") others starts params, readsFront]
  dsimp only
  rw [readsBack]
  rfl

end Bulk

namespace Transaction

variable {handles : List CollectionHandle}
variable {run rest others : List Word}

/-- A step that was found is found in front of further steps as well. -/
theorem startInCollection_append
    {word : Word}
    {start : StepStart}
    (found : startInCollection handles word rest = .ok start)
    (starts : Scope.startsStep first) :
    startInCollection handles word (rest ++ first :: others) =
      .ok { start with rest := start.rest ++ first :: others } := by
  rw [startInCollection_eq_ok_iff] at found ⊢
  obtain ⟨behind, spelled, named, handle, known, resource_eq⟩ := found
  rw [Scope.stepBody_append _ _ starts, Scope.stepRest_append _ _ starts, behind]
  exact ⟨rfl, spelled, named, handle, known, resource_eq⟩

theorem startStep_append
    {word : Word}
    {start : StepStart}
    (found : startStep handles word rest = .ok start)
    (starts : Scope.startsStep first) :
    startStep handles word (rest ++ first :: others) =
      .ok { start with rest := start.rest ++ first :: others } := by
  rw [startStep_eq_ok_iff] at found ⊢
  rcases found with ⟨spelled, resource_eq, head_eq, rest_eq⟩ | ⟨isCollection, inCollection⟩
  · exact .inl ⟨spelled, resource_eq, head_eq, congrArg (· ++ first :: others) rest_eq⟩
  · exact .inr ⟨isCollection, startInCollection_append inCollection starts⟩

theorem cut_append
    {kind : StepKind}
    {head : Word}
    {body after : List Word}
    (parts : kind.cut head rest = .ok (body, after))
    (nonempty : kind = .insert -> rest ≠ [])
    (starts : Scope.startsStep first) :
    kind.cut head (rest ++ first :: others) = .ok (body, after ++ first :: others) := by
  rw [StepKind.cut_eq_ok_iff] at parts ⊢
  rcases parts with
    ⟨rfl, rfl, rfl⟩ | ⟨isWrite, rfl, rfl⟩ | ⟨rfl, opening, inner, rfl, opens, found⟩
  · obtain ⟨mode, behind, rfl⟩ := List.exists_cons_of_ne_nil (nonempty rfl)
    exact .inl ⟨rfl, rfl, rfl⟩
  · rw [Scope.stepBody_append _ _ starts, Scope.stepRest_append _ _ starts]
    exact .inr (.inl ⟨isWrite, rfl, rfl⟩)
  · have closed := (Brackets.splitClosing_eq_some_iff.mp found).append (first :: others)
    exact .inr (.inr ⟨rfl, opening, _, rfl, opens, Brackets.splitClosing_eq_some_iff.mpr closed⟩)

/-- An Insert without its mode is refused, so no Insert that is read lacks a
word. -/
theorem ne_nil_of_yields_stepRead
    {scope : Scope}
    {kind : StepKind}
    {head : Word}
    {body after : List Word}
    {action : TransactionAction}
    {params left : List Param}
    (parts : kind.cut head rest = .ok (body, after))
    (yields : (kind.read scope body).Yields params action left)
    (isInsert : kind = .insert) :
    rest ≠ [] := by
  subst isInsert
  rintro rfl
  simp only [StepKind.cut, List.take_nil, Except.ok.injEq, Prod.mk.injEq] at parts
  obtain ⟨rfl, -⟩ := parts
  obtain ⟨record, -, reads⟩ := Binding.yields_then_pure.mp yields
  obtain ⟨found, -⟩ := Insert.yields_readNested_iff.mp reads
  simp [Scope.nestedMode] at found

/-- Steps that are read are read in front of further steps as well, which then
go on with the parameters left. -/
theorem yields_readSteps_append
    {scope : Scope}
    {front back : List TransactionStep}
    {params middle left : List Param}
    (starts : Scope.startsStep first)
    (readsFront : (readSteps scope handles run).Yields params front middle)
    (readsBack : (readSteps scope handles (first :: others)).Yields middle back left) :
    (readSteps scope handles (run ++ first :: others)).Yields params (front ++ back) left := by
  fun_induction readSteps scope handles run generalizing params front middle with
  | case1 =>
      obtain ⟨rfl, rfl⟩ := Binding.yields_pure.mp readsFront
      exact readsBack
  | case2 word rest fault parts => simp at readsFront
  | case3 word rest start body after parts hypothesis =>
      simp only [Binding.yields_bind, Binding.yields_pure] at readsFront
      obtain ⟨action, between, readsStep, steps, _, readsSteps, rfl, rfl⟩ := readsFront
      obtain ⟨found, cutParts⟩ := cutStep_eq_ok parts
      have nonempty := ne_nil_of_yields_stepRead cutParts readsStep
      have joint : cutStep handles word (rest ++ first :: others) =
          .ok ({ start with rest := start.rest ++ first :: others }, body,
            after ++ first :: others) := by
        simp only [cutStep, startStep_append found starts, cut_append cutParts nonempty starts]
      rw [List.cons_append, readSteps_cons, joint]
      simp only [Binding.yields_bind, Binding.yields_pure]
      exact ⟨action, between, readsStep, steps ++ back, left, hypothesis readsSteps readsBack,
        rfl, rfl⟩

/-- The first word of steps that are read starts a step. -/
theorem startsStep_of_yields_readSteps
    {scope : Scope}
    {word : Word}
    {steps : List TransactionStep}
    {params left : List Param}
    (yields : (readSteps scope handles (word :: rest)).Yields params steps left) :
    Scope.startsStep word := by
  rw [readSteps_cons] at yields
  split at yields
  · simp at yields
  · rename_i parts
    rcases startStep_eq_ok_iff.mp (cutStep_eq_ok parts).1 with ⟨spelled, -⟩ | ⟨isCollection, -⟩
    · exact Scope.startsStep_iff.mpr
        ⟨_, Word.is_iff.mp spelled, .inl (OperationKind.isOperation_keyword _)⟩
    · exact Scope.startsStep_iff.mpr ⟨.collection, Word.is_iff.mp isCollection, .inr rfl⟩

/-- The signature of a Transaction is told by its first two parameters and its
results. -/
theorem transaction_of_front
    {scope : Scope}
    {descriptor other : String}
    {context client : Param}
    {behind tail : List Param}
    (signed : Signature.transaction
      (scope.withParams descriptor (context :: client :: behind)).method scope.config = .ok ()) :
    Signature.transaction (scope.withParams other (context :: client :: tail)).method
      scope.config = .ok () := by
  obtain ⟨_, _, _, params_eq, contextTyped, clientTyped, returns⟩ :=
    Signature.transaction_eq_ok_iff.mp signed
  simp only [Scope.withParams, List.cons.injEq] at params_eq
  obtain ⟨rfl, rfl, rfl⟩ := params_eq
  exact Signature.transaction_eq_ok_iff.mpr
    ⟨context, client, tail, rfl, contextTyped, clientTyped, returns⟩

theorem EndsCollections.append
    {scope : Scope}
    {front back : List Param}
    (frontEnds : EndsCollections scope front)
    (backEnds : EndsCollections scope back) :
    EndsCollections scope (front ++ back) := by
  cases front with
  | nil => exact backEnds
  | cons param others => exact frontEnds

/-- The steps of two Transactions are read from the parameters of both. -/
theorem yields_readSteps_joint
    {scope : Scope}
    {firstRun secondRun : List Word}
    {firstSteps secondSteps : List TransactionStep}
    {firstParams secondParams : List Param}
    (nonempty : secondSteps ≠ [])
    (readsFirst : (readSteps scope handles firstRun).Yields firstParams firstSteps [])
    (readsSecond : (readSteps scope handles secondRun).Yields secondParams secondSteps []) :
    (readSteps scope handles (firstRun ++ secondRun)).Yields (firstParams ++ secondParams)
      (firstSteps ++ secondSteps) [] := by
  cases secondRun with
  | nil =>
      rw [readSteps, Binding.yields_pure] at readsSecond
      exact absurd readsSecond.1.symm nonempty
  | cons word rest =>
      have starts := startsStep_of_yields_readSteps readsSecond
      -- The first steps leave exactly what was put behind their own parameters.
      have readsFront :=
        (local_readSteps scope handles firstRun).yields_append readsFirst secondParams
      exact yields_readSteps_append starts readsFront readsSecond

/-- Two Transactions that are accepted with the same context, client and
collections compose: the steps of both are read from the parameters of both. -/
theorem read_append
    (scope : Scope)
    (firstDescriptor secondDescriptor jointDescriptor : String)
    (shared firstParams secondParams firstLeft secondLeft : List Param)
    (firstRun secondRun : List Word)
    (first second : Transaction)
    (readsFirst :
      (Transaction.read (scope.withParams firstDescriptor (shared ++ firstParams)) firstRun).start
        (shared ++ firstParams) = (.ok first, firstLeft))
    (readsSecond :
      (Transaction.read (scope.withParams secondDescriptor (shared ++ secondParams))
        secondRun).start (shared ++ secondParams) = (.ok second, secondLeft))
    (firstShares : shared.length = first.collections.length + 2)
    (secondShares : shared.length = second.collections.length + 2) :
    (Transaction.read
        (scope.withParams jointDescriptor (shared ++ firstParams ++ secondParams))
        (firstRun ++ secondRun)).start (shared ++ firstParams ++ secondParams) =
      (.ok { first with steps := first.steps ++ second.steps }, []) ∧
    second.context = first.context ∧
    second.client = first.client ∧
    second.collections = first.collections := by
  obtain ⟨context, client, row, firstTail, firstSteps, firstSigned, firstParams_eq, typed,
    firstEnds, readsFirstSteps, -, -, rfl⟩ := yields_read_iff.mp readsFirst
  obtain ⟨secondContext, secondClient, secondRow, secondTail, secondSteps, -, secondParams_eq, -,
    secondEnds, readsSecondSteps, nonempty, -, rfl⟩ := yields_read_iff.mp readsSecond
  -- Both parameter lists divide behind the shared ones, which are counted.
  rw [List.length_map] at firstShares secondShares
  change shared ++ firstParams = (context :: client :: row) ++ firstTail at firstParams_eq
  change shared ++ secondParams = (secondContext :: secondClient :: secondRow) ++ secondTail
    at secondParams_eq
  obtain ⟨rfl, rfl⟩ := List.append_inj firstParams_eq firstShares
  obtain ⟨shared_eq, rfl⟩ := List.append_inj secondParams_eq secondShares
  simp only [List.cons.injEq] at shared_eq
  obtain ⟨rfl, rfl, rfl⟩ := shared_eq
  have signed : Signature.transaction (scope.withParams jointDescriptor
      (context :: client :: row ++ firstParams ++ secondParams)).method scope.config = .ok () :=
    transaction_of_front firstSigned
  have ends : EndsCollections scope (firstParams ++ secondParams) := firstEnds.append secondEnds
  rw [readSteps_withParams] at readsFirstSteps readsSecondSteps
  have readsSteps := yields_readSteps_joint nonempty readsFirstSteps readsSecondSteps
  refine ⟨yields_read_iff.mpr ?_, rfl, rfl, rfl⟩
  refine ⟨context, client, row, firstParams ++ secondParams, firstSteps ++ secondSteps, signed,
    by simp, typed, ends, ?_, by simp [nonempty], rfl, rfl⟩
  rw [readSteps_withParams]
  exact readsSteps

/-- A step in another collection, and a Bulk with a bracketed query behind it. -/
theorem read_append_bulk_behind_insert :
    let scope : Scope := {
      method := ⟨"Sync", "", [], [.ident "error"]⟩
      schema := ⟨"User",
        [⟨"Name", "name", .ident "string", none⟩, ⟨"Age", "age", .ident "int", none⟩]⟩
      config := Config.standard.withSplitStrategy .nested }
    let firstRun := Word.segment "CollectionAuditInsertOneDeleteManyByAgeEqual"
    let secondRun := Word.segment "BulkLbDeleteOneByLbNameEqualOrAgeExistsRbRb"
    let shared : List Param := [⟨"ctx", .selector "context" "Context"⟩,
      ⟨"client", .pointer (.selector "mongo" "Client")⟩,
      ⟨"audit", .pointer (.selector "mongo" "Collection")⟩]
    let firstParams : List Param := [⟨"entry", .pointer (.selector "model" "Entry")⟩,
      ⟨"age", .ident "int"⟩]
    let secondParams : List Param := [⟨"name", .ident "string"⟩]
    let first : Transaction := ⟨"Sync", "ctx", "client", [⟨"Audit", "audit"⟩],
      [⟨.handle "audit", .insert ⟨"Sync", .one, none, "entry"⟩⟩,
        ⟨.primary, .delete ⟨"Sync", .many, none, .matching (.leaf ⟨.equal, "age", ["age"]⟩)⟩⟩]⟩
    let query : QueryExpr :=
      .node .or (.leaf ⟨.equal, "name", ["name"]⟩) (.leaf ⟨.present, "age", []⟩)
    let second : Transaction := ⟨"Sync", "ctx", "client", [⟨"Audit", "audit"⟩],
      [⟨.primary, .bulk ⟨"Sync", none, [.delete ⟨"Sync", .one, none, .matching query⟩]⟩⟩]⟩
    (Transaction.read (scope.withParams "" (shared ++ firstParams)) firstRun).start
        (shared ++ firstParams) = (.ok first, []) ∧
      (Transaction.read (scope.withParams "" (shared ++ secondParams)) secondRun).start
        (shared ++ secondParams) = (.ok second, []) ∧
      shared.length = first.collections.length + 2 ∧
      (Transaction.read (scope.withParams "" (shared ++ firstParams ++ secondParams))
          (firstRun ++ secondRun)).start (shared ++ firstParams ++ secondParams) =
        (.ok { first with steps := first.steps ++ second.steps }, []) := by
  intro scope firstRun secondRun shared firstParams secondParams first query second
  have readsFirst : (Transaction.read (scope.withParams "" (shared ++ firstParams)) firstRun).start
      (shared ++ firstParams) = (.ok first, []) := by
    apply toOption_pair_eq_iff.mp
    decide +kernel
  have readsSecond :
      (Transaction.read (scope.withParams "" (shared ++ secondParams)) secondRun).start
        (shared ++ secondParams) = (.ok second, []) := by
    apply toOption_pair_eq_iff.mp
    decide +kernel
  have joint := read_append scope "" "" "" shared firstParams secondParams [] [] firstRun secondRun
    first second readsFirst readsSecond rfl rfl
  exact ⟨readsFirst, readsSecond, rfl, joint.1⟩

end Transaction

end DerivedQuery
