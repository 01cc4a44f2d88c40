import DerivedQuery.Proofs.StepWords
import DerivedQuery.Proofs.WordJunction

/-!
# Collections that can be named

The name of a collection parameter is spelled in descriptors without separators,
each part with a capital. Between `Collection` and the operation behind it such a
spelling is cut into the words it has alone, and these spell it again. The step
then writes to the collection, unless one of the words starts a step itself: the
name is read only up to there.
-/

namespace DerivedQuery

namespace CollectionHandle

variable {chars : List Char}
variable {fresh : Bool}

/-- A small letter becomes a capital, and nothing else changes. -/
theorem toUpper_cases (char : Char) :
    (char.isLower ∧ char.toUpper.isUpper) ∨ (¬char.isLower ∧ char.toUpper = char) := by
  unfold Char.isLower Char.isUpper Char.toUpper
  simp only [Bool.and_eq_true, decide_eq_true_eq, ge_iff_le]
  split
  · rename_i isLower
    refine .inl ⟨isLower, ?_⟩
    simp only [UInt32.le_iff_toNat_le, Char.reduceVal, UInt32.reduceSub, UInt32.toNat_add,
      UInt32.reduceToNat] at isLower ⊢
    omega
  · rename_i notLower
    exact .inr ⟨notLower, rfl⟩

theorem isAlphanum_toUpper (char : Char) : char.toUpper.isAlphanum = char.isAlphanum := by
  rcases toUpper_cases char with ⟨isLower, isUpper⟩ | ⟨-, same⟩
  · unfold Char.isAlphanum Char.isAlpha
    simp [isLower, isUpper]
  · rw [same]

theorem isAlphanum_of_mem_spellingOf
    {char : Char}
    (present : char ∈ spellingOf fresh chars) :
    char.isAlphanum := by
  fun_induction spellingOf fresh chars with
  | case1 => cases present
  | case2 fresh first rest kept hypothesis =>
      rcases List.mem_cons.mp present with rfl | later
      · split
        · rwa [isAlphanum_toUpper]
        · exact kept
      · exact hypothesis later
  | case3 fresh first rest skipped hypothesis => exact hypothesis present

/-- A name with a letter or digit has a spelling. -/
theorem spellingOf_ne_nil
    (named : ∃ char ∈ chars, char.isAlphanum) :
    spellingOf fresh chars ≠ [] := by
  fun_induction spellingOf fresh chars with
  | case1 => simp at named
  | case2 => exact List.cons_ne_nil _ _
  | case3 fresh first rest skipped hypothesis =>
      exact hypothesis (by simpa [skipped] using named)

/-- A spelling does not start with a small letter. -/
theorem head?_spellingOf_ne_lower
    {char : Char}
    (isFirst : (spellingOf true chars).head? = some char) :
    CharClass.of char ≠ .lower := by
  induction chars with
  | nil => cases isFirst
  | cons first rest hypothesis =>
      rw [spellingOf] at isFirst
      split at isFirst
      · obtain rfl := Option.some.inj isFirst
        rw [if_pos rfl]
        rcases toUpper_cases first with ⟨-, isUpper⟩ | ⟨notLower, same⟩
        · rw [CharClass.of_eq_upper_iff.mpr isUpper]
          simp
        · rwa [same, Ne, CharClass.of_eq_lower_iff]
      · exact hypothesis isFirst

/-- Where spellings differ, a spelling finds its handle. -/
theorem find?_spelling
    {handles : List CollectionHandle}
    {handle : CollectionHandle}
    (distinct : (handles.map spelling).Nodup)
    (member : handle ∈ handles) :
    handles.find? (·.spelling == handle.spelling) = some handle := by
  have isSome : (handles.find? (·.spelling == handle.spelling)).isSome :=
    List.find?_isSome.mpr ⟨handle, member, beq_self_eq_true handle.spelling⟩
  obtain ⟨found, isFound⟩ := Option.isSome_iff_exists.mp isSome
  have spelled : found.spelling = handle.spelling := by simpa using List.find?_some isFound
  rw [isFound, List.inj_on_of_nodup_map distinct (List.mem_of_find?_eq_some isFound) member spelled]

variable {param : Param}

theorem isAlphanum_of_mem_ofParam
    {char : Char}
    (present : char ∈ (ofParam param).spelling.toList) :
    char.isAlphanum := by
  rw [ofParam, String.toList_ofList] at present
  exact isAlphanum_of_mem_spellingOf present

theorem spelling_ofParam_ne_empty
    (named : ∃ char ∈ param.name.toList, char.isAlphanum) :
    (ofParam param).spelling ≠ "" := by
  intro nothing
  exact spellingOf_ne_nil named (String.ofList_eq_empty_iff.mp nothing)

/-- Handles of parameters with one name have one spelling. -/
theorem spelling_eq_of_mem
    {collections : List Param}
    {other : CollectionHandle}
    (member : other ∈ collections.map ofParam)
    (named : other.param = param.name) :
    other.spelling = (ofParam param).spelling := by
  obtain ⟨found, -, rfl⟩ := List.mem_map.mp member
  change found.name = param.name at named
  rw [ofParam, named, ofParam]

/-- A spelling starts a word behind a small letter. -/
theorem boundary_spelling
    (param : Param)
    {before : List Char}
    {small : Char}
    (last : before.getLast? = some small)
    (isLower : CharClass.of small = .lower) :
    Word.Boundary before (ofParam param).spelling.toList := by
  apply Word.boundary_of_class .lower
  · rw [last]
    rintro _ ⟨⟩
    exact isLower
  · intro next isNext
    obtain ⟨char, isFirst, rfl⟩ := Option.map_eq_some_iff.mp isNext
    rw [ofParam, String.toList_ofList] at isFirst
    exact ⟨(head?_spellingOf_ne_lower isFirst).symm, nofun⟩

end CollectionHandle

namespace Scope

theorem startsStep_iff_text
    {word : Word} :
    startsStep word ↔
      word.text = Keyword.collection.text ∨ ∃ kind : OperationKind, word.text = kind.name := by
  rw [startsStep_iff]
  simp only [← Word.is_iff, Word.is_iff_text, OperationKind.name]
  constructor
  · rintro ⟨keyword, spelled, isOperation | rfl⟩
    · obtain ⟨kind, starts⟩ := Option.isSome_iff_exists.mp isOperation
      have keyword_eq : kind.keyword = keyword := by cases keyword <;> cases starts <;> rfl
      exact .inr ⟨kind, keyword_eq ▸ spelled⟩
    · exact .inl spelled
  · rintro (spelled | ⟨kind, spelled⟩)
    · exact ⟨.collection, spelled, .inr rfl⟩
    · exact ⟨kind.keyword, spelled, .inl kind.isOperation_keyword⟩

theorem startsStep_eq_false_iff
    {word : Word} :
    startsStep word = false ↔
      word.text ≠ Keyword.collection.text ∧ ∀ kind : OperationKind, word.text ≠ kind.name := by
  rw [← Bool.not_eq_true, startsStep_iff_text, not_or, not_exists]

theorem stepBody_eq_self_iff
    {run : List Word} :
    stepBody run = run ↔ ∀ word ∈ run, startsStep word = false := by
  rw [stepBody, List.takeWhile_eq_self_iff]
  simp

/-- The words in front of a step spell all words only if there are no others. -/
theorem stepBody_eq_self_of_join
    {run : List Word}
    (spelled : ∀ word ∈ run, word.text ≠ "")
    (joined : String.join (Word.texts (stepBody run)) = String.join (Word.texts run)) :
    stepBody run = run := by
  have whole := stepBody_append_stepRest run
  have behind : String.join (Word.texts (stepRest run)) = "" := by
    rw [← whole, Word.texts_append, String.join_append, whole] at joined
    exact String.append_eq_left_iff.mp joined.symm
  cases rest_eq : stepRest run with
  | nil => rwa [rest_eq, List.append_nil] at whole
  | cons word others =>
      rw [rest_eq, Word.texts_cons, String.join_cons, String.append_eq_empty_iff] at behind
      have present : word ∈ run := by
        rw [← whole, rest_eq]
        exact List.mem_append_right _ List.mem_cons_self
      exact absurd behind.1 (spelled word present)

end Scope

namespace Transaction

variable {scope : Scope}
variable {handles : List CollectionHandle}
variable {params rest : List Param}
variable {name others : List Word}
variable {collection head one : Word}

/-- The words of a name are not touched by the words around it. -/
theorem segment_insertion
    {name : String}
    (opening : Word.Boundary "TransactionCollection".toList name.toList) :
    Word.segment ("TransactionCollection" ++ name ++ "InsertOne") =
      ⟨"Transaction", ⟨0, 11⟩⟩ :: ⟨"Collection", ⟨11, 21⟩⟩ ::
        ((Word.segment name).map (Word.shift 21) ++
          [Word.shift (21 + name.utf8ByteSize) ⟨"Insert", ⟨0, 6⟩⟩,
            Word.shift (21 + name.utf8ByteSize) ⟨"One", ⟨6, 9⟩⟩]) := by
  have closing : Word.Boundary ("TransactionCollection" ++ name).toList "InsertOne".toList := by
    have letters : "InsertOne".toList = 'I' :: 'n' :: "sertOne".toList := by decide +kernel
    rw [letters]
    exact Word.boundary_capital rfl rfl
  have front : Word.segment "TransactionCollection" =
      [⟨"Transaction", ⟨0, 11⟩⟩, ⟨"Collection", ⟨11, 21⟩⟩] := by
    decide +kernel
  have back : Word.segment "InsertOne" = [⟨"Insert", ⟨0, 6⟩⟩, ⟨"One", ⟨6, 9⟩⟩] := by
    decide +kernel
  have size : "TransactionCollection".utf8ByteSize = 21 := by decide +kernel
  rw [Word.segment_append closing, Word.segment_append opening, front, back,
    String.utf8ByteSize_append, size, List.append_assoc]
  rfl

/-- A step in a collection writes to the handle that is spelled by the words up
to the next step. -/
theorem exists_of_yields_inCollection
    {step : TransactionStep}
    {steps : List TransactionStep}
    (isCollection : collection.is .collection)
    (starts : Scope.startsStep head)
    (yields : (readSteps scope handles (collection :: (name ++ head :: others))).Yields params
      (step :: steps) rest) :
    ∃ handle ∈ handles, step.resource = .handle handle.param ∧
      handle.spelling = String.join (Word.texts (Scope.stepBody name)) := by
  rw [readSteps_cons] at yields
  split at yields
  · simp at yields
  · rename_i start body after parts
    simp only [Binding.yields_bind, Binding.yields_pure, List.cons.injEq] at yields
    obtain ⟨action, middle, -, found, _, -, ⟨rfl, -⟩, -⟩ := yields
    rcases startStep_eq_ok_iff.mp (cutStep_eq_ok parts).1 with ⟨isStep, -⟩ | ⟨-, inCollection⟩
    · rw [Word.is_iff, Word.is_iff.mp isCollection, Option.some.injEq] at isStep
      exact absurd isStep.symm start.kind.keyword_ne_collection
    · obtain ⟨-, -, -, handle, known, resource_eq⟩ := startInCollection_eq_ok_iff.mp inCollection
      rw [Scope.stepBody_append _ _ starts] at known
      exact ⟨handle, List.mem_of_find?_eq_some known, resource_eq,
        by simpa using List.find?_some known⟩

/-- An insertion into a collection that the words in front of it spell. -/
theorem yields_insertion
    {handle : CollectionHandle}
    {document : Param}
    (isCollection : collection.is .collection)
    (isInsert : head.is .insert)
    (isOne : one.is .one)
    (plain : ∀ word ∈ name, Scope.startsStep word = false)
    (nonempty : name ≠ [])
    (known : handles.find? (·.spelling == String.join (Word.texts name)) = some handle)
    (isPointer : document.type.isPointer) :
    (readSteps scope handles (collection :: (name ++ [head, one]))).Yields (document :: rest)
      [⟨.handle handle.param, .insert ⟨scope.method.name, .one, none, document.name⟩⟩] rest := by
  have starts : Scope.startsStep head :=
    Scope.startsStep_iff.mpr ⟨.insert, Word.is_iff.mp isInsert, .inl rfl⟩
  have body : Scope.stepBody (name ++ [head, one]) = name := by
    rw [Scope.stepBody_append _ _ starts, Scope.stepBody_eq_self_iff.mpr plain]
  have behind : Scope.stepRest (name ++ [head, one]) = [head, one] := by
    have whole := Scope.stepBody_append_stepRest (name ++ [head, one])
    rw [body] at whole
    exact List.append_cancel_left whole
  have found : startStep handles collection (name ++ [head, one]) =
      .ok ⟨.handle handle.param, .insert, head, [one]⟩ := by
    refine startStep_eq_ok_iff.mpr (.inr ⟨isCollection, startInCollection_eq_ok_iff.mpr ?_⟩)
    rw [body]
    exact ⟨behind, isInsert, nonempty, handle, known, rfl⟩
  have parts : cutStep handles collection (name ++ [head, one]) =
      .ok (⟨.handle handle.param, .insert, head, [one]⟩, [one], []) := by
    rw [cutStep, found]
    rfl
  have inserts : (Insert.read scope [one] .nested).Yields (document :: rest)
      ⟨scope.method.name, .one, none, document.name⟩ rest :=
    Insert.yields_readNested_iff.mpr
      ⟨by simp [Scope.nestedMode, isOne], document, rfl, isPointer, rfl, rfl, rfl⟩
  rw [readSteps_cons, parts]
  simp only [Binding.yields_bind, Binding.yields_pure]
  exact ⟨_, rest, Binding.yields_then_pure.mpr ⟨_, rfl, inserts⟩, [], rest, by simp [readSteps],
    rfl, rfl⟩

/-- A handle is written to by its spelling exactly if no word of the spelling
starts a step. -/
theorem exists_yields_insertion_iff
    {handle : CollectionHandle}
    {document : Param}
    (isCollection : collection.is .collection)
    (isInsert : head.is .insert)
    (isOne : one.is .one)
    (isPointer : document.type.isPointer)
    (distinct : (handles.map CollectionHandle.spelling).Nodup)
    (member : handle ∈ handles)
    (told : ∀ other ∈ handles, other.param = handle.param -> other.spelling = handle.spelling)
    (nonempty : handle.spelling ≠ "")
    (spelled : ∀ word ∈ name, word.text ≠ "")
    (joined : String.join (Word.texts name) = handle.spelling) :
    (∃ step, (readSteps scope handles (collection :: (name ++ [head, one]))).Yields [document]
        [step] [] ∧ step.resource = .handle handle.param) ↔
      ∀ word ∈ name, Scope.startsStep word = false := by
  constructor
  · rintro ⟨step, yields, resource_eq⟩
    have starts : Scope.startsStep head :=
      Scope.startsStep_iff.mpr ⟨.insert, Word.is_iff.mp isInsert, .inl rfl⟩
    obtain ⟨found, listed, found_eq, foundSpelled⟩ :=
      exists_of_yields_inCollection isCollection starts yields
    have same := told found listed (Resource.handle.inj (found_eq.symm.trans resource_eq))
    rw [← Scope.stepBody_eq_self_iff]
    apply Scope.stepBody_eq_self_of_join spelled
    rw [← foundSpelled, same, joined]
  · intro plain
    have isNamed : name ≠ [] := by
      rintro rfl
      exact nonempty joined.symm
    have known := CollectionHandle.find?_spelling distinct member
    rw [← joined] at known
    exact ⟨_, yields_insertion isCollection isInsert isOne plain isNamed known isPointer, rfl⟩

/-- A Transaction compiles to the steps that are read behind its collections. -/
theorem exists_compile_eq_ok_iff
    {method : Method}
    {schema : Schema}
    {config : Config}
    {first : Word}
    {run : List Word}
    {context client : Param}
    {row tail : List Param}
    (words : Word.segment method.descriptor = first :: run)
    (named : first.text = OperationKind.transaction.name)
    (params : method.params = context :: client :: (row ++ tail))
    (signed : Signature.transaction method config = .ok ())
    (typed : ∀ param ∈ row, param.type = config.collectionType)
    (ends : EndsCollections ⟨method, schema, config⟩ tail)
    (steps : List TransactionStep) :
    (∃ transaction, method.compile schema config = .ok (.transaction transaction) ∧
        transaction.steps = steps) ↔
      steps ≠ [] ∧
        (readSteps ⟨method, schema, config⟩ (row.map CollectionHandle.ofParam) run).Yields
          tail steps [] := by
  have isFirst : (first :: run).head?.map Word.text = some OperationKind.transaction.name :=
    congrArg some named
  simp only [Method.compile_eq_ok_iff, words, Operation.read_of_first isFirst, params]
  constructor
  · rintro ⟨transaction, ⟨left, yields⟩, rfl⟩
    obtain ⟨found, same, reads⟩ := Binding.yields_then_pure.mp yields
    obtain rfl := Operation.transaction.inj same
    obtain ⟨_, _, foundRow, foundTail, steps, -, params_eq, foundTyped, foundEnds, readsSteps,
      nonempty, -, rfl⟩ := yields_read_iff.mp reads
    simp only [List.cons.injEq] at params_eq
    obtain ⟨rfl, rfl, rest_eq⟩ := params_eq
    -- The row of collections is the longest one, so there is no other.
    have isRow := Binding.yields_takeWhileType.mp
      (yields_takeWhileType_iff.mpr ⟨rfl, typed, ends⟩)
    have isFound := Binding.yields_takeWhileType.mp
      (yields_takeWhileType_iff.mpr ⟨rest_eq, foundTyped, foundEnds⟩)
    obtain rfl := isRow.1.symm.trans isFound.1
    obtain rfl := isRow.2.symm.trans isFound.2
    exact ⟨nonempty, readsSteps⟩
  · rintro ⟨nonempty, readsSteps⟩
    refine ⟨⟨method.name, context.name, client.name, row.map CollectionHandle.ofParam, steps⟩,
      ⟨[], Binding.yields_then_pure.mpr ⟨_, rfl, yields_read_iff.mpr ?_⟩⟩, rfl⟩
    exact ⟨context, client, row, tail, steps, signed, rfl, typed, ends, readsSteps, nonempty, rfl,
      rfl⟩

end Transaction

/-- A collection parameter can be written to by its name exactly if no word of
the name starts a step. -/
theorem Method.compile_into_collection_iff
    (method : Method)
    (schema : Schema)
    (config : Config)
    (context client document param : Param)
    (collections : List Param)
    (params : method.params = context :: client :: (collections ++ [document]))
    (contextTyped : context.type = config.contextType)
    (clientTyped : client.type = config.clientType)
    (typed : ∀ collection ∈ collections, collection.type = config.collectionType)
    (isPointer : document.type.isPointer)
    (ends : document.type ≠ config.collectionType)
    (returns : method.returns = [config.errorType])
    (distinct : ((collections.map CollectionHandle.ofParam).map CollectionHandle.spelling).Nodup)
    (member : param ∈ collections)
    (named : ∃ char ∈ param.name.toList, char.isAlphanum)
    (descriptor : method.descriptor =
      "TransactionCollection" ++ (CollectionHandle.ofParam param).spelling ++ "InsertOne") :
    (∃ transaction step, method.compile schema config = .ok (.transaction transaction) ∧
        transaction.steps = [step] ∧ step.resource = .handle param.name) ↔
      ∀ word ∈ Word.segment (CollectionHandle.ofParam param).spelling,
        word.text ≠ Keyword.collection.text ∧ ∀ kind : OperationKind, word.text ≠ kind.name := by
  have last : "TransactionCollection".toList.getLast? = some 'n' := by decide +kernel
  have words :=
    Transaction.segment_insertion (CollectionHandle.boundary_spelling param last rfl)
  rw [← descriptor] at words
  have signed : Signature.transaction method config = .ok () :=
    Signature.transaction_eq_ok_iff.mpr
      ⟨context, client, _, params, contextTyped, clientTyped, returns⟩
  have endsCollections : Transaction.EndsCollections ⟨method, schema, config⟩ [document] := by
    rintro _ ⟨⟩
    exact ends
  have compiles := Transaction.exists_compile_eq_ok_iff words rfl params signed typed
    endsCollections
  have spelled : ∀ word ∈ (Word.segment (CollectionHandle.ofParam param).spelling).map
      (Word.shift 21), word.text ≠ "" :=
    List.forall_mem_map.mpr fun _ => Word.text_ne_empty_of_mem_segment
  have joined : String.join (Word.texts ((Word.segment
      (CollectionHandle.ofParam param).spelling).map (Word.shift 21))) =
      (CollectionHandle.ofParam param).spelling := by
    rw [Word.texts_map_shift]
    exact Word.join_texts_segment fun _ => CollectionHandle.isAlphanum_of_mem_ofParam
  calc (∃ transaction step, method.compile schema config = .ok (.transaction transaction) ∧
          transaction.steps = [step] ∧ step.resource = .handle param.name)
    _ ↔ ∃ step, (∃ transaction, method.compile schema config = .ok (.transaction transaction) ∧
          transaction.steps = [step]) ∧ step.resource = .handle param.name := by
        constructor
        · rintro ⟨transaction, step, compiled, steps_eq, resource_eq⟩
          exact ⟨step, ⟨transaction, compiled, steps_eq⟩, resource_eq⟩
        · rintro ⟨step, ⟨transaction, compiled, steps_eq⟩, resource_eq⟩
          exact ⟨transaction, step, compiled, steps_eq, resource_eq⟩
    _ ↔ ∀ word ∈ (Word.segment (CollectionHandle.ofParam param).spelling).map (Word.shift 21),
          Scope.startsStep word = false := by
        simp only [compiles, ne_eq, List.cons_ne_nil, not_false_eq_true, true_and]
        exact Transaction.exists_yields_insertion_iff (Word.is_iff_text.mpr rfl)
          (Word.is_iff_text.mpr rfl) (Word.is_iff_text.mpr rfl) isPointer distinct
          (List.mem_map_of_mem member) (fun _ => CollectionHandle.spelling_eq_of_mem)
          (CollectionHandle.spelling_ofParam_ne_empty named) spelled joined
    _ ↔ _ := by
        simp only [List.forall_mem_map, Scope.startsStep_eq_false_iff, Word.text_shift]

/-- A name of several parts, one of them an acronym with a digit, beside a name
that it starts with. -/
theorem Method.compile_into_collection_iff_several_parts :
    let collection : TypeExpr := .pointer (.selector "mongo" "Collection")
    let param : Param := ⟨"audit_HTTP2_log", collection⟩
    let method : Method := {
      name := "Record"
      descriptor := "TransactionCollectionAuditHTTP2LogInsertOne"
      params := [⟨"ctx", .selector "context" "Context"⟩,
        ⟨"client", .pointer (.selector "mongo" "Client")⟩, ⟨"audit", collection⟩, param,
        ⟨"entry", .pointer (.selector "model" "Entry")⟩]
      returns := [.ident "error"] }
    Config.standard.collectionType = collection ∧
      (∀ word ∈ Word.segment (CollectionHandle.ofParam param).spelling,
        word.text ≠ Keyword.collection.text ∧ ∀ kind : OperationKind, word.text ≠ kind.name) ∧
      ∃ transaction step,
        method.compile ⟨"Entry", []⟩ Config.standard = .ok (.transaction transaction) ∧
        transaction.steps = [step] ∧ step.resource = .handle "audit_HTTP2_log" := by
  intro collection param method
  have plain : ∀ word ∈ Word.segment (CollectionHandle.ofParam param).spelling,
      word.text ≠ Keyword.collection.text ∧ ∀ kind : OperationKind, word.text ≠ kind.name := by
    simp only [← Scope.startsStep_eq_false_iff]
    decide +kernel
  refine ⟨rfl, plain, ?_⟩
  exact (method.compile_into_collection_iff ⟨"Entry", []⟩ Config.standard
    ⟨"ctx", .selector "context" "Context"⟩ ⟨"client", .pointer (.selector "mongo" "Client")⟩
    ⟨"entry", .pointer (.selector "model" "Entry")⟩ param [⟨"audit", collection⟩, param]
    rfl rfl rfl (by decide) rfl (by decide) rfl (by decide +kernel) (by decide)
    ⟨'a', by decide +kernel, rfl⟩ (by decide +kernel)).mpr plain

/-- A collection parameter with the name `collection` cannot be written to. -/
theorem Method.compile_into_collection_named_collection :
    let method : Method := {
      name := "Record"
      descriptor := "TransactionCollectionCollectionInsertOne"
      params := [⟨"ctx", .selector "context" "Context"⟩,
        ⟨"client", .pointer (.selector "mongo" "Client")⟩,
        ⟨"collection", .pointer (.selector "mongo" "Collection")⟩,
        ⟨"entry", .pointer (.selector "model" "Entry")⟩]
      returns := [.ident "error"] }
    method.descriptor = "TransactionCollection" ++
        (CollectionHandle.ofParam ⟨"collection", Config.standard.collectionType⟩).spelling ++
        "InsertOne" ∧
      method.compile ⟨"Entry", []⟩ Config.standard =
        .error ⟨"Record", ⟨.collectionWithoutOperation, some ⟨11, 21⟩⟩⟩ := by
  intro method
  refine ⟨by decide +kernel, ?_⟩
  apply CompiledInterface.error?_eq_some_iff.mp
  decide +kernel

end DerivedQuery
