import DerivedQuery.Proofs.OperationReader

/-!
# Reading whole records

The readers of writes, counts and batches, taken apart once. What each of them
asks of the words and the parameters is an equivalence, together with the
entries of the record that come of it.
-/

namespace DerivedQuery

variable {scope : Scope}
variable {params rest : List Param}
variable {run : List Word}
variable {invocation : Invocation}

namespace Scope

/-- A query with nothing in front of it is the whole run. -/
theorem yields_readBareQuery_iff
    {query : Query} :
    (scope.readBareQuery run).Yields params query rest ↔
      splitAtQuery run = .ok ([], run) ∧ (Query.read scope run).Yields params query rest := by
  simp only [readBareQuery, Binding.yields_bind, Binding.yields_ofResult, Prod.exists]
  constructor
  · rintro ⟨front, queryRun, _, ⟨parts, rfl⟩, yields⟩
    split at yields
    · rename_i nothing
      obtain rfl := List.isEmpty_iff.mp nothing
      obtain rfl := append_of_splitAtQuery parts
      exact ⟨parts, yields⟩
    · simp at yields
  · rintro ⟨parts, yields⟩
    exact ⟨[], run, params, ⟨parts, rfl⟩, yields⟩

/-- As the operation of a method a write opens with its context, as a step with
its mode and some word behind it. -/
theorem yields_openWrite_iff
    {operation : Keyword}
    {signature : Except Cause Mode}
    {mode : Mode}
    {context : Option String}
    {body : List Word} :
    (openWrite operation signature run invocation).Yields params (mode, context, body) rest ↔
      (invocation = .standalone ∧ signature = .ok mode ∧ run = body ∧
        ∃ param : Param, context = some param.name ∧ params = param :: rest) ∨
      (invocation = .nested ∧ nestedMode run operation = .ok (mode, body) ∧ body ≠ [] ∧
        context = none ∧ params = rest) := by
  cases invocation with
  | standalone =>
      simp only [openWrite, Binding.yields_bind, Binding.yields_ofCheck,
        Binding.yields_takeContext, Binding.yields_pure, Prod.mk.injEq]
      grind
  | nested =>
      simp only [openWrite, Binding.yields_bind, Binding.yields_ofResult, Prod.exists]
      constructor
      · rintro ⟨_, after, _, ⟨opened, rfl⟩, yields⟩
        split at yields
        · simp at yields
        · rename_i nonempty
          simp only [Binding.yields_pure, Prod.mk.injEq] at yields
          obtain ⟨⟨rfl, rfl, rfl⟩, rfl⟩ := yields
          exact .inr ⟨trivial, opened, by simpa using nonempty, rfl, rfl⟩
      · rintro (⟨⟨⟩, -⟩ | ⟨-, opened, nonempty, rfl, rfl⟩)
        refine ⟨mode, body, params, ⟨opened, rfl⟩, ?_⟩
        rw [if_neg (by simpa using nonempty), Binding.yields_pure]
        exact ⟨rfl, rfl⟩

end Scope

namespace Insert

variable {insert : Insert}

/-- A mode that is written is the word of that mode and nothing else. -/
theorem writtenMode?_eq_ok_iff
    {written? : Option Mode} :
    writtenMode? run = .ok written? ↔
      (run = [] ∧ written? = none) ∨
      ∃ (word : Word) (mode : Mode),
        run = [word] ∧ word.is mode.keyword ∧ written? = some mode := by
  constructor
  · intro found
    unfold writtenMode? at found
    split at found
    · exact .inl ⟨rfl, (Except.ok.inj found).symm⟩
    · rename_i word
      split at found
      · rename_i isOne
        exact .inr ⟨word, .one, rfl, isOne, (Except.ok.inj found).symm⟩
      · split at found
        · rename_i isMany
          exact .inr ⟨word, .many, rfl, isMany, (Except.ok.inj found).symm⟩
        · simp at found
    · simp at found
  · rintro (⟨rfl, rfl⟩ | ⟨word, mode, rfl, spelled, rfl⟩)
    · rfl
    · cases mode with
      | one => simp only [writtenMode?, if_pos (show word.is .one from spelled)]
      | many =>
          have notOne : ¬word.is .one := by
            rw [Word.is_iff, Word.is_iff.mp spelled]
            decide
          simp only [writtenMode?, if_neg notOne, if_pos (show word.is .many from spelled)]

/-- As the operation of a method an Insert binds the context and a document and
nothing else. Its mode comes from the signature; it may be written, too. -/
theorem yields_readStandalone_iff :
    (readStandalone scope run).Yields params insert rest ↔
      ∃ (context document : Param) (type : TypeExpr),
        Signature.insert scope.method scope.config = .ok (insert.mode, type) ∧
        (run = [] ∨ ∃ word : Word, run = [word] ∧ word.is insert.mode.keyword) ∧
        params = [context, document] ∧
        insert.method = scope.method.name ∧
        insert.context = some context.name ∧
        insert.document = document.name ∧
        rest = [] := by
  simp only [readStandalone, Binding.yields_bind, Binding.yields_ofCheck,
    Binding.yields_ofResult, writtenMode?_eq_ok_iff, yields_checkWritten_iff,
    Binding.yields_takeContext, Binding.yields_takeParam, Binding.yields_ensureExhausted,
    Binding.yields_pure, Prod.exists]
  constructor
  · rintro ⟨mode, type, _, ⟨signed, rfl⟩, written?, _, ⟨found, rfl⟩, -, _, ⟨agrees, rfl⟩, name, _,
      ⟨context, rfl, rfl⟩, document, _, rfl, -, _, ⟨rfl, rfl⟩, rfl, rfl⟩
    refine ⟨context, document, type, signed, ?_, rfl, rfl, rfl, rfl, rfl⟩
    rcases found with ⟨rfl, -⟩ | ⟨word, written, rfl, spelled, rfl⟩
    · exact .inl rfl
    · obtain rfl := agrees written rfl
      exact .inr ⟨word, rfl, spelled⟩
  · obtain ⟨method, mode, context?, name⟩ := insert
    rintro ⟨context, document, type, signed, found, rfl, rfl, rfl, rfl, rfl⟩
    have written : ∃ written? : Option Mode,
        ((run = [] ∧ written? = none) ∨ ∃ (word : Word) (mode : Mode),
          run = [word] ∧ word.is mode.keyword ∧ written? = some mode) ∧
        ∀ written, written? = some written -> written = mode := by
      rcases found with rfl | ⟨word, rfl, spelled⟩
      · exact ⟨none, .inl ⟨rfl, rfl⟩, by simp⟩
      · exact ⟨some mode, .inr ⟨word, mode, rfl, spelled, rfl⟩, by simp⟩
    obtain ⟨written?, found, agrees⟩ := written
    exact ⟨mode, type, _, ⟨signed, rfl⟩, written?, _, ⟨found, rfl⟩, (), _, ⟨agrees, rfl⟩, _, _,
      ⟨context, rfl, rfl⟩, document, _, rfl, (), _, ⟨rfl, rfl⟩, rfl, rfl⟩

/-- As a step an Insert consists of its mode and binds a document that fits. -/
theorem yields_readNested_iff :
    (readNested scope run).Yields params insert rest ↔
      Scope.nestedMode run .insert = .ok (insert.mode, []) ∧
      ∃ document : Param,
        params = document :: rest ∧
        fitsMode insert.mode document.type ∧
        insert.method = scope.method.name ∧
        insert.context = none ∧
        insert.document = document.name := by
  simp only [readNested, Binding.yields_bind, Binding.yields_ofResult, Prod.exists]
  constructor
  · rintro ⟨mode, after, _, ⟨opened, rfl⟩, yields⟩
    split at yields
    · rename_i nothing
      obtain rfl := List.isEmpty_iff.mp nothing
      simp only [Binding.yields_bind, Binding.yields_takeParam] at yields
      obtain ⟨document, middle, rfl, yields⟩ := yields
      split at yields
      · rename_i fits
        obtain ⟨rfl, rfl⟩ := Binding.yields_pure.mp yields
        exact ⟨opened, document, rfl, fits, rfl, rfl, rfl⟩
      · simp at yields
    · simp at yields
  · obtain ⟨method, mode, context?, name⟩ := insert
    rintro ⟨opened, document, rfl, fits, rfl, rfl, rfl⟩
    refine ⟨mode, [], _, ⟨opened, rfl⟩, ?_⟩
    simp only [List.isEmpty_nil, if_true, Binding.yields_bind, Binding.yields_takeParam]
    refine ⟨document, rest, rfl, ?_⟩
    rw [if_pos fits, Binding.yields_pure]
    exact ⟨rfl, rfl⟩

end Insert

namespace Payload

theorem yields_bindFields_cons_iff
    {path : FieldPath}
    {paths : List FieldPath}
    {bindings : List FieldBinding} :
    (bindFields run (path :: paths)).Yields params bindings rest ↔
      ∃ (param : Param) (middle : List Param) (others : List FieldBinding),
        params = param :: middle ∧
        param.type = path.type ∧
        (bindFields run paths).Yields middle others rest ∧
        bindings = ⟨path.key, param.name⟩ :: others := by
  simp only [bindFields, Binding.yields_bind, Binding.yields_takeNames, Binding.yields_pure]
  constructor
  · rintro ⟨names, middle, ⟨taken, rfl, count, rfl, typed⟩, others, _, binds, rfl, rfl⟩
    obtain ⟨param, rfl⟩ := List.length_eq_one_iff.mp count
    exact ⟨param, middle, others, rfl, typed param (by simp), binds, rfl⟩
  · rintro ⟨param, middle, others, rfl, typed, binds, rfl⟩
    exact ⟨[param.name], middle, ⟨[param], rfl, rfl, rfl, by simpa using typed⟩, others, rest,
      binds, rfl, rfl⟩

/-- An Update writes the entity the schema names, or the fields it names
itself. -/
theorem yields_read_iff
    {fields : List Word}
    {payload : Payload} :
    (Payload.read scope run fields).Yields params payload rest ↔
      (fields = [] ∧ ∃ (param : Param) (package : String),
        params = param :: rest ∧
        param.type = .pointer (.selector package scope.schema.name) ∧
        payload = .document param.name) ∨
      (fields ≠ [] ∧ ∃ (paths : List FieldPath) (bindings : List FieldBinding),
        FieldPath.resolveAll scope.schema fields = .ok paths ∧
        (bindFields fields paths).Yields params bindings rest ∧
        payload = .fields bindings) := by
  unfold Payload.read
  by_cases nothing : fields = []
  · rw [if_pos (by simpa using nothing)]
    simp only [nothing, readEntity, Binding.yields_bind, Binding.yields_takeParam, true_and,
      ne_eq, not_true_eq_false, false_and, or_false]
    constructor
    · rintro ⟨param, middle, rfl, yields⟩
      split at yields
      · rename_i package name type_eq
        split at yields
        · rename_i same
          obtain ⟨rfl, rfl⟩ := Binding.yields_pure.mp yields
          exact ⟨param, package, rfl, by rw [type_eq, same], rfl⟩
        · simp at yields
      · simp at yields
      · simp at yields
    · rintro ⟨param, package, rfl, type_eq, rfl⟩
      refine ⟨param, rest, rfl, ?_⟩
      simp only [type_eq, if_true, Binding.yields_pure, and_self]
  · rw [if_neg (by simpa using nothing)]
    simp only [nothing, readFields, Binding.yields_bind, Binding.yields_ofResult,
      except_mapError_eq_ok_iff, Binding.yields_pure, false_and, false_or, ne_eq,
      not_false_eq_true, true_and]
    constructor
    · rintro ⟨paths, _, ⟨resolved, rfl⟩, bindings, _, binds, rfl, rfl⟩
      exact ⟨paths, bindings, resolved, binds, rfl⟩
    · rintro ⟨paths, bindings, resolved, binds, rfl⟩
      exact ⟨paths, params, ⟨resolved, rfl⟩, bindings, rest, binds, rfl, rfl⟩

end Payload

namespace Update

/-- The parts of an Update, each from where the one before it stopped. -/
theorem yields_read_iff
    {update : Update} :
    (Update.read scope run invocation).Yields params update rest ↔
      ∃ body front queryRun opened middle,
        (Scope.openWrite .update (Signature.update scope.method scope.config) run
          invocation).Yields params (update.mode, update.context, body) opened ∧
        Scope.splitAtQuery body = .ok (front, queryRun) ∧
        (splitUpsert front).1 = update.upsert ∧
        (Payload.read scope body (splitUpsert front).2).Yields opened update.payload middle ∧
        (Query.read scope queryRun).Yields middle update.query rest ∧
        update.method = scope.method.name ∧
        (invocation = .standalone -> rest = []) := by
  simp only [Update.read, Binding.yields_bind, Binding.yields_ofResult, Binding.yields_pure,
    Scope.yields_closeWrite_iff, Prod.exists]
  constructor
  · rintro ⟨mode, context, body, opened, opens, front, queryRun, _, ⟨parts, rfl⟩, payload, middle,
      readsPayload, query, _, readsQuery, -, _, ⟨rfl, ends⟩, rfl, rfl⟩
    exact ⟨body, front, queryRun, opened, middle, opens, parts, rfl, readsPayload, readsQuery, rfl,
      ends⟩
  · obtain ⟨method, mode, context, upsert, payload, query⟩ := update
    rintro ⟨body, front, queryRun, opened, middle, opens, parts, rfl, readsPayload, readsQuery, rfl,
      ends⟩
    exact ⟨mode, context, body, opened, opens, front, queryRun, opened, ⟨parts, rfl⟩, payload,
      middle, readsPayload, query, rest, readsQuery, (), rest, ⟨rfl, ends⟩, rfl, rfl⟩

end Update

namespace Delete

theorem yields_read_iff
    {delete : Delete} :
    (Delete.read scope run invocation).Yields params delete rest ↔
      ∃ body opened,
        (Scope.openWrite .delete (Signature.delete scope.method scope.config) run
          invocation).Yields params (delete.mode, delete.context, body) opened ∧
        Scope.splitAtQuery body = .ok ([], body) ∧
        (Query.read scope body).Yields opened delete.query rest ∧
        delete.method = scope.method.name ∧
        (invocation = .standalone -> rest = []) := by
  simp only [Delete.read, Binding.yields_bind, Binding.yields_pure, Scope.yields_closeWrite_iff,
    Scope.yields_readBareQuery_iff, Prod.exists]
  constructor
  · rintro ⟨mode, context, body, opened, opens, query, _, ⟨parts, readsQuery⟩, -, _, ⟨rfl, ends⟩,
      rfl, rfl⟩
    exact ⟨body, opened, opens, parts, readsQuery, rfl, ends⟩
  · obtain ⟨method, mode, context, query⟩ := delete
    rintro ⟨body, opened, opens, parts, readsQuery, rfl, ends⟩
    exact ⟨mode, context, body, opened, opens, query, rest, ⟨parts, readsQuery⟩, (), rest,
      ⟨rfl, ends⟩, rfl, rfl⟩

end Delete

namespace Count

theorem yields_read_iff
    {count : Count} :
    (Count.read scope run).Yields params count rest ↔
      ∃ (context : Param) (opened : List Param),
        Signature.count scope.method scope.config = .ok () ∧
        params = context :: opened ∧
        Scope.splitAtQuery run = .ok ([], run) ∧
        (Query.read scope run).Yields opened count.query [] ∧
        count.method = scope.method.name ∧
        count.context = context.name ∧
        rest = [] := by
  simp only [Count.read, Binding.yields_bind, Binding.yields_ofCheck, Binding.yields_takeContext,
    Scope.yields_readBareQuery_iff, Binding.yields_ensureExhausted, Binding.yields_pure]
  constructor
  · rintro ⟨⟨⟩, _, ⟨signed, rfl⟩, name, opened, ⟨context, rfl, rfl⟩, query, _, ⟨parts, readsQuery⟩,
      -, _, ⟨rfl, rfl⟩, rfl, rfl⟩
    exact ⟨context, opened, signed, rfl, parts, readsQuery, rfl, rfl, rfl⟩
  · obtain ⟨method, name, query⟩ := count
    rintro ⟨context, opened, signed, rfl, parts, readsQuery, rfl, rfl, rfl⟩
    exact ⟨(), _, ⟨signed, rfl⟩, _, opened, ⟨context, rfl, rfl⟩, query, [], ⟨parts, readsQuery⟩,
      (), [], ⟨rfl, rfl⟩, rfl, rfl⟩

end Count

namespace Bulk

/-- Only a Bulk that is the operation of a method has a context, the next
parameter. -/
theorem yields_readContext_iff
    {context : Option String} :
    (readContext scope invocation).Yields params context rest ↔
      (invocation = .standalone ∧ Signature.bulk scope.method scope.config = .ok () ∧
        ∃ param : Param, context = some param.name ∧ params = param :: rest) ∨
      (invocation = .nested ∧ context = none ∧ params = rest) := by
  cases invocation with
  | standalone =>
      simp only [readContext, Binding.yields_bind, Binding.yields_ofCheck,
        Binding.yields_takeContext, Binding.yields_pure]
      grind
  | nested => simp [readContext, eq_comm]

theorem yields_read_iff
    {bulk : Bulk} :
    (Bulk.read scope run invocation).Yields params bulk rest ↔
      ∃ opened,
        (readContext scope invocation).Yields params bulk.context opened ∧
        (readSteps scope run).Yields opened bulk.steps rest ∧
        bulk.steps ≠ [] ∧
        bulk.method = scope.method.name ∧
        (invocation = .standalone -> rest = []) := by
  simp only [Bulk.read, Binding.yields_bind]
  constructor
  · rintro ⟨context, opened, readsContext, steps, _, readsSteps, yields⟩
    split at yields
    · simp at yields
    · rename_i nonempty
      simp only [Binding.yields_bind, Scope.yields_closeWrite_iff, Binding.yields_pure] at yields
      obtain ⟨-, _, ⟨rfl, ends⟩, rfl, rfl⟩ := yields
      exact ⟨opened, readsContext, readsSteps, by simpa using nonempty, rfl, ends⟩
  · obtain ⟨method, context, steps⟩ := bulk
    rintro ⟨opened, readsContext, readsSteps, nonempty, rfl, ends⟩
    refine ⟨context, opened, readsContext, steps, rest, readsSteps, ?_⟩
    rw [if_neg (by simpa using nonempty)]
    simp only [Binding.yields_bind, Scope.yields_closeWrite_iff, Binding.yields_pure]
    exact ⟨(), rest, ⟨rfl, ends⟩, trivial, rfl⟩

end Bulk

namespace Transaction

/-- Parameters that are no collections in front. -/
def EndsCollections
    (scope : Scope)
    (tail : List Param) : Prop :=
  ∀ param, tail.head? = some param -> param.type ≠ scope.config.collectionType

/-- The row of collections ends where the next parameter is of another type. -/
theorem yields_takeWhileType_iff
    {row tail : List Param} :
    (Binding.takeWhileType scope.config.collectionType).Yields params row tail ↔
      params = row ++ tail ∧ (∀ param ∈ row, param.type = scope.config.collectionType) ∧
        EndsCollections scope tail := by
  rw [Binding.yields_takeWhileType]
  constructor
  · rintro ⟨rfl, rfl⟩
    refine ⟨List.takeWhile_append_dropWhile.symm, ?_, ?_⟩
    · intro param member
      have typed := List.all_eq_true.mp List.all_takeWhile param member
      exact beq_iff_eq.mp typed
    · intro param isNext
      have stops := List.head?_dropWhile_not (·.type == scope.config.collectionType) params
      rw [isNext] at stops
      simpa using stops
  · rintro ⟨rfl, typed, ends⟩
    have row_typed : ∀ param ∈ row, (param.type == scope.config.collectionType) = true := by
      simpa using typed
    rw [List.takeWhile_append_of_pos row_typed, List.dropWhile_append_of_pos row_typed]
    cases tail with
    | nil => simp
    | cons param others => simp [ends param rfl]

/-- A Transaction that is read has a signature of its kind, binds the context,
the client and the longest row of collections, and leaves nothing behind its
steps. -/
theorem yields_read_iff
    {transaction : Transaction} :
    (Transaction.read scope run).Yields params transaction rest ↔
      ∃ (context client : Param) (row tail : List Param) (steps : List TransactionStep),
        Signature.transaction scope.method scope.config = .ok () ∧
        params = context :: client :: (row ++ tail) ∧
        (∀ param ∈ row, param.type = scope.config.collectionType) ∧
        EndsCollections scope tail ∧
        (readSteps scope (row.map CollectionHandle.ofParam) run).Yields tail steps [] ∧
        steps ≠ [] ∧ rest = [] ∧
        transaction = ⟨scope.method.name, context.name, client.name,
          row.map CollectionHandle.ofParam, steps⟩ := by
  simp only [Transaction.read, Binding.yields_bind, Binding.yields_ofCheck,
    Binding.yields_takeContext, Binding.yields_takeParam, yields_takeWhileType_iff]
  constructor
  · rintro ⟨⟨⟩, _, ⟨signed, rfl⟩, _, _, ⟨context, rfl, rfl⟩, client, _, rfl, row, tail,
      ⟨rfl, typed, ends⟩, steps, _, readsSteps, yields⟩
    split at yields
    · simp at yields
    · rename_i nonempty
      simp only [Binding.yields_bind, Binding.yields_ensureExhausted, Binding.yields_pure] at yields
      obtain ⟨-, _, ⟨rfl, rfl⟩, rfl, rfl⟩ := yields
      exact ⟨context, client, row, tail, steps, signed, rfl, typed, ends, readsSteps,
        by simpa using nonempty, rfl, rfl⟩
  · rintro ⟨context, client, row, tail, steps, signed, rfl, typed, ends, readsSteps, nonempty, rfl,
      rfl⟩
    refine ⟨(), _, ⟨signed, rfl⟩, _, _, ⟨context, rfl, rfl⟩, client, _, rfl, row, tail,
      ⟨rfl, typed, ends⟩, steps, [], readsSteps, ?_⟩
    rw [if_neg (by simpa using nonempty)]
    rw [Binding.yields_bind]
    exact ⟨(), [], Binding.yields_ensureExhausted.mpr ⟨rfl, rfl⟩,
      Binding.yields_pure.mpr ⟨rfl, rfl⟩⟩

end Transaction

end DerivedQuery
