import DerivedQuery.Proofs.Locality
import DerivedQuery.Proofs.RecordReader
import DerivedQuery.Proofs.Rendering.Search
import DerivedQuery.Proofs.Signature

/-!
# Searches and counts with one query

A Count hands all of its words to the reader of queries. A Find first cuts them
into clauses, so it reads the same query from the same words exactly if none of
them but the first starts a clause. A field whose name contains such a word can be
counted by but not searched by.
-/

namespace DerivedQuery

variable {scope : Scope}
variable {params rest : List Param}
variable {first : Word}
variable {others : List Word}

namespace Scope

/-- The same scope for a method with other results. -/
def withReturns
    (scope : Scope)
    (returns : List TypeExpr) : Scope :=
  { scope with method := { scope.method with returns := returns } }

theorem startsQuery_iff_text :
    startsQuery first ↔
      first.text = Keyword.byQuery.text ∨ first.text = Keyword.allQuery.text := by
  simp only [startsQuery, Bool.or_eq_true, Word.is_iff_text]

end Scope

theorem Query.read_withReturns
    (scope : Scope)
    (returns : List TypeExpr) :
    Query.read (scope.withReturns returns) = Query.read scope :=
  Query.read_congr rfl rfl

/-- A method that may count may also search, with other results. -/
theorem Signature.find_withReturns
    (signed : Signature.count scope.method scope.config = .ok ())
    (element : TypeExpr) :
    Signature.find (scope.withReturns [.slice element, scope.config.errorType]).method
      scope.config = .ok (.many, .slice element) := by
  have opens : OpensWithContext scope.method scope.config := opensWithContext_of_standard signed
  exact find_eq_ok_iff.mpr ⟨opens, rfl, .inr ⟨rfl, rfl⟩⟩

namespace Find

/-- The keywords that start a clause. -/
def clauseKeywords : List Keyword :=
  [.order, .skip, .limit, .byQuery, .allQuery]

theorem startsClause_iff
    {word : Word} :
    startsClause word ↔ ∃ keyword ∈ clauseKeywords, word.keyword? = some keyword := by
  unfold startsClause
  cases word.keyword? with
  | none => simp
  | some keyword => cases keyword <;> simp [clauseKeywords]

theorem startsClause_eq_false_iff
    {word : Word} :
    startsClause word = false ↔ ∀ keyword ∈ clauseKeywords, word.text ≠ keyword.text := by
  rw [← Bool.not_eq_true, startsClause_iff]
  simp only [← Word.is_iff, Word.is_iff_text, not_exists, not_and, ne_eq]

theorem keyword?_of_startsQuery
    (starts : Scope.startsQuery first) :
    first.keyword? = some .byQuery ∨ first.keyword? = some .allQuery := by
  simpa [Scope.startsQuery, Word.is_iff] using starts

theorem startsClause_of_startsQuery
    (starts : Scope.startsQuery first) :
    startsClause first := by
  rcases keyword?_of_startsQuery starts with isBy | isAll
  · simp [startsClause, isBy]
  · simp [startsClause, isAll]

/-- A run that starts with its query has it as the first clause. -/
theorem ofRun_of_startsQuery
    (starts : Scope.startsQuery first) :
    Clause.ofRun ((first :: others).dropWhile (!startsClause ·)) =
      ⟨first, others.takeWhile (!startsClause ·)⟩ ::
        Clause.ofRun (others.dropWhile (!startsClause ·)) := by
  have isClause := startsClause_of_startsQuery starts
  rw [List.dropWhile_cons_of_neg (by simp [isClause]), Clause.ofRun]

/-- A clause that starts with `By` or `All` settles the query. -/
theorem yields_readSetting_query_iff
    {mode : Mode}
    {clause : Clause}
    {setting : Setting}
    (starts : Scope.startsQuery clause.head) :
    (readSetting scope mode clause).Yields params setting rest ↔
      ∃ query, .query query = setting ∧ (Query.read scope clause.run).Yields params query rest := by
  rw [yields_readSetting_iff]
  rcases keyword?_of_startsQuery starts with isBy | isAll
  · simp [isBy]
  · simp [isAll]

/-- Words of which only the first starts a clause are read as a query. -/
theorem yields_read_of_plain
    {mode : Mode}
    {type : TypeExpr}
    {query : Query}
    {context : Param}
    (starts : Scope.startsQuery first)
    (plain : ∀ word ∈ others, startsClause word = false)
    (signed : Signature.find scope.method scope.config = .ok (mode, type))
    (reads : (Query.read scope (first :: others)).Yields params query []) :
    (Find.read scope (first :: others)).Yields (context :: params)
      ⟨scope.method.name, mode, context.name, type, [], [], none, none, query⟩ [] := by
  have isClause := startsClause_of_startsQuery starts
  have single : Clause.ofRun ((first :: others).dropWhile (!startsClause ·)) =
      [⟨first, others⟩] := by
    rw [ofRun_of_startsQuery starts, List.takeWhile_eq_self_iff.mpr (by simpa using plain),
      List.dropWhile_eq_nil_iff.mpr (by simpa using plain), Clause.ofRun]
  have noProjection : readProjection scope.schema ((first :: others).takeWhile (!startsClause ·)) =
      .ok [] := by
    rw [List.takeWhile_cons_of_neg (by simp [isClause])]
    rfl
  have readsClause : (readClause scope mode {} ⟨first, others⟩).Yields params
      { query := some query } [] :=
    yields_readClause_iff.mpr
      ⟨.query query, (yields_readSetting_query_iff starts).mpr ⟨query, rfl, reads⟩, rfl, rfl⟩
  refine yields_read_iff.mpr ⟨context, params, { query := some query }, signed, rfl,
    ⟨first, List.mem_cons_self, starts⟩, noProjection, ?_, rfl, rfl, rfl, rfl, rfl, rfl, rfl⟩
  rw [single]
  exact Binding.yields_bind.mpr ⟨_, _, readsClause, Binding.yields_pure.mpr ⟨rfl, rfl⟩⟩

/-- A search that starts with its query and has no other clause settles nothing
else. -/
theorem plain_of_yields_read
    {find : Find}
    (starts : Scope.startsQuery first)
    (yields : (Find.read scope (first :: others)).Yields params find rest)
    (noSort : find.sort = [])
    (noSkip : find.skip = none)
    (noLimit : find.limit = none) :
    ∀ word ∈ others, startsClause word = false := by
  obtain ⟨context, opened, last, -, -, -, -, reads, -, -, -, sort_eq, skip_eq, limit_eq, -⟩ :=
    yields_read_iff.mp yields
  rw [ofRun_of_startsQuery starts] at reads
  cases further : others.dropWhile (!startsClause ·) with
  | nil => simpa using List.dropWhile_eq_nil_iff.mp further
  | cons head tail =>
      rw [further, Clause.ofRun] at reads
      obtain ⟨next, middle, readsQuery, reads⟩ := Binding.yields_bind.mp reads
      obtain ⟨after, left, readsSecond, readsOthers⟩ := Binding.yields_bind.mp reads
      obtain ⟨setting, readsSetting, -, rfl⟩ := yields_readClause_iff.mp readsQuery
      obtain ⟨query, rfl, -⟩ := (yields_readSetting_query_iff starts).mp readsSetting
      obtain ⟨second, readsSecondSetting, free, rfl⟩ := yields_readClause_iff.mp readsSecond
      -- Whatever the second clause settles is found in the record.
      have kept : last.get? second.entry = some second :=
        get?_of_yields_readClauses readsOthers (by rw [Clauses.get?_put, if_pos rfl])
      cases second with
      | order fields =>
          obtain ⟨_, isSort, ⟨⟩⟩ := Option.map_eq_some_iff.mp kept
          rw [isSort, Option.getD_some, noSort] at sort_eq
          obtain ⟨-, nonempty, _, ⟨⟩, sorts, -⟩ | ⟨-, _, ⟨⟩, -⟩ | ⟨-, -, _, ⟨⟩, -⟩ |
            ⟨-, -, -, _, ⟨⟩, -⟩ := yields_readSetting_iff.mp readsSecondSetting
          exact absurd sort_eq.symm ((writtenRow_of_readSort sorts).items_ne_nil nonempty)
      | skip param =>
          obtain ⟨_, isSkip, -⟩ := Option.map_eq_some_iff.mp kept
          rw [isSkip, noSkip] at skip_eq
          cases skip_eq
      | limit param =>
          obtain ⟨_, isLimit, -⟩ := Option.map_eq_some_iff.mp kept
          rw [isLimit, noLimit] at limit_eq
          cases limit_eq
      | query other => cases free

end Find

/-- A search reads the query of a count from the same words, and nothing else,
exactly if no word behind the first one starts a clause. -/
theorem Find.read_query_of_count_iff
    (scope : Scope)
    (params rest : List Param)
    (first : Word)
    (others : List Word)
    (count : Count)
    (element : TypeExpr)
    (starts : first.text = Keyword.byQuery.text ∨ first.text = Keyword.allQuery.text)
    (counts : (Count.read scope (first :: others)).start params = (.ok count, rest)) :
    (∃ find, (Find.read (scope.withReturns [.slice element, scope.config.errorType])
          (first :: others)).start params = (.ok find, rest) ∧
        find.query = count.query ∧ find.projection = [] ∧ find.sort = [] ∧
        find.skip = none ∧ find.limit = none) ↔
      ∀ word ∈ others, ∀ keyword ∈ clauseKeywords, word.text ≠ keyword.text := by
  have isQuery := Scope.startsQuery_iff_text.mpr starts
  simp only [← startsClause_eq_false_iff]
  constructor
  · rintro ⟨find, yields, -, -, noSort, noSkip, noLimit⟩
    exact plain_of_yields_read isQuery yields noSort noSkip noLimit
  · intro plain
    obtain ⟨context, opened, signed, rfl, -, reads, -, -, rfl⟩ := Count.yields_read_iff.mp counts
    have signedFind := Signature.find_withReturns signed element
    rw [← Query.read_withReturns scope [.slice element, scope.config.errorType]] at reads
    exact ⟨_, yields_read_of_plain isQuery plain signedFind reads, rfl, rfl, rfl, rfl, rfl⟩

/-- A field of three words behind the first, none of which starts a clause. -/
theorem Find.read_query_of_count_iff_three_words :
    let scope : Scope := {
      method := {
        name := "ByBirthCityName"
        descriptor := ""
        params := [⟨"ctx", .selector "context" "Context"⟩, ⟨"city", .ident "string"⟩]
        returns := [.ident "int", .ident "error"] }
      schema := ⟨"User", [⟨"BirthCityName", "city", .ident "string", none⟩]⟩
      config := Config.standard }
    let first : Word := ⟨"By", ⟨5, 7⟩⟩
    let others : List Word := [⟨"Birth", ⟨7, 12⟩⟩, ⟨"City", ⟨12, 16⟩⟩, ⟨"Name", ⟨16, 20⟩⟩,
      ⟨"Equal", ⟨20, 25⟩⟩]
    let query : Query := .matching (.leaf ⟨.equal, "city", ["city"]⟩)
    (Count.read scope (first :: others)).start scope.method.params =
        (.ok ⟨"ByBirthCityName", "ctx", query⟩, []) ∧
      ∃ find, (Find.read (scope.withReturns [.slice (.ident "User"), .ident "error"])
          (first :: others)).start scope.method.params = (.ok find, []) ∧
        find.query = query ∧ find.projection = [] ∧ find.sort = [] ∧
        find.skip = none ∧ find.limit = none := by
  intro scope first others query
  have counts : (Count.read scope (first :: others)).start scope.method.params =
      (.ok ⟨"ByBirthCityName", "ctx", query⟩, []) := by
    apply toOption_pair_eq_iff.mp
    decide +kernel
  refine ⟨counts, ?_⟩
  exact (Find.read_query_of_count_iff scope scope.method.params [] first others _ (.ident "User")
    (.inl rfl) counts).mpr (by decide +kernel)

/-- A field whose name contains a clause keyword can be counted by, but a search
by it is cut in the middle of the name. -/
theorem Find.compile_of_clause_keyword_in_name :
    let schema : Schema := ⟨"Item", [⟨"OrderID", "order_id", .ident "string", none⟩]⟩
    let params : List Param :=
      [⟨"ctx", .selector "context" "Context"⟩, ⟨"id", .ident "string"⟩]
    let count : Method :=
      ⟨"CountByOrderID", "CountByOrderIDEqual", params, [.ident "int", .ident "error"]⟩
    let find : Method :=
      ⟨"FindByOrderID", "FindByOrderIDEqual", params, [.slice (.ident "Item"), .ident "error"]⟩
    count.compile schema Config.standard =
        .ok (.count ⟨"CountByOrderID", "ctx", .matching (.leaf ⟨.equal, "order_id", ["id"]⟩)⟩) ∧
      find.compile schema Config.standard =
        .error ⟨"FindByOrderID", ⟨.emptyQuery, some ⟨4, 6⟩⟩⟩ := by
  intro schema params count find
  constructor
  · apply except_toOption_eq_some_iff.mp
    decide +kernel
  · apply CompiledInterface.error?_eq_some_iff.mp
    decide +kernel

end DerivedQuery
