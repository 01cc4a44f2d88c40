import Mathlib.Data.List.TakeWhile
import DerivedQuery.Proofs.OperationReader

/-!
# Reading the clauses of a search

Each clause of a Find settles one entry of its record, from the clause alone
and as long as the entry is free. A Find is read as its projection and what its
clauses have settled.
-/

namespace DerivedQuery

variable {scope : Scope}
variable {mode : Mode}
variable {params rest : List Param}

namespace Find

/-! ## Entries -/

/-- What a clause settles. -/
inductive Setting
  | order (fields : List SortField)
  | skip (param : String)
  | limit (param : String)
  | query (query : Query)
  deriving DecidableEq, Repr

/-- The entries that clauses settle. -/
inductive Entry
  | sort
  | skip
  | limit
  | query
  deriving DecidableEq, Repr

/-- The entry a setting is for. -/
def Setting.entry : Setting -> Entry
  | .order _ => .sort
  | .skip _ => .skip
  | .limit _ => .limit
  | .query _ => .query

namespace Clauses

/-- The setting of an entry, if it is settled. -/
def get? (settled : Clauses) : Entry -> Option Setting
  | .sort => settled.sort.map .order
  | .skip => settled.skip.map .skip
  | .limit => settled.limit.map .limit
  | .query => settled.query.map .query

/-- Settle an entry. -/
def put (settled : Clauses) : Setting -> Clauses
  | .order fields => { settled with sort := some fields }
  | .skip param => { settled with skip := some param }
  | .limit param => { settled with limit := some param }
  | .query query => { settled with query := some query }

theorem get?_put
    (settled : Clauses)
    (setting : Setting)
    (entry : Entry) :
    (settled.put setting).get? entry =
      if entry = setting.entry then some setting else settled.get? entry := by
  cases setting <;> cases entry <;> rfl

theorem ext_get?
    {first second : Clauses}
    (same : ∀ entry, first.get? entry = second.get? entry) :
    first = second := by
  have sort := same .sort
  have skip := same .skip
  have limit := same .limit
  have query := same .query
  simp only [get?, Option.map_inj_right, Setting.order.injEq, Setting.skip.injEq,
    Setting.limit.injEq, Setting.query.injEq, imp_self, implies_true] at sort skip limit query
  cases first
  cases second
  simp_all

/-- Different entries can be settled in either order. -/
theorem put_comm
    (settled : Clauses)
    {first second : Setting}
    (distinct : first.entry ≠ second.entry) :
    (settled.put first).put second = (settled.put second).put first := by
  apply ext_get?
  intro entry
  simp only [get?_put]
  grind

end Clauses

/-! ## What a clause settles -/

/-- A `Skip` or `Limit` stands alone and takes one parameter of the paging
type. -/
theorem yields_readPaging_iff
    {option : Keyword}
    {clause : Clause}
    {name : String} :
    (readPaging scope option clause).Yields params name rest ↔
      clause.body = [] ∧ ∃ param : Param,
        params = param :: rest ∧ param.type = scope.config.pagingType ∧ name = param.name := by
  unfold readPaging
  by_cases nothing : clause.body = []
  · rw [if_pos (by simpa using nothing)]
    simp only [nothing, Binding.yields_bind, Binding.yields_takeParam, true_and]
    constructor
    · rintro ⟨param, middle, rfl, yields⟩
      split at yields
      · rename_i typed
        obtain ⟨rfl, rfl⟩ := Binding.yields_pure.mp yields
        exact ⟨param, rfl, typed, rfl⟩
      · simp at yields
    · rintro ⟨param, rfl, typed, rfl⟩
      refine ⟨param, rest, rfl, ?_⟩
      rw [if_pos typed, Binding.yields_pure]
      exact ⟨rfl, rfl⟩
  · rw [if_neg (by simpa using nothing)]
    simp [nothing]

/-- What a clause settles, read from the clause alone. -/
def readSetting (scope : Scope) (mode : Mode) (clause : Clause) : Binding Setting :=
  match clause.head.keyword? with
  | some .order =>
      if clause.body.isEmpty then
        Binding.refuse .emptyOrder clause.run
      else do
        let sort ← Binding.ofResult (readSort scope.schema clause.body)
        return .order sort
  | some .skip => do
      let param ← readPaging scope .skip clause
      return .skip param
  | some .limit =>
      if mode = .one then
        Binding.refuse .limitInOneMode clause.run
      else do
        let param ← readPaging scope .limit clause
        return .limit param
  | _ => do
      let query ← Query.read scope clause.run
      return .query query

/-- The first word of a clause tells what it settles. -/
theorem yields_readSetting_iff
    {clause : Clause}
    {setting : Setting} :
    (readSetting scope mode clause).Yields params setting rest ↔
      (clause.head.keyword? = some .order ∧ clause.body ≠ [] ∧ ∃ fields,
        .order fields = setting ∧ readSort scope.schema clause.body = .ok fields ∧
          params = rest) ∨
      (clause.head.keyword? = some .skip ∧ ∃ param,
        .skip param = setting ∧ (readPaging scope .skip clause).Yields params param rest) ∨
      (clause.head.keyword? = some .limit ∧ mode ≠ .one ∧ ∃ param,
        .limit param = setting ∧ (readPaging scope .limit clause).Yields params param rest) ∨
      (clause.head.keyword? ≠ some .order ∧ clause.head.keyword? ≠ some .skip ∧
        clause.head.keyword? ≠ some .limit ∧ ∃ query,
        .query query = setting ∧ (Query.read scope clause.run).Yields params query rest) := by
  unfold readSetting
  split
  · rename_i isOrder
    by_cases nothing : clause.body = []
    · simp [isOrder, nothing]
    · rw [if_neg (by simpa using nothing), Binding.yields_then_pure]
      simp [isOrder, nothing]
  · rename_i isSkip
    rw [Binding.yields_then_pure]
    simp [isSkip]
  · rename_i isLimit
    by_cases isOne : mode = .one
    · simp [isLimit, isOne]
    · rw [if_neg isOne, Binding.yields_then_pure]
      simp [isLimit, isOne]
  · rename_i notOrder notSkip notLimit
    rw [Binding.yields_then_pure]
    simp only [eq_false notOrder, eq_false notSkip, eq_false notLimit, ne_eq, not_false_eq_true,
      false_and, false_or, true_and]

/-- A reader behind the check that an entry is free. -/
theorem yields_settling_iff
    {α : Type}
    {settled next : Clauses}
    {isSettled : Bool}
    (settings : α -> Setting)
    (free : ∀ value, settled.get? (settings value).entry = none ↔ isSettled = false)
    (reader : Binding α)
    (cause : Cause)
    (run : List Word) :
    (if isSettled then
        Binding.refuse cause run
      else do
        let value ← reader
        return settled.put (settings value)).Yields params next rest ↔
      ∃ setting, (do let value ← reader; return settings value).Yields params setting rest ∧
        settled.get? setting.entry = none ∧ settled.put setting = next := by
  simp only [Binding.yields_then_pure]
  cases isSettled with
  | true =>
      simp only [if_true, Binding.yields_refuse, false_iff]
      rintro ⟨_, ⟨value, rfl, -⟩, unsettled, -⟩
      exact absurd ((free value).mp unsettled) (by simp)
  | false =>
      simp only [Bool.false_eq_true, if_false, Binding.yields_then_pure]
      constructor
      · rintro ⟨value, rfl, reads⟩
        exact ⟨settings value, ⟨value, rfl, reads⟩, (free value).mpr rfl, rfl⟩
      · rintro ⟨_, ⟨value, rfl, reads⟩, -, rfl⟩
        exact ⟨value, rfl, reads⟩

/-- A clause settles its entry whatever the other entries are, as long as its
own is free. -/
theorem yields_readClause_iff
    {settled next : Clauses}
    {clause : Clause} :
    (readClause scope mode settled clause).Yields params next rest ↔
      ∃ setting, (readSetting scope mode clause).Yields params setting rest ∧
        settled.get? setting.entry = none ∧ settled.put setting = next := by
  unfold readClause
  split
  · rename_i isOrder
    simp only [readSetting, isOrder]
    by_cases nothing : clause.body.isEmpty
    · simp only [if_pos nothing]
      split <;> simp
    · simp only [if_neg nothing]
      refine yields_settling_iff .order ?_ _ _ _
      simp [Setting.entry, Clauses.get?]
  · rename_i isSkip
    simp only [readSetting, isSkip]
    refine yields_settling_iff .skip ?_ _ _ _
    simp [Setting.entry, Clauses.get?]
  · rename_i isLimit
    simp only [readSetting, isLimit]
    by_cases isOne : mode = .one
    · simp [isOne]
    · simp only [if_neg isOne]
      refine yields_settling_iff .limit ?_ _ _ _
      simp [Setting.entry, Clauses.get?]
  · rename_i notOrder notSkip notLimit
    have alone : readSetting scope mode clause = do
        let query ← Query.read scope clause.run
        return .query query := by
      unfold readSetting
      split
      · exact absurd ‹_› notOrder
      · exact absurd ‹_› notSkip
      · exact absurd ‹_› notLimit
      · rfl
    rw [alone]
    refine yields_settling_iff .query ?_ _ _ _
    simp [Setting.entry, Clauses.get?]

/-- What is settled stays settled. -/
theorem get?_of_yields_readClauses
    {settled last : Clauses}
    {clauses : List Clause}
    {entry : Entry}
    {setting : Setting}
    (yields : (readClauses scope mode settled clauses).Yields params last rest)
    (isSettled : settled.get? entry = some setting) :
    last.get? entry = some setting := by
  induction clauses generalizing settled params with
  | nil =>
      obtain ⟨rfl, -⟩ := Binding.yields_pure.mp yields
      exact isSettled
  | cons clause clauses hypothesis =>
      obtain ⟨next, middle, readsClause, readsClauses⟩ := Binding.yields_bind.mp yields
      obtain ⟨other, -, free, rfl⟩ := yields_readClause_iff.mp readsClause
      apply hypothesis readsClauses
      have distinct : entry ≠ other.entry := by
        rintro rfl
        rw [isSettled] at free
        cases free
      rw [Clauses.get?_put, if_neg distinct, isSettled]

end Find

/-! ## Whole searches -/

/-- A run divides at its query just if it has one. -/
theorem Scope.exists_splitAtQuery_iff {run : List Word} :
    (∃ parts, splitAtQuery run = .ok parts) ↔ ∃ word ∈ run, startsQuery word := by
  have nothing : run.dropWhile (!startsQuery ·) = [] ↔ ¬∃ word ∈ run, startsQuery word := by
    simp [List.dropWhile_eq_nil_iff]
  unfold splitAtQuery
  split
  · rename_i none_left
    simpa using nothing.mp none_left
  · rename_i some_left
    simpa [nothing] using some_left

namespace Find

/-- What is asked of the words and parameters of a Find, and what comes of them. -/
theorem yields_read_iff
    {run : List Word}
    {find : Find} :
    (Find.read scope run).Yields params find rest ↔
      ∃ context others settled,
        Signature.find scope.method scope.config = .ok (find.mode, find.returnType) ∧
        params = context :: others ∧
        (∃ word ∈ run, Scope.startsQuery word) ∧
        readProjection scope.schema (run.takeWhile (!startsClause ·)) = .ok find.projection ∧
        (readClauses scope find.mode {}
          (Clause.ofRun (run.dropWhile (!startsClause ·)))).Yields others settled [] ∧
        settled.query = some find.query ∧
        find.method = scope.method.name ∧
        find.context = context.name ∧
        find.sort = settled.sort.getD [] ∧
        find.skip = settled.skip ∧
        find.limit = settled.limit ∧
        rest = [] := by
  simp only [Find.read, Binding.yields_bind, Binding.yields_ofCheck, Binding.yields_ofResult,
    Binding.yields_takeContext, Prod.exists]
  constructor
  · rintro ⟨mode, returnType, _, ⟨signed, rfl⟩, name, others, ⟨context, rfl, rfl⟩, front, behind, _,
      ⟨split, rfl⟩, projection, _, ⟨projects, rfl⟩, settled, _, reads, finishes⟩
    cases settles : settled.query with
    | none => simp [settles] at finishes
    | some query =>
        simp only [settles, Binding.yields_bind, Binding.yields_ensureExhausted,
          Binding.yields_pure] at finishes
        obtain ⟨⟨⟩, _, ⟨rfl, rfl⟩, rfl, rfl⟩ := finishes
        exact ⟨context, others, settled, signed, rfl,
          Scope.exists_splitAtQuery_iff.mp ⟨_, split⟩, projects, reads, settles, rfl, rfl, rfl, rfl,
          rfl, rfl⟩
  · rintro ⟨context, others, settled, signed, rfl, queried, projects, reads, settles, method,
      named, sort, skip, limit, rfl⟩
    obtain ⟨⟨front, behind⟩, split⟩ := Scope.exists_splitAtQuery_iff.mpr queried
    refine ⟨find.mode, find.returnType, _, ⟨signed, rfl⟩, _, others, ⟨context, rfl, rfl⟩, front,
      behind, _, ⟨split, rfl⟩, find.projection, _, ⟨projects, rfl⟩, settled, [], reads, ?_⟩
    simp only [settles, Binding.yields_bind, Binding.yields_ensureExhausted, Binding.yields_pure]
    refine ⟨(), [], ⟨trivial, rfl⟩, ?_, rfl⟩
    rw [← method, ← named, ← sort, ← skip, ← limit]

end Find

end DerivedQuery
