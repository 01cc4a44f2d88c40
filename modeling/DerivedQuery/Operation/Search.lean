import DerivedQuery.Operation.Write

/-!
# Reading searches

Grammar of the words behind `Count` and `Find`:

* `Count (By ... | All)`
* `Find [projection] clauses`

The clauses of a Find are `Order` with sort fields, `Skip`, `Limit` and the
query. They may come in any order, each at most once, and bind parameters in
the order in which they are written.
-/

namespace DerivedQuery

namespace Count

/-- Read the words behind `Count`. -/
def read (scope : Scope) (run : List Word) : Binding Count := do
  Binding.ofCheck (Signature.count scope.method scope.config)
  let context ← Binding.takeContext
  let query ← Scope.readBareQuery scope run
  Binding.ensureExhausted
  return ⟨scope.method.name, context, query⟩

end Count

namespace Find

/-- Whether a word starts a clause. -/
def startsClause (word : Word) : Bool :=
  match word.keyword? with
  | some .order | some .skip | some .limit | some .byQuery | some .allQuery => true
  | _ => false

/-- A clause: the word that starts it and the words up to the next clause. -/
structure Clause where
  head : Word
  body : List Word
  deriving DecidableEq, Repr

namespace Clause

/-- All words of a clause. -/
def run (clause : Clause) : List Word :=
  clause.head :: clause.body

/-- Cut a run whose first word starts a clause into its clauses. -/
def ofRun : List Word -> List Clause
  | [] => []
  | head :: rest =>
      ⟨head, rest.takeWhile (!startsClause ·)⟩ :: ofRun (rest.dropWhile (!startsClause ·))
termination_by run => run.length
decreasing_by
  have shorter := (rest.dropWhile_suffix (!startsClause ·)).length_le
  simp only [List.length_cons]
  omega

end Clause

/-- Mark the last of a row of paths as descending and the others as ascending. -/
def lastDescending : List FieldPath -> List SortField
  | [] => []
  | [path] => [⟨path.key, .descending⟩]
  | path :: rest => ⟨path.key, .ascending⟩ :: lastDescending rest

/-- Read the sort fields of an `Order` clause. Each `Desc` marks the path just
in front of it as descending. -/
def readSort (schema : Schema) (run : List Word) : Except Fault (List SortField) :=
  let segment := run.takeWhile (!·.is .desc)
  match _rest : run.dropWhile (!·.is .desc) with
  | [] =>
      if segment.isEmpty then
        .ok []
      else
        match FieldPath.resolveAll schema segment with
        | .error error => .error error.fault
        | .ok paths => .ok (paths.map fun path => ⟨path.key, .ascending⟩)
  | desc :: after =>
      if segment.isEmpty then
        .error (Fault.on .descWithoutField [desc])
      else
        match FieldPath.resolveAll schema segment with
        | .error error => .error error.fault
        | .ok paths => (readSort schema after).map (lastDescending paths ++ ·)
termination_by run.length
decreasing_by
  have shorter := (run.dropWhile_suffix (!·.is .desc)).length_le
  rw [_rest] at shorter
  simp only [List.length_cons] at shorter
  omega

/-- Bind the parameter of a `Skip` or `Limit` clause. -/
def readPaging (scope : Scope) (option : Keyword) (clause : Clause) : Binding String := do
  if clause.body.isEmpty then
    let param ← Binding.takeParam clause.run
    if param.type = scope.config.pagingType then
      return param.name
    else
      Binding.refuse
        (.pagingType option scope.config.pagingType param.name param.type) clause.run
  else
    throw (Scope.unexpected clause.body ("after " ++ option.text))

/-- What the clauses read so far have settled. -/
structure Clauses where
  sort : Option (List SortField) := none
  skip : Option String := none
  limit : Option String := none
  query : Option Query := none

/-- Read one more clause. -/
def readClause
    (scope : Scope)
    (mode : Mode)
    (settled : Clauses)
    (clause : Clause) :
    Binding Clauses :=
  match clause.head.keyword? with
  | some .order =>
      if settled.sort.isSome then
        Binding.refuse (.repeatedClause "Order") clause.run
      else if clause.body.isEmpty then
        Binding.refuse .emptyOrder clause.run
      else do
        let sort ← Binding.ofResult (readSort scope.schema clause.body)
        return { settled with sort := some sort }
  | some .skip =>
      if settled.skip.isSome then
        Binding.refuse (.repeatedClause "Skip") clause.run
      else do
        let param ← readPaging scope .skip clause
        return { settled with skip := some param }
  | some .limit =>
      if mode = .one then
        Binding.refuse .limitInOneMode clause.run
      else if settled.limit.isSome then
        Binding.refuse (.repeatedClause "Limit") clause.run
      else do
        let param ← readPaging scope .limit clause
        return { settled with limit := some param }
  | _ =>
      if settled.query.isSome then
        Binding.refuse (.repeatedClause "By or All") clause.run
      else do
        let query ← Query.read scope clause.run
        return { settled with query := some query }

/-- Read clauses from left to right. -/
def readClauses (scope : Scope) (mode : Mode) : Clauses -> List Clause -> Binding Clauses
  | settled, [] => pure settled
  | settled, clause :: rest => do
      let next ← readClause scope mode settled clause
      readClauses scope mode next rest

/-- The storage keys of the projected fields. -/
def readProjection (schema : Schema) (run : List Word) : Except Fault (List String) :=
  if run.isEmpty then
    .ok []
  else
    match FieldPath.resolveAll schema run with
    | .error error => .error error.fault
    | .ok paths => .ok (paths.map FieldPath.key)

/-- Read the words behind `Find`. -/
def read (scope : Scope) (run : List Word) : Binding Find := do
  let (mode, returnType) ← Binding.ofCheck (Signature.find scope.method scope.config)
  let context ← Binding.takeContext
  let _ ← Binding.ofResult (Scope.splitAtQuery run)
  let projection ← Binding.ofResult
    (readProjection scope.schema (run.takeWhile (!startsClause ·)))
  let settled ← readClauses scope mode {} (Clause.ofRun (run.dropWhile (!startsClause ·)))
  match settled.query with
  | none => throw (Fault.overall .missingQuery)
  | some query => do
      Binding.ensureExhausted
      return {
        method := scope.method.name
        mode := mode
        context := context
        returnType := returnType
        projection := projection
        sort := settled.sort.getD []
        skip := settled.skip
        limit := settled.limit
        query := query
      }

end Find

end DerivedQuery
