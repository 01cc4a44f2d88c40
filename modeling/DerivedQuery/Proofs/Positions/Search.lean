import DerivedQuery.Proofs.Positions.Write
import Mathlib.Data.List.TakeWhile

/-!
# Reading searches by position

The clauses of a Find, and the parts of an `Order` clause between two `Desc`,
are cut out from where the last one ended. The parts in front of a `Desc` are
not empty, so they have a last path.
-/

namespace DerivedQuery
namespace Positions

open Checked

/-- Read the words behind `Count`. -/
def count (scope : Scope) (run : List Word) : Checked Count := do
  lift (Binding.ofCheck (Signature.count scope.method scope.config))
  let context ← lift Binding.takeContext
  let matched ← bareQuery scope run
  lift Binding.ensureExhausted
  return ⟨scope.method.name, context, matched⟩

theorem count_eq
    (scope : Scope)
    (run : List Word) :
    count scope run = lift (Count.read scope run) := by
  refine bind_eq_lift rfl fun _ _ => ?_
  refine bind_eq_lift rfl fun context _ => ?_
  refine bind_eq_lift (bareQuery_eq scope run) fun matched _ => ?_
  exact then_pure_eq_lift rfl _

/-! ## Clauses -/

/-- The clauses from position `start` on, where no clause starts between
`start` and `index`. -/
def clausesFrom (words : List Word) (start index : Nat) : List Word -> Option (List (List Word))
  | [] =>
      if start < words.length then do
        let clause ← slice? words start words.length
        return [clause]
      else
        some []
  | word :: rest =>
      if Find.startsClause word then do
        let clause ← slice? words start index
        let others ← clausesFrom words index (index + 1) rest
        return clause :: others
      else
        clausesFrom words start (index + 1) rest

/-- Cut a run whose first word starts a clause into its clauses. -/
def clauses (words : List Word) : Option (List (List Word)) :=
  clausesFrom words 0 1 (words.drop 1)

/-- The first clause goes up to the next word that starts one. -/
theorem ofRun_append
    {body rest : List Word}
    (head : Word)
    (passed : ∀ word ∈ body, !Find.startsClause word) :
    Find.Clause.ofRun (head :: (body ++ rest)) =
      ⟨head, body ++ rest.takeWhile (!Find.startsClause ·)⟩ ::
        Find.Clause.ofRun (rest.dropWhile (!Find.startsClause ·)) := by
  rw [Find.Clause.ofRun, List.takeWhile_append_of_pos passed, List.dropWhile_append_of_pos passed]

theorem clausesFrom_eq
    {words front body rest : List Word}
    {head : Word}
    {start index : Nat}
    (words_eq : words = front ++ ((head :: body) ++ rest))
    (start_eq : start = front.length)
    (index_eq : index = front.length + (head :: body).length)
    (passed : ∀ word ∈ body, !Find.startsClause word) :
    clausesFrom words start index rest =
      some ((Find.Clause.ofRun (head :: (body ++ rest))).map Find.Clause.run) := by
  induction rest generalizing front head body start index with
  | nil =>
      have clause_eq : slice? words start words.length = some (head :: body) :=
        slice?_append words_eq start_eq (by simp [words_eq])
      rw [clausesFrom, if_pos (by simp [start_eq, words_eq]), clause_eq,
        ofRun_append head passed]
      simp [Find.Clause.ofRun, Find.Clause.run]
  | cons word rest hypothesis =>
      rw [clausesFrom]
      split
      · rename_i starts
        have clause_eq : slice? words start index = some (head :: body) :=
          slice?_append words_eq start_eq index_eq
        have others_eq : clausesFrom words index (index + 1) rest =
            some ((Find.Clause.ofRun (word :: ([] ++ rest))).map Find.Clause.run) :=
          hypothesis (show words = (front ++ (head :: body)) ++ ([word] ++ rest) by simp [words_eq])
            (by simp [index_eq]) (by simp [index_eq]) (by simp)
        rw [clause_eq, others_eq, ofRun_append head passed,
          List.takeWhile_cons_of_neg (by simp [starts]),
          List.dropWhile_cons_of_neg (by simp [starts]), List.append_nil]
        rfl
      · rename_i continues
        have next : clausesFrom words start (index + 1) rest =
            some ((Find.Clause.ofRun (head :: ((body ++ [word]) ++ rest))).map
              Find.Clause.run) :=
          hypothesis
            (show words = front ++ ((head :: (body ++ [word])) ++ rest) by simp [words_eq])
            start_eq (by simp [index_eq]; omega)
            (List.forall_mem_append.mpr
              ⟨passed, List.forall_mem_singleton.mpr (by simpa using continues)⟩)
        rwa [List.append_assoc, List.singleton_append] at next

theorem clauses_eq (words : List Word) :
    clauses words = some ((Find.Clause.ofRun words).map Find.Clause.run) := by
  cases words with
  | nil => simp [clauses, clausesFrom, Find.Clause.ofRun]
  | cons head rest =>
      exact clausesFrom_eq (show head :: rest = [] ++ ([head] ++ rest) from rfl) rfl rfl (by simp)

/-! ## Sort fields -/

/-- Mark the path at a position as descending and the others as ascending. -/
def descendingAt (last : Nat) (paths : List FieldPath) : List SortField :=
  paths.mapIdx fun index path =>
    ⟨path.key, if index = last then .descending else .ascending⟩

/-- The sort fields from position `start` on, where no `Desc` stands between
`start` and `index`. -/
def sortFrom (schema : Schema) (words : List Word) (start index : Nat) :
    List Word -> Option (Except Fault (List SortField))
  | [] =>
      if start < words.length then do
        let segment ← slice? words start words.length
        match ← resolveAll schema segment with
        | .error error => return .error error.fault
        | .ok paths => return .ok (paths.map fun path => ⟨path.key, .ascending⟩)
      else
        some (.ok [])
  | word :: rest =>
      if word.is .desc then do
        let segment ← slice? words start index
        if segment.isEmpty then
          let desc ← slice? words index (index + 1)
          return .error (Fault.on .descWithoutField desc)
        else
          match ← resolveAll schema segment with
          | .error error => return .error error.fault
          | .ok paths =>
              let last ← minus? paths.length 1
              let others ← sortFrom schema words (index + 1) (index + 1) rest
              return others.map (descendingAt last paths ++ ·)
      else
        sortFrom schema words start (index + 1) rest

theorem descendingAt_eq (paths : List FieldPath) :
    descendingAt (paths.length - 1) paths = Find.lastDescending paths := by
  induction paths with
  | nil => rfl
  | cons path rest hypothesis =>
      cases rest with
      | nil => rfl
      | cons second others =>
          rw [Find.lastDescending, ← hypothesis]
          · simp [descendingAt, List.mapIdx_cons]
          · exact List.cons_ne_nil second others

theorem ne_nil_of_resolveAll
    {schema : Schema}
    {run : List Word}
    {paths : List FieldPath}
    (resolved : FieldPath.resolveAll schema run = .ok paths)
    (nonempty : run ≠ []) :
    paths ≠ [] := by
  have covers := FieldPath.covers_of_resolveAll resolved
  rintro rfl
  cases covers
  exact nonempty rfl

/-- Without another `Desc`, all words that are left name ascending fields. -/
theorem sortFrom_nil_eq
    {schema : Schema}
    {words front segment : List Word}
    {start : Nat}
    (words_eq : words = front ++ segment)
    (start_eq : start = front.length)
    (index : Nat)
    (passed : ∀ word ∈ segment, !word.is .desc) :
    sortFrom schema words start index [] = some (Find.readSort schema segment) := by
  have all_eq : segment.takeWhile (!Word.is · .desc) = segment :=
    List.takeWhile_eq_self_iff.mpr passed
  have none_eq : segment.dropWhile (!Word.is · .desc) = [] :=
    List.dropWhile_eq_nil_iff.mpr passed
  rw [sortFrom, Find.readSort_eq, all_eq, none_eq]
  cases segment with
  | nil =>
      rw [if_neg (by simp [start_eq, words_eq])]
      rfl
  | cons first others =>
      have segment_eq : slice? words start words.length = some (first :: others) := by
        rw [slice?_from (by simp [start_eq, words_eq]), start_eq, words_eq, List.drop_left]
      rw [if_pos (by simp [start_eq, words_eq]), segment_eq]
      simp only [Option.bind_eq_bind, Option.bind_some, resolveAll_eq]
      cases FieldPath.resolveAll schema (first :: others) <;> rfl

/-- The loop over positions reads the sort fields up to the next `Desc`, and
goes on behind it. -/
theorem sortFrom_eq
    {schema : Schema}
    {words front segment rest : List Word}
    {start index : Nat}
    (words_eq : words = front ++ (segment ++ rest))
    (start_eq : start = front.length)
    (index_eq : index = front.length + segment.length)
    (passed : ∀ word ∈ segment, !word.is .desc) :
    sortFrom schema words start index rest = some (Find.readSort schema (segment ++ rest)) := by
  induction rest generalizing front segment start index with
  | nil =>
      rw [List.append_nil] at words_eq ⊢
      exact sortFrom_nil_eq words_eq start_eq index passed
  | cons word rest hypothesis =>
      rw [sortFrom]
      split
      · rename_i isDesc
        have segment_eq : slice? words start index = some segment :=
          slice?_append words_eq start_eq index_eq
        rw [segment_eq, Find.readSort_eq, List.takeWhile_append_of_pos passed,
          List.dropWhile_append_of_pos passed, List.takeWhile_cons_of_neg (by simp [isDesc]),
          List.dropWhile_cons_of_neg (by simp [isDesc]), List.append_nil]
        cases segment with
        | nil =>
            have desc_eq : slice? words index (index + 1) = some [word] :=
              slice?_append (show words = front ++ ([word] ++ rest) from words_eq) index_eq
                (by simp [index_eq])
            simp only [Option.bind_eq_bind, Option.bind_some, desc_eq]
            rfl
        | cons first others =>
            have others_eq : sortFrom schema words (index + 1) (index + 1) rest =
                some (Find.readSort schema ([] ++ rest)) :=
              hypothesis
                (show words = (front ++ (first :: others) ++ [word]) ++ ([] ++ rest) by
                  simp [words_eq])
                (by simp [index_eq]; omega) (by simp [index_eq]; omega) (by simp)
            simp only [Option.bind_eq_bind, Option.bind_some, resolveAll_eq, List.isEmpty_cons,
              Bool.false_eq_true, if_false, others_eq]
            cases resolved : FieldPath.resolveAll schema (first :: others) with
            | error error => rfl
            | ok paths =>
                have nonempty := ne_nil_of_resolveAll resolved (List.cons_ne_nil first others)
                have last_eq : minus? paths.length 1 = some (paths.length - 1) :=
                  minus?_of_le (List.length_pos_iff.mpr nonempty)
                simp only [last_eq, Option.bind_some, descendingAt_eq]
                rfl
      · rename_i continues
        have next : sortFrom schema words start (index + 1) rest =
            some (Find.readSort schema ((segment ++ [word]) ++ rest)) :=
          hypothesis (by simp [words_eq]) start_eq (by simp [index_eq]; omega)
            (List.forall_mem_append.mpr
              ⟨passed, List.forall_mem_singleton.mpr (by simpa using continues)⟩)
        rwa [List.append_assoc, List.singleton_append] at next

/-- Read the sort fields of an `Order` clause. -/
def sort (schema : Schema) (words : List Word) : Option (Except Fault (List SortField)) :=
  sortFrom schema words 0 0 words

theorem sort_eq
    (schema : Schema)
    (words : List Word) :
    sort schema words = some (Find.readSort schema words) :=
  sortFrom_eq (show words = [] ++ ([] ++ words) from rfl) rfl rfl (by simp)

/-! ## Finds -/

/-- The storage keys of the fields in front of the first clause. -/
def projection (schema : Schema) (run : List Word) : Option (Except Fault (List String)) :=
  if run.findIdx Find.startsClause = 0 then
    some (.ok [])
  else do
    let fields ← slice? run 0 (run.findIdx Find.startsClause)
    match ← resolveAll schema fields with
    | .error error => return .error error.fault
    | .ok paths => return .ok (paths.map FieldPath.key)

theorem projection_eq
    (schema : Schema)
    (run : List Word) :
    projection schema run =
      some (Find.readProjection schema (run.takeWhile (!Find.startsClause ·))) := by
  rw [projection, Find.readProjection, takeWhile_eq_take_findIdx]
  by_cases atStart : run.findIdx Find.startsClause = 0
  · rw [if_pos atStart, atStart]
    rfl
  · have within : run.findIdx Find.startsClause ≤ run.length := List.findIdx_le_length
    have nonempty : ¬ (run.take (run.findIdx Find.startsClause)).isEmpty := by
      rw [List.isEmpty_iff, ← List.length_eq_zero_iff, List.length_take]
      omega
    rw [if_neg atStart, if_neg nonempty, slice?_upTo within]
    simp only [Option.bind_eq_bind, Option.bind_some, resolveAll_eq]
    cases FieldPath.resolveAll schema (run.take (run.findIdx Find.startsClause)) <;> rfl

/-- Bind the parameter of a `Skip` or `Limit` clause. -/
def paging (scope : Scope) (option : Keyword) (clause : List Word) : Checked String :=
  if 1 < clause.length then do
    let rest ← lookUp (slice? clause 1 clause.length)
    lift (throw (Scope.unexpected rest ("after " ++ option.text)))
  else do
    let param ← lift (Binding.takeParam clause)
    if param.type = scope.config.pagingType then
      return param.name
    else
      lift (Binding.refuse
        (.pagingType option scope.config.pagingType param.name param.type) clause)

theorem paging_eq
    (scope : Scope)
    (option : Keyword)
    (clause : Find.Clause) :
    paging scope option clause.run = lift (Find.readPaging scope option clause) := by
  obtain ⟨head, body⟩ := clause
  rw [paging, Find.readPaging, Find.Clause.run]
  cases body with
  | nil =>
      refine bind_eq_lift rfl fun param _ => ?_
      split <;> rfl
  | cons word others =>
      have rest_eq : slice? (head :: word :: others) 1 (head :: word :: others).length =
          some (word :: others) :=
        slice?_from (by simp)
      rw [if_pos (by simp), rest_eq]
      rfl

/-- Read one more clause. -/
def settleClause (scope : Scope) (mode : Mode) (settled : Find.Clauses) (clause : List Word) :
    Checked Find.Clauses :=
  match clause with
  | [] => pure settled
  | head :: body =>
      match head.keyword? with
      | some .order =>
          if settled.sort.isSome then
            lift (Binding.refuse (.repeatedClause "Order") clause)
          else if body.isEmpty then
            lift (Binding.refuse .emptyOrder clause)
          else do
            let sorted ← lookUp (sort scope.schema body)
            let sort ← lift (Binding.ofResult sorted)
            return { settled with sort := some sort }
      | some .skip =>
          if settled.skip.isSome then
            lift (Binding.refuse (.repeatedClause "Skip") clause)
          else do
            let param ← paging scope .skip clause
            return { settled with skip := some param }
      | some .limit =>
          if mode = .one then
            lift (Binding.refuse .limitInOneMode clause)
          else if settled.limit.isSome then
            lift (Binding.refuse (.repeatedClause "Limit") clause)
          else do
            let param ← paging scope .limit clause
            return { settled with limit := some param }
      | _ =>
          if settled.query.isSome then
            lift (Binding.refuse (.repeatedClause "By or All") clause)
          else do
            let matched ← query scope clause
            return { settled with query := some matched }

theorem settleClause_eq
    (scope : Scope)
    (mode : Mode)
    (settled : Find.Clauses)
    (clause : Find.Clause) :
    settleClause scope mode settled clause.run =
      lift (Find.readClause scope mode settled clause) := by
  obtain ⟨head, body⟩ := clause
  have settlesQuery :
      (if settled.query.isSome then
          lift (Binding.refuse (.repeatedClause "By or All") (head :: body))
        else
          query scope (head :: body) >>= fun matched =>
            pure { settled with query := some matched }) =
        lift (if settled.query.isSome then
          Binding.refuse (.repeatedClause "By or All") (head :: body)
        else
          Query.read scope (head :: body) >>= fun matched =>
            pure { settled with query := some matched }) := by
    split
    · rfl
    · exact then_pure_eq_lift (query_eq scope (head :: body)) _
  simp only [settleClause, Find.readClause, Find.Clause.run]
  cases head.keyword? with
  | none => exact settlesQuery
  | some keyword =>
      cases keyword with
      | order =>
          dsimp only
          split
          · rfl
          · split
            · rfl
            · rw [sort_eq, lookUp_some_bind]
              exact then_pure_eq_lift rfl _
      | skip =>
          dsimp only
          split
          · rfl
          · exact then_pure_eq_lift (paging_eq scope .skip ⟨head, body⟩) _
      | limit =>
          dsimp only
          split
          · rfl
          · split
            · rfl
            · exact then_pure_eq_lift (paging_eq scope .limit ⟨head, body⟩) _
      | _ => exact settlesQuery

/-- Read clauses from left to right. -/
def settle (scope : Scope) (mode : Mode) :
    Find.Clauses -> List (List Word) -> Checked Find.Clauses
  | settled, [] => pure settled
  | settled, clause :: rest => do
      let next ← settleClause scope mode settled clause
      settle scope mode next rest

theorem settle_eq
    (scope : Scope)
    (mode : Mode)
    (settled : Find.Clauses)
    (row : List Find.Clause) :
    settle scope mode settled (row.map Find.Clause.run) =
      lift (Find.readClauses scope mode settled row) := by
  induction row generalizing settled with
  | nil => rfl
  | cons clause rest hypothesis =>
      exact bind_eq_lift (settleClause_eq scope mode settled clause) fun next _ => hypothesis next

/-- The mode of a Find, told by the shape of its first result. -/
def findMode (result : TypeExpr) : Except Cause Mode :=
  if result.isPointer then .ok .one else if result.isSlice then .ok .many else .error .resultShape

theorem findMode_eq (method : Method) (config : Config) :
    behindStandard method config 1 findMode =
      some ((Signature.find method config).map Prod.fst) := by
  rw [behindStandard_eq, Signature.find]
  cases Signature.standard method config 1 with
  | error cause => rfl
  | ok result =>
      simp only [except_ok_bind, findMode]
      split
      · rfl
      · split <;> rfl

/-- Read the words behind `Find`. -/
def find (scope : Scope) (run : List Word) : Checked Find := do
  let checked ← lookUp (behindStandard scope.method scope.config 1 findMode)
  let mode ← lift (Binding.ofCheck checked)
  let context ← lift Binding.takeContext
  let _ ← lift (Binding.ofResult (Scope.splitAtQuery run))
  let projected ← lookUp (projection scope.schema run)
  let projection ← lift (Binding.ofResult projected)
  let behind ← lookUp (slice? run (run.findIdx Find.startsClause) run.length)
  let row ← lookUp (clauses behind)
  let settled ← settle scope mode {} row
  match settled.query with
  | none => lift (throw (Fault.overall .missingQuery))
  | some query => do
      lift Binding.ensureExhausted
      let returnType ← lookUp scope.method.returns[0]?
      return {
        method := scope.method.name
        mode := mode
        context := context
        returnType := returnType
        projection := projection
        sort := settled.sort.getD []
        skip := settled.skip
        limit := settled.limit
        query := query
      }

theorem find_eq
    (scope : Scope)
    (run : List Word) :
    find scope run = lift (Find.read scope run) := by
  rw [find, findMode_eq, lookUp_some_bind, Find.read]
  cases checked : Signature.find scope.method scope.config with
  | error cause => rfl
  | ok parts =>
      obtain ⟨mode, type⟩ := parts
      obtain ⟨-, returns, -⟩ := Signature.find_eq_ok_iff.mp checked
      simp only [Except.map, Binding.ofCheck, lift_pure, pure_bind, projection_eq,
        slice?_from List.findIdx_le_length, clauses_eq, lookUp_some_bind, returns,
        ← dropWhile_eq_drop_findIdx]
      refine bind_eq_lift rfl fun context _ => ?_
      refine bind_eq_lift rfl fun _ _ => ?_
      refine bind_eq_lift rfl fun projection _ => ?_
      refine bind_eq_lift (settle_eq scope mode {} _) fun settled _ => ?_
      cases settled.query with
      | none => rfl
      | some query => exact then_pure_eq_lift rfl _

end Positions
end DerivedQuery
