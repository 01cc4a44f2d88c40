import DerivedQuery.Proofs.BracketBalance
import DerivedQuery.Proofs.QueryGrammar.Nested
import DerivedQuery.Word.Segmentation

/-!
# Mismatched brackets of queries

The brackets behind `By` are checked before anything is divided or bound. Under
the nested strategy a balanced run falls into balanced runs at every level, and
conditions are refused in other words, so a query is refused for its brackets
exactly if they are not balanced.
-/

namespace DerivedQuery

/-! ## Dividing balanced runs -/

namespace Brackets

theorem Balanced.unwrap
    {run : List Word}
    (balanced : Balanced run) :
    Balanced (unwrap run) := by
  fun_induction Brackets.unwrap run with
  | case1 run inside wrapped hypothesis =>
      obtain ⟨opening, closing, -, -, -, insideBalanced⟩ := inside?_eq_some_iff.mp wrapped
      exact hypothesis insideBalanced
  | case2 run notWrapped => exact balanced

theorem Balanced.of_append_cons
    {front back : List Word}
    {word : Word}
    (balanced : Balanced (front ++ word :: back))
    (frontBalanced : Balanced front)
    (other : word.isBracket = false) :
    Balanced back := by
  rwa [Balanced, depthBehind_append, frontBalanced, Option.bind_some,
    depthBehind_other other] at balanced

end Brackets

namespace Split

open Brackets

/-- The search fails only where a bracket is closed that was not opened. -/
theorem depthBehind_eq_none_of_findConnective
    {limit depth : Nat}
    {run : List Word}
    {error : SplitError}
    (search : findConnective limit depth run = .error error) :
    depthBehind depth run = none := by
  have passed {word : Word} {result : Except SplitError (Option Found)}
      (fails : behind word result = .error error) : result = .error error := by
    cases result with
    | error other => exact fails
    | ok found? => cases fails
  induction run generalizing depth with
  | nil => cases search
  | cons word rest hypothesis =>
      rcases word.bracket_cases with opens | closes | other
      · rw [findConnective_opens opens] at search
        rw [depthBehind_opens opens]
        exact hypothesis (passed search)
      · cases depth with
        | zero => exact depthBehind_closes_zero closes rest
        | succ depth =>
            rw [findConnective_closes_succ closes] at search
            rw [depthBehind_closes_succ closes]
            exact hypothesis (passed search)
      · rw [depthBehind_other other]
        by_cases goesOn : word.connective?.isSome -> limit < depth
        · rw [findConnective_passed other goesOn] at search
          exact hypothesis (passed search)
        · obtain ⟨stands, shallow⟩ := Classical.not_imp.mp goesOn
          obtain ⟨connective, stands⟩ := Option.isSome_iff_exists.mp stands
          rw [findConnective_connective stands (Nat.not_lt.mp shallow)] at search
          cases search

theorem nested_ne_unbalanced
    {run : List Word}
    (balanced : Brackets.Balanced run)
    (span : Span) :
    nested run ≠ .error (.unbalanced span) := by
  intro fails
  simp only [nested] at fails
  split at fails
  · rename_i search
    have inner := balanced.unwrap
    rw [Brackets.Balanced, depthBehind_eq_none_of_findConnective search] at inner
    cases inner
  · cases fails
  · split at fails <;> cases fails

/-- Both parts of a balanced run are balanced. -/
theorem balanced_of_nested_eq_divided
    {run left right : List Word}
    {connective : Connective}
    (balanced : Brackets.Balanced run)
    (divided : nested run = .ok (.divided connective left right)) :
    Brackets.Balanced left ∧ Brackets.Balanced right := by
  simp only [nested] at divided
  split at divided
  · cases divided
  · cases divided
  · rename_i found search
    obtain ⟨word, run_eq, stands, -, level, shallow, -⟩ := foundIn_of_findConnective search
    have inner := balanced.unwrap
    rw [run_eq] at inner
    split at divided
    · cases divided
    · simp only [Except.ok.injEq, Split.divided.injEq] at divided
      obtain ⟨-, rfl, rfl⟩ := divided
      rw [Nat.le_zero.mp shallow] at level
      exact ⟨level, inner.of_append_cons level (Word.not_bracket_of_connective stands)⟩

end Split

namespace SplitStrategy

/-- The runs that a run is taken apart into, at every level. -/
inductive Part (strategy : SplitStrategy) (run : List Word) : List Word -> Prop
  | whole : Part strategy run run
  | left
      {inner left right : List Word}
      {connective : Connective}
      (part : Part strategy run inner)
      (divided : strategy.split inner = .ok (.divided connective left right)) :
      Part strategy run left
  | right
      {inner left right : List Word}
      {connective : Connective}
      (part : Part strategy run inner)
      (divided : strategy.split inner = .ok (.divided connective left right)) :
      Part strategy run right

theorem Part.balanced
    {run inner : List Word}
    (balanced : Brackets.Balanced run)
    (part : Part .nested run inner) :
    Brackets.Balanced inner := by
  induction part with
  | whole => exact balanced
  | left part divided hypothesis => exact (Split.balanced_of_nested_eq_divided hypothesis divided).1
  | right part divided hypothesis =>
      exact (Split.balanced_of_nested_eq_divided hypothesis divided).2

end SplitStrategy

/-! ## What readers blame -/

namespace Cause

/-- Why the conditions of a query are refused, apart from mismatched brackets. -/
inductive OfConditions : Cause -> Prop
  | dangling : OfConditions .danglingConnective
  | short (run : List String) : OfConditions (.shortCondition run)
  | noComparator (run : List String) : OfConditions (.missingComparator run)
  | noField (run : List String) (comparator : Comparator) :
      OfConditions (.missingField run comparator)
  | noWords : OfConditions .noFieldWords
  | unknown (run : List String) : OfConditions (.unknownField run)
  | several (run : List String) : OfConditions (.severalFields run)
  | fewParams : OfConditions .missingParams
  | mistyped (actual : TypeExpr) (param : String) (required : TypeExpr) :
      OfConditions (.fieldType actual param required)

theorem any_head?_append
    {front : String}
    {property : Char -> Bool}
    (holds : front.toList.head?.any property)
    (back : String) :
    (front ++ back).toList.head?.any property := by
  rw [String.toList_append, List.head?_append]
  cases begins : front.toList.head? with
  | none => simp [begins] at holds
  | some char => rwa [begins] at holds

/-- Mismatched brackets have a message of their own. -/
theorem OfConditions.message_ne
    {cause : Cause}
    (ofConditions : OfConditions cause) :
    cause.message ≠ Cause.unbalancedBrackets.message := by
  -- The messages already differ in their first letter.
  have begins : cause.message.toList.head?.any (· ≠ 'm') := by
    cases ofConditions <;> unfold message <;>
      (repeat with_reducible apply any_head?_append) <;> simp
  intro same
  rw [same] at begins
  unfold message at begins
  simp at begins

end Cause

namespace Binding

variable {α β : Type}

/-- A reader fails for certain causes only. -/
def Blames (binding : Binding α) (causes : Cause -> Prop) : Prop :=
  ∀ params fault, (binding.start params).1 = .error fault -> causes fault.cause

variable {causes : Cause -> Prop}

theorem blames_pure (value : α) : Blames (pure value) causes := by
  intro params fault fails
  cases fails

theorem blames_throw
    {fault : Fault}
    (allowed : causes fault.cause) :
    Blames (throw fault : Binding α) causes := by
  intro params other fails
  obtain rfl := Except.error.inj fails
  exact allowed

theorem Blames.bind
    {binding : Binding α}
    {next : α -> Binding β}
    (blames : binding.Blames causes)
    (further : ∀ value, (next value).Blames causes) :
    (binding >>= next).Blames causes := by
  intro params fault fails
  have first := blames params
  rw [start_bind] at fails
  generalize binding.start params = outcome at first fails
  rcases outcome with ⟨other | value, middle⟩
  · obtain rfl := Except.error.inj fails
    exact first other rfl
  · exact further value middle fault fails

theorem Blames.then_pure
    {binding : Binding α}
    (blames : binding.Blames causes)
    (image : α -> β) :
    (binding >>= fun value => pure (image value)).Blames causes :=
  blames.bind fun _ => blames_pure _

theorem cause_of_namesOfType_error
    {required : TypeExpr}
    {run : List Word}
    {taken : List Param}
    {fault : Fault}
    (fails : namesOfType required run taken = .error fault) :
    ∃ param ∈ taken, fault.cause = .fieldType param.type param.name required := by
  induction taken with
  | nil => cases fails
  | cons param others hypothesis =>
      unfold namesOfType at fails
      split at fails
      · cases rest : namesOfType required run others with
        | ok names =>
            rw [rest] at fails
            cases fails
        | error other =>
            rw [rest] at fails
            obtain ⟨later, member, cause_eq⟩ := hypothesis (rest.trans fails)
            exact ⟨later, List.mem_cons_of_mem param member, cause_eq⟩
      · obtain rfl := Except.error.inj fails
        exact ⟨param, List.mem_cons_self, rfl⟩

theorem blames_takeNames
    (required : TypeExpr)
    (count : Nat)
    (run : List Word) :
    (takeNames required count run).Blames Cause.OfConditions := by
  intro params fault fails
  rw [start_takeNames] at fails
  split at fails
  · obtain ⟨param, -, cause_eq⟩ := cause_of_namesOfType_error fails
    rw [cause_eq]
    exact .mistyped _ _ _
  · obtain rfl := Except.error.inj fails
    exact .fewParams

end Binding

theorem ResolveError.ofConditions_fault (error : ResolveError) :
    error.fault.cause.OfConditions := by
  cases error with
  | empty => exact .noWords
  | noMatch run span => exact .unknown run
  | notSingle run span => exact .several run

theorem Condition.blames_read
    (scope : Scope)
    (run : List Word) :
    (Condition.read scope run).Blames Cause.OfConditions := by
  unfold Condition.read
  split
  · exact Binding.blames_throw (.short _)
  · split
    · exact Binding.blames_throw (.noComparator _)
    · dsimp only
      split
      · exact Binding.blames_throw (.noField _ _)
      · refine Binding.Blames.bind ?_ fun path => (Binding.blames_takeNames _ _ _).then_pure _
        cases FieldPath.resolve scope.schema _ with
        | ok path => exact Binding.blames_pure path
        | error error => exact Binding.blames_throw error.ofConditions_fault

/-- The conditions of a balanced run are not refused for their brackets. -/
theorem QueryExpr.blames_read
    {run : List Word}
    (scope : Scope)
    (balanced : Brackets.Balanced run) :
    (QueryExpr.read scope (Outline.ofRun .nested run)).Blames Cause.OfConditions := by
  fun_induction Outline.ofRun .nested run with
  | case1 run error divided =>
      cases error with
      | unbalanced span => exact absurd divided (Split.nested_ne_unbalanced balanced span)
      | dangling span => exact Binding.blames_throw .dangling
  | case2 run inner divided => exact (Condition.blames_read scope inner).then_pure _
  | case3 run connective left right divided leftHypothesis rightHypothesis =>
      obtain ⟨leftBalanced, rightBalanced⟩ := Split.balanced_of_nested_eq_divided balanced divided
      apply (leftHypothesis leftBalanced).bind
      intro leftExpr
      exact (rightHypothesis rightBalanced).then_pure _

namespace Query

open Brackets

variable {scope : Scope}
variable {first : Word}
variable {body : List Word}

theorem read_by
    (isBy : first.keyword? = some .byQuery)
    (nonempty : body ≠ []) :
    read scope (first :: body) = do
      Binding.ofResult ((check body).mapError SplitError.fault)
      let expr ← QueryExpr.read scope (Outline.ofRun scope.config.splitStrategy body)
      return .matching expr := by
  simp only [read, isBy]
  rw [if_neg (by simpa using nonempty)]

theorem start_read_of_check_error
    {error : SplitError}
    (isBy : first.keyword? = some .byQuery)
    (nonempty : body ≠ [])
    (refuses : check body = .error error)
    (params : List Param) :
    (read scope (first :: body)).start params = (.error error.fault, params) := by
  rw [read_by isBy nonempty, refuses]
  rfl

theorem blames_read_by
    (nested : scope.config.splitStrategy = .nested)
    (isBy : first.keyword? = some .byQuery)
    (nonempty : body ≠ [])
    (balanced : Balanced body) :
    (read scope (first :: body)).Blames Cause.OfConditions := by
  have checked : Binding.ofResult ((check body).mapError SplitError.fault) = pure () := by
    rw [check_eq_ok_iff.mpr balanced]
    rfl
  rw [read_by isBy nonempty, checked, nested]
  refine Binding.Blames.bind (Binding.blames_pure ()) fun done => ?_
  exact (QueryExpr.blames_read scope balanced).then_pure _

/-- Brackets are balanced if they form a Dyck word, and the check tells so. A
run that fails the check is refused behind `By` at the bracket to blame before
any parameter is bound. Under the nested strategy no part of a balanced run
fails to be divided for its brackets, and nothing else is refused in the words
for them. -/
theorem brackets_mismatched (run : List Word) :
    (Balanced run ↔ ∃ dyckWord : DyckWord, dyckWord.toList = steps run) ∧
    (check run = .ok () ↔ Balanced run) ∧
    (∀ error, check run = .error error ↔ ∃ position word, Blamed run position ∧
      run[position]? = some word ∧ error = .unbalanced word.span) ∧
    (∀ (scope : Scope) (first : Word) (params : List Param),
      first.keyword? = some .byQuery -> run ≠ [] -> ¬Balanced run ->
        ∃ position word fault, Blamed run position ∧ run[position]? = some word ∧
          (read scope (first :: run)).start params = (.error fault, params) ∧
          fault.cause.message = "mismatched parentheses" ∧ fault.span = some word.span) ∧
    (∀ (scope : Scope) (first : Word) (params : List Param) (fault : Fault),
      first.keyword? = some .byQuery -> run ≠ [] -> scope.config.splitStrategy = .nested ->
        ((read scope (first :: run)).start params).1 = .error fault ->
          fault.cause.message = "mismatched parentheses" -> ¬Balanced run) ∧
    (Balanced run -> ∀ part, SplitStrategy.Part .nested run part ->
      ∀ span, SplitStrategy.split .nested part ≠ .error (.unbalanced span)) := by
  refine ⟨balanced_iff_dyckWord, check_eq_ok_iff, fun error => check_eq_error_iff, ?_, ?_, ?_⟩
  · intro scope first params isBy nonempty unbalanced
    cases checked : check run with
    | ok done => exact absurd (check_eq_ok_iff.mp checked) unbalanced
    | error error =>
        obtain ⟨position, word, blamed, stands, rfl⟩ := check_eq_error_iff.mp checked
        exact ⟨position, word, _, blamed, stands,
          start_read_of_check_error isBy nonempty checked params, rfl, rfl⟩
  · intro scope first params fault isBy nonempty nested fails reported balanced
    have ofConditions := blames_read_by nested isBy nonempty balanced params fault fails
    exact ofConditions.message_ne reported
  · intro balanced part isPart span
    exact Split.nested_ne_unbalanced (isPart.balanced balanced) span

/-- The second of three opening brackets is closed, and the last one is blamed
under either strategy. -/
theorem brackets_mismatched_last_unclosed :
    let run := Word.segment "LbNameEqualOrLbAgeEqualRbAndLbIDEqual"
    check run = .error (.unbalanced ⟨28, 30⟩) ∧ ¬Balanced run ∧ Blamed run 9 ∧
      ∀ (scope : Scope) (params : List Param), ∃ fault,
        (read scope (⟨"By", ⟨0, 2⟩⟩ :: run)).start params = (.error fault, params) ∧
          fault.cause.message = "mismatched parentheses" ∧ fault.span = some ⟨28, 30⟩ := by
  intro run
  obtain ⟨-, accepts, refuses, reports, -⟩ := brackets_mismatched run
  have checked : check run = .error (.unbalanced ⟨28, 30⟩) := by decide +kernel
  have unbalanced : ¬Balanced run := by
    rw [← accepts, checked]
    simp
  have blamed : Blamed run 9 := by
    obtain ⟨position, word, blamed, stands, span_eq⟩ := (refuses _).mp checked
    have located : ∀ index < 12, run[index]?.map Word.span = some ⟨28, 30⟩ -> index = 9 := by
      decide +kernel
    have inside : position < 12 := (List.getElem?_eq_some_iff.mp stands).1
    obtain rfl := located position inside (by
      rw [stands, Option.map_some, SplitError.unbalanced.inj span_eq])
    exact blamed
  refine ⟨checked, unbalanced, blamed, fun scope params => ?_⟩
  obtain ⟨position, word, fault, otherBlamed, stands, fails, message_eq, span_eq⟩ :=
    reports scope ⟨"By", ⟨0, 2⟩⟩ params (by decide +kernel) (by decide +kernel) unbalanced
  obtain rfl := blamed.unique otherBlamed
  have word_eq : run[9]? = some ⟨"Lb", ⟨28, 30⟩⟩ := by decide +kernel
  obtain rfl := Option.some.inj (word_eq.symm.trans stands)
  exact ⟨fault, fails, message_eq, span_eq⟩

end Query
end DerivedQuery
