import DerivedQuery.Proofs.QueryGrammar.Nested

/-!
# The grammar of legacy queries

Under the legacy strategy a query run is read exactly when it is derived by the
grammar

* `run ::= condition | condition connective run | group`
* `group ::= Lb side connective run Rb`
* `side ::= condition | group`

The strategy drops the words at both ends of a run without looking at them.
What keeps that harmless is bracket depth: a run that closes a bracket it has
not opened is never read, and neither is a condition with a bracket in it.
Every legacy derivation is a derivation of the nested grammar, but groups stand
in three places only.
-/

namespace DerivedQuery

namespace Split

open Brackets

theorem undivided_of_legacy_eq_leaf
    {run inner : List Word}
    (divided : legacy run = .ok (.leaf inner)) :
    run = inner ∧ Undivided 1 0 run := by
  simp only [legacy] at divided
  split at divided
  · simp at divided
  · rename_i search
    simp only [Except.ok.injEq, leaf.injEq] at divided
    exact ⟨divided, search⟩
  · split at divided
    · simp at divided
    · split at divided <;> simp at divided

theorem legacy_of_undivided
    {run : List Word}
    (undivided : Undivided 1 0 run) :
    legacy run = .ok (.leaf run) := by
  unfold Undivided at undivided
  simp only [legacy, undivided]

/-- A run is divided at its first connective at depth 0, or at depth 1 with the
words at both ends dropped. -/
theorem exists_of_legacy_eq_divided
    {run left right : List Word}
    {connective : Connective}
    (divided : legacy run = .ok (.divided connective left right)) :
    ∃ (front back : List Word) (word : Word),
      run = front ++ word :: back ∧ word.connective? = some connective ∧
      Undivided 1 0 front ∧ back ≠ [] ∧
      ((depthBehind 0 front = some 0 ∧ left = front ∧ right = back) ∨
        (depthBehind 0 front = some 1 ∧ left = front.drop 1 ∧ right = back.dropLast)) := by
  simp only [legacy] at divided
  split at divided
  · simp at divided
  · simp at divided
  · rename_i found search
    obtain ⟨word, run_eq, stands, -, level, shallow, undivided⟩ :=
      foundIn_of_findConnective search
    split at divided
    · simp at divided
    · rename_i nonempty
      refine ⟨found.before, found.after, word, run_eq, ?_⟩
      split at divided
      · rename_i inBrackets
        simp only [Except.ok.injEq, Split.divided.injEq] at divided
        obtain ⟨rfl, rfl, rfl⟩ := divided
        rw [inBrackets] at level
        exact ⟨stands, undivided, by simpa using nonempty, Or.inr ⟨level, rfl, rfl⟩⟩
      · rename_i notInBrackets
        simp only [Except.ok.injEq, Split.divided.injEq] at divided
        obtain ⟨rfl, rfl, rfl⟩ := divided
        have outside : found.depth = 0 := by omega
        rw [outside] at level
        exact ⟨stands, undivided, by simpa using nonempty, Or.inl ⟨level, rfl, rfl⟩⟩

/-- Outside brackets a run is divided at its first connective. -/
theorem legacy_append_connective
    {front back : List Word}
    {word : Word}
    {connective : Connective}
    (balanced : Brackets.Balanced front)
    (undivided : Undivided 1 0 front)
    (stands : word.connective? = some connective)
    (nonempty : back ≠ []) :
    legacy (front ++ word :: back) = .ok (.divided connective front back) := by
  have search := findConnective_append_connective undivided balanced stands (Nat.zero_le 1) back
  simp [legacy, search, nonempty]

/-- Inside one pair of brackets a run is divided there, and the brackets are
the words that are dropped. -/
theorem legacy_wrap_connective
    {opening word : Word}
    {front : List Word}
    {connective : Connective}
    (opens : opening.is .leftBracket)
    (balanced : Brackets.Balanced front)
    (undivided : Undivided 0 0 front)
    (stands : word.connective? = some connective)
    (back : List Word)
    (closing : Word) :
    legacy (opening :: (front ++ word :: back) ++ [closing]) =
      .ok (.divided connective front back) := by
  have level : depthBehind 0 (opening :: front) = some 1 := by
    rw [depthBehind_opens opens]
    exact balanced.depthBehind_eq 1
  have passed : Undivided 1 0 (opening :: front) := by
    rw [undivided_opens_iff opens]
    exact (undivided_succ_iff balanced).mpr undivided
  have search := findConnective_append_connective passed level stands (Nat.le_refl 1)
    (back ++ [closing])
  have run_eq : opening :: (front ++ word :: back) ++ [closing] =
      opening :: front ++ word :: (back ++ [closing]) := by
    simp
  rw [run_eq, legacy, search]
  simp

end Split

namespace QueryGrammar

open Brackets Split

/-- What a derivation of the legacy grammar derives. -/
inductive LegacyPart
  | condition
  | side
  | group
  | run
  deriving DecidableEq, Repr

/-- A run derives a tree and binds the parameters from `params` up to `rest`. -/
inductive Legacy (scope : Scope) :
    LegacyPart -> List Word -> QueryExpr -> List Param -> List Param -> Prop
  | condition
      {run : List Word}
      {condition : Condition}
      {params rest : List Param}
      (plain : ∀ word ∈ run, word.Plain)
      (reads : (Condition.read scope run).Yields params condition rest) :
      Legacy scope .condition run (.leaf condition) params rest
  | sideCondition
      {run : List Word}
      {expr : QueryExpr}
      {params rest : List Param}
      (condition : Legacy scope .condition run expr params rest) :
      Legacy scope .side run expr params rest
  | sideGroup
      {run : List Word}
      {expr : QueryExpr}
      {params rest : List Param}
      (group : Legacy scope .group run expr params rest) :
      Legacy scope .side run expr params rest
  | group
      {opening closing word : Word}
      {front back : List Word}
      {connective : Connective}
      {left right : QueryExpr}
      {params middle rest : List Param}
      (opens : opening.is .leftBracket)
      (closes : closing.is .rightBracket)
      (first : Legacy scope .side front left params middle)
      (stands : word.connective? = some connective)
      (others : Legacy scope .run back right middle rest) :
      Legacy scope .group (opening :: (front ++ word :: back) ++ [closing])
        (.node connective left right) params rest
  | runCondition
      {run : List Word}
      {expr : QueryExpr}
      {params rest : List Param}
      (condition : Legacy scope .condition run expr params rest) :
      Legacy scope .run run expr params rest
  | runJoined
      {word : Word}
      {front back : List Word}
      {connective : Connective}
      {left right : QueryExpr}
      {params middle rest : List Param}
      (first : Legacy scope .condition front left params middle)
      (stands : word.connective? = some connective)
      (others : Legacy scope .run back right middle rest) :
      Legacy scope .run (front ++ word :: back) (.node connective left right) params rest
  | runGroup
      {run : List Word}
      {expr : QueryExpr}
      {params rest : List Param}
      (group : Legacy scope .group run expr params rest) :
      Legacy scope .run run expr params rest

namespace LegacyPart

/-- The part of the nested grammar that a part of the legacy grammar lies in. -/
def nested : LegacyPart -> NestedPart
  | .run => .expression
  | .condition | .side | .group => .term

end LegacyPart

namespace Legacy

variable {scope : Scope}
variable {part : LegacyPart}
variable {run : List Word}
variable {expr : QueryExpr}
variable {params rest : List Param}

/-- What the legacy grammar derives, the nested grammar derives as well. -/
theorem nested
    (derives : Legacy scope part run expr params rest) :
    Nested scope part.nested run expr params rest := by
  induction derives with
  | condition plain reads => exact .condition plain reads
  | sideCondition condition hypothesis => exact hypothesis
  | sideGroup group hypothesis => exact hypothesis
  | group opens closes first stands others firstHypothesis othersHypothesis =>
      exact .bracketed opens closes (.joined firstHypothesis stands othersHypothesis)
  | runCondition condition hypothesis => exact .single hypothesis
  | runJoined first stands others firstHypothesis othersHypothesis =>
      exact .joined firstHypothesis stands othersHypothesis
  | runGroup group hypothesis => exact .single hypothesis

/-- A run without a connective outside its brackets can stand on the left
inside a group. -/
theorem side_of_undivided
    (derives : Legacy scope .run run expr params rest)
    (undivided : Undivided 0 0 run) :
    Legacy scope .side run expr params rest := by
  cases derives with
  | runCondition condition => exact .sideCondition condition
  | runGroup group => exact .sideGroup group
  | runJoined first stands others =>
      have split := (undivided_append_iff first.nested.balanced).mp undivided
      rw [undivided_other_iff (Word.not_bracket_of_connective stands)] at split
      have deep := split.2.1 (by simp [stands])
      exact absurd deep (Nat.lt_irrefl 0)

/-! ## The reader follows the grammar -/

/-- The reader accepts what the grammar derives. -/
theorem yields_read
    (derives : Legacy scope part run expr params rest) :
    (QueryExpr.read scope (Outline.ofRun .legacy run)).Yields params expr rest := by
  induction derives with
  | @condition run condition params rest plain reads =>
      have leaf := legacy_of_undivided (undivided_of_plain plain 1)
      rw [Outline.ofRun_eq]
      simp only [SplitStrategy.split, leaf]
      exact QueryExpr.yields_read_leaf_iff.mpr ⟨condition, rfl, reads⟩
  | sideCondition condition hypothesis => exact hypothesis
  | sideGroup group hypothesis => exact hypothesis
  | @group opening closing word front back connective left right params middle rest opens closes
      first stands others firstHypothesis othersHypothesis =>
      have divided := legacy_wrap_connective opens first.nested.balanced
        first.nested.undivided_of_term stands back closing
      rw [Outline.ofRun_eq]
      simp only [SplitStrategy.split, divided]
      exact QueryExpr.yields_read_node_iff.mpr
        ⟨left, right, middle, rfl, firstHypothesis, othersHypothesis⟩
  | runCondition condition hypothesis => exact hypothesis
  | @runJoined word front back connective left right params middle rest first stands others
      firstHypothesis othersHypothesis =>
      have undivided : Undivided 1 0 front := by
        cases first with
        | condition plain reads => exact undivided_of_plain plain 1
      have divided := legacy_append_connective first.nested.balanced undivided stands
        others.nested.ne_nil
      rw [Outline.ofRun_eq]
      simp only [SplitStrategy.split, divided]
      exact QueryExpr.yields_read_node_iff.mpr
        ⟨left, right, middle, rfl, firstHypothesis, othersHypothesis⟩
  | runGroup group hypothesis => exact hypothesis

/-! ## Runs that are never read -/

/-- A run that closes a bracket it has not opened is not read. -/
theorem not_yields_read_of_depthBehind_eq_none
    (dips : depthBehind 0 run = none) :
    ¬ (QueryExpr.read scope (Outline.ofRun .legacy run)).Yields params expr rest := by
  fun_induction Outline.ofRun .legacy run generalizing expr params rest with
  | case1 run error divided => exact QueryExpr.not_yields_read_broken
  | case2 run inner divided =>
      obtain ⟨-, undivided⟩ := undivided_of_legacy_eq_leaf divided
      obtain ⟨stop, level⟩ := undivided.exists_depthBehind
      simp [level] at dips
  | case3 run connective left right divided leftHypothesis rightHypothesis =>
      intro yields
      obtain ⟨leftExpr, rightExpr, middle, -, -, readsRight⟩ :=
        QueryExpr.yields_read_node_iff.mp yields
      obtain ⟨front, back, word, rfl, stands, -, -, cut⟩ := exists_of_legacy_eq_divided divided
      have noBracket := Word.not_bracket_of_connective stands
      refine rightHypothesis ?_ readsRight
      -- The dip is in the right part, and dropping its last word does not remove it.
      rcases cut with ⟨level, -, rfl⟩ | ⟨level, -, rfl⟩
      · rw [depthBehind_append, level, Option.bind_some, depthBehind_other noBracket] at dips
        exact dips
      · rw [depthBehind_append, level, Option.bind_some, depthBehind_other noBracket] at dips
        exact depthBehind_dropLast_eq_none dips

theorem exists_depthBehind_of_yields_read
    (yields : (QueryExpr.read scope (Outline.ofRun .legacy run)).Yields params expr rest) :
    ∃ stop, depthBehind 0 run = some stop := by
  cases level : depthBehind 0 run with
  | none => exact absurd yields (not_yields_read_of_depthBehind_eq_none level)
  | some stop => exact ⟨stop, rfl⟩

/-- A run without a connective to divide at is read as a condition. -/
theorem condition_of_undivided
    (free : scope.schema.BracketFree)
    (undivided : Undivided 1 0 run)
    (yields : (QueryExpr.read scope (Outline.ofRun .legacy run)).Yields params expr rest) :
    Legacy scope .condition run expr params rest := by
  rw [Outline.ofRun_eq] at yields
  simp only [SplitStrategy.split, legacy_of_undivided undivided] at yields
  obtain ⟨condition, rfl, reads⟩ := QueryExpr.yields_read_leaf_iff.mp yields
  have noBrackets := Condition.no_brackets_of_yields_read free reads
  have noConnective := (undivided_iff_of_no_brackets noBrackets (Nat.zero_le 1)).mp undivided
  exact .condition (fun word member => ⟨noBrackets word member, noConnective word member⟩) reads

/-! ## The words dropped at both ends -/

/-- If the left part inside brackets is read, the word dropped in front of it
opened the bracket. -/
theorem exists_opening_of_yields_read
    (free : scope.schema.BracketFree)
    {front : List Word}
    (level : depthBehind 0 front = some 1)
    (undivided : Undivided 1 0 front)
    (yields : (QueryExpr.read scope (Outline.ofRun .legacy (front.drop 1))).Yields
      params expr rest) :
    ∃ (opening : Word) (inner : List Word), front = opening :: inner ∧
      opening.is .leftBracket ∧ Brackets.Balanced inner ∧ Undivided 0 0 inner := by
  cases front with
  | nil => simp at level
  | cons opening inner =>
      rw [List.drop_one, List.tail_cons] at yields
      refine ⟨opening, inner, rfl, ?_⟩
      rcases opening.bracket_cases with opens | closes | other
      · rw [depthBehind_opens opens] at level
        rw [undivided_opens_iff opens] at undivided
        obtain ⟨stop, innerLevel⟩ := exists_depthBehind_of_yields_read yields
        have deeper := depthBehind_add innerLevel 1
        rw [level, Option.some.injEq] at deeper
        have balanced : Brackets.Balanced inner := by
          rw [Brackets.Balanced, innerLevel, Option.some.injEq]
          omega
        exact ⟨opens, balanced, (undivided_succ_iff balanced).mp undivided⟩
      · simp [depthBehind_closes_zero closes] at level
      · -- Any other word leaves a bracket open in what would be one condition.
        rw [depthBehind_other other] at level
        rw [undivided_other_iff other] at undivided
        have condition := condition_of_undivided free undivided.2 yields
        rw [condition.nested.balanced, Option.some.injEq] at level
        omega

/-- If the right part inside brackets is read, the word dropped behind it
closed the bracket. -/
theorem exists_closing_of_yields_read
    {back : List Word}
    (level : depthBehind 1 back = some 0)
    (nonempty : back ≠ [])
    (yields : (QueryExpr.read scope (Outline.ofRun .legacy back.dropLast)).Yields
      params expr rest) :
    ∃ (inner : List Word) (closing : Word), back = inner ++ [closing] ∧
      closing.is .rightBracket ∧ Brackets.Balanced inner := by
  obtain ⟨inner, closing, rfl⟩ : ∃ inner closing, back = inner ++ [closing] :=
    ⟨_, _, (List.dropLast_concat_getLast nonempty).symm⟩
  rw [List.dropLast_concat] at yields
  refine ⟨inner, closing, rfl, ?_⟩
  obtain ⟨stop, innerLevel⟩ := exists_depthBehind_of_yields_read yields
  have deeper := depthBehind_add innerLevel 1
  rw [depthBehind_append, deeper, Option.bind_some] at level
  rcases closing.bracket_cases with opens | closes | other
  · simp [depthBehind_opens opens] at level
  · rw [depthBehind_closes_succ closes, depthBehind_nil, Option.some.injEq] at level
    subst level
    exact ⟨closes, innerLevel⟩
  · simp [depthBehind_other other] at level

/-- The reader accepts only what the grammar derives. -/
theorem of_yields_read
    (free : scope.schema.BracketFree)
    (balanced : Brackets.Balanced run)
    (yields : (QueryExpr.read scope (Outline.ofRun .legacy run)).Yields params expr rest) :
    Legacy scope .run run expr params rest := by
  fun_induction Outline.ofRun .legacy run generalizing expr params rest with
  | case1 run error divided => exact absurd yields QueryExpr.not_yields_read_broken
  | case2 run inner divided =>
      obtain ⟨rfl, undivided⟩ := undivided_of_legacy_eq_leaf divided
      refine .runCondition (condition_of_undivided free undivided ?_)
      rw [Outline.ofRun_eq]
      simp only [SplitStrategy.split, legacy_of_undivided undivided]
      exact yields
  | case3 run connective left right divided leftHypothesis rightHypothesis =>
      obtain ⟨leftExpr, rightExpr, middle, rfl, readsLeft, readsRight⟩ :=
        QueryExpr.yields_read_node_iff.mp yields
      obtain ⟨front, back, word, rfl, stands, undivided, nonempty, cut⟩ :=
        exists_of_legacy_eq_divided divided
      have noBracket := Word.not_bracket_of_connective stands
      unfold Brackets.Balanced at balanced
      rcases cut with ⟨level, rfl, rfl⟩ | ⟨level, rfl, rfl⟩
      · rw [depthBehind_append, level, Option.bind_some, depthBehind_other noBracket] at balanced
        exact .runJoined (condition_of_undivided free undivided readsLeft) stands
          (rightHypothesis balanced readsRight)
      · rw [depthBehind_append, level, Option.bind_some, depthBehind_other noBracket] at balanced
        obtain ⟨opening, innerLeft, rfl, opens, leftBalanced, leftUndivided⟩ :=
          exists_opening_of_yields_read free level undivided readsLeft
        obtain ⟨innerRight, closing, rfl, closes, rightBalanced⟩ :=
          exists_closing_of_yields_read balanced nonempty readsRight
        have first := leftHypothesis leftBalanced readsLeft
        rw [List.dropLast_concat] at rightHypothesis readsRight
        have others := rightHypothesis rightBalanced readsRight
        have group := Legacy.group opens closes (first.side_of_undivided leftUndivided) stands
          others
        rw [List.cons_append, List.append_assoc, List.cons_append] at group
        exact .runGroup group

end Legacy

/-- What is read behind `By` under the legacy strategy is a derivable run. -/
theorem legacy_of_yields_read_by
    {scope : Scope}
    (strategy : scope.config.splitStrategy = .legacy)
    (free : scope.schema.BracketFree)
    {first : Word}
    (isBy : first.keyword? = some .byQuery)
    {body : List Word}
    {expr : QueryExpr}
    {params rest : List Param}
    (yields : (Query.read scope (first :: body)).Yields params (.matching expr) rest) :
    Legacy scope .run body expr params rest := by
  rw [Query.yields_read_by_iff isBy, strategy] at yields
  obtain ⟨-, balanced, other, same, reads⟩ := yields
  obtain rfl := Query.matching.inj same
  exact .of_yields_read free balanced reads

/-- Behind `By` the reader accepts exactly the runs of the grammar. -/
theorem yields_read_by_iff_legacy
    {scope : Scope}
    (strategy : scope.config.splitStrategy = .legacy)
    (free : scope.schema.BracketFree)
    {first : Word}
    (isBy : first.keyword? = some .byQuery)
    {body : List Word}
    {expr : QueryExpr}
    {params rest : List Param} :
    (Query.read scope (first :: body)).Yields params (.matching expr) rest ↔
      Legacy scope .run body expr params rest := by
  constructor
  · exact legacy_of_yields_read_by strategy free isBy
  · intro derives
    rw [Query.yields_read_by_iff isBy, strategy]
    exact ⟨derives.nested.ne_nil, derives.nested.balanced, expr, rfl, derives.yields_read⟩

/-! ## Where groups may stand -/

/-- The places of a bracket group, told by the words in front of it and behind
it. -/
inductive GroupPlace : List Word -> List Word -> Prop
  /-- The group is the whole run. -/
  | whole : GroupPlace [] []
  /-- The group is a right operand, and nothing but the end of the run or of
  the enclosing group follows it. -/
  | finalOperand
      {word : Word}
      {connective : Connective}
      {after : List Word}
      (front : List Word)
      (stands : word.connective? = some connective)
      (ends : ∀ next ∈ after.head?, next.is .rightBracket) :
      GroupPlace (front ++ [word]) after
  /-- The group is the left operand directly inside another group. -/
  | leftOperand
      {opening word : Word}
      {connective : Connective}
      (front after : List Word)
      (opens : opening.is .leftBracket)
      (stands : word.connective? = some connective) :
      GroupPlace (front ++ [opening]) (word :: after)

namespace GroupPlace

variable {front after : List Word}

/-- A group inside the right part of a run keeps its place. -/
theorem joined
    (place : GroupPlace front after)
    {word : Word}
    {connective : Connective}
    (stands : word.connective? = some connective)
    (left : List Word) :
    GroupPlace (left ++ word :: front) after := by
  cases place with
  | whole => exact .finalOperand left stands (by simp)
  | finalOperand front lastStands ends =>
      have kept := GroupPlace.finalOperand (left ++ word :: front) lastStands ends
      rwa [List.append_assoc, List.cons_append] at kept
  | leftOperand front after opens nextStands =>
      have kept := GroupPlace.leftOperand (left ++ word :: front) after opens nextStands
      rwa [List.append_assoc, List.cons_append] at kept

/-- Brackets around a run leave the places inside it as they are, except that
of the whole run. -/
theorem wrapped
    (place : GroupPlace front after)
    (inner : front ≠ [])
    {closing : Word}
    (closes : closing.is .rightBracket)
    (opening : Word) :
    GroupPlace (opening :: front) (after ++ [closing]) := by
  cases place with
  | whole => exact absurd rfl inner
  | finalOperand front stands ends =>
      refine .finalOperand (opening :: front) stands ?_
      intro next isNext
      cases after with
      | nil =>
          obtain rfl : closing = next := by simpa using isNext
          exact closes
      | cons head others => exact ends next (by simpa using isNext)
  | leftOperand front after opens stands =>
      exact .leftOperand (opening :: front) (after ++ [closing]) opens stands

/-- A group in the left operand of a group keeps its place, or is that
operand. -/
theorem inLeftOperand
    (place : GroupPlace front after)
    (closed : after = [] -> front = [])
    {opening word : Word}
    {connective : Connective}
    (opens : opening.is .leftBracket)
    (stands : word.connective? = some connective)
    (back : List Word) :
    GroupPlace (opening :: front) (after ++ word :: back) := by
  cases place with
  | whole => exact .leftOperand [] back opens stands
  | finalOperand front lastStands ends =>
      refine .finalOperand (opening :: front) lastStands ?_
      intro next isNext
      cases after with
      | nil => simp at closed
      | cons head others => exact ends next (by simpa using isNext)
  | leftOperand front after innerOpens innerStands =>
      exact .leftOperand (opening :: front) (after ++ word :: back) innerOpens innerStands

end GroupPlace

/-- Every group of a derivable run is in one of the places, and a term ends
with a group only if it is that group. -/
theorem Legacy.groupPlace
    {scope : Scope}
    {part : LegacyPart}
    {run : List Word}
    {expr : QueryExpr}
    {params rest : List Param}
    (derives : Legacy scope part run expr params rest)
    {front after : List Word}
    (group : GroupIn run front after) :
    GroupPlace front after ∧ (part.nested = .term -> after = [] -> front = []) := by
  induction derives generalizing front after with
  | condition plain reads =>
      exact absurd group (not_groupIn_of_no_brackets fun word member => (plain word member).1)
  | sideCondition condition hypothesis => exact hypothesis group
  | sideGroup group' hypothesis => exact hypothesis group
  | @group opening closing word left right connective _ _ _ _ _ opens closes first stands others
      firstHypothesis othersHypothesis =>
      have noBracket := Word.not_bracket_of_connective stands
      have balanced : Brackets.Balanced (left ++ word :: right) :=
        first.nested.balanced.append (others.nested.balanced.cons noBracket)
      rcases group.of_wrap balanced closes with
        ⟨rfl, rfl⟩ | ⟨innerFront, innerAfter, rfl, rfl, inner⟩
      · exact ⟨.whole, fun _ _ => rfl⟩
      · refine ⟨?_, by simp⟩
        rcases inner.of_append_cons first.nested.balanced noBracket with
          ⟨behind, rfl, inLeft⟩ | ⟨between, rfl, inRight⟩
        · obtain ⟨place, closed⟩ := firstHypothesis inLeft
          rw [List.append_assoc, List.cons_append]
          exact place.inLeftOperand (closed rfl) opens stands (right ++ [closing])
        · obtain ⟨place, -⟩ := othersHypothesis inRight
          exact (place.joined stands left).wrapped (by simp) closes opening
  | runCondition condition hypothesis => exact ⟨(hypothesis group).1, by simp [LegacyPart.nested]⟩
  | @runJoined word left right connective _ _ _ _ _ first stands others firstHypothesis
      othersHypothesis =>
      refine ⟨?_, by simp [LegacyPart.nested]⟩
      have noBracket := Word.not_bracket_of_connective stands
      rcases group.of_append_cons first.nested.balanced noBracket with
        ⟨behind, rfl, inLeft⟩ | ⟨between, rfl, inRight⟩
      · cases first with
        | condition plain reads =>
            exact absurd inLeft
              (not_groupIn_of_no_brackets fun word member => (plain word member).1)
      · exact (othersHypothesis inRight).1.joined stands left
  | runGroup group' hypothesis => exact ⟨(hypothesis group).1, by simp [LegacyPart.nested]⟩

/-! ## The language of legacy queries -/

/-- Under the legacy strategy the words behind `By` are read exactly as the
grammar derives them. So a bracket group is read only as the whole run, as the
final right operand, or as the left operand directly inside another group. -/
theorem legacy_query_language
    {scope : Scope}
    (strategy : scope.config.splitStrategy = .legacy)
    (free : scope.schema.BracketFree)
    {first : Word}
    (isBy : first.keyword? = some .byQuery) :
    (∀ (body : List Word) (expr : QueryExpr) (params rest : List Param),
      (Query.read scope (first :: body)).start params = (.ok (.matching expr), rest) ↔
        Legacy scope .run body expr params rest) ∧
    (∀ (body : List Word) (query : Query) (params rest : List Param),
      (Query.read scope (first :: body)).start params = (.ok query, rest) ->
        ∀ front after : List Word, GroupIn body front after -> GroupPlace front after) := by
  refine ⟨?_, ?_⟩
  · intro body expr params rest
    exact yields_read_by_iff_legacy strategy free isBy
  · intro body query params rest reads front after group
    obtain ⟨-, -, expr, rfl, -⟩ := (Query.yields_read_by_iff isBy).mp reads
    exact (((yields_read_by_iff_legacy strategy free isBy).mp reads).groupPlace group).1

/-- A group on the left directly inside a group, with another group at its
end. -/
theorem legacy_query_language_inner_groups :
    let scope : Scope := {
      method := ⟨"Any", "", [], []⟩
      schema := ⟨"User", [⟨"Age", "age", .ident "int", none⟩]⟩
      config := Config.standard }
    let word (text : String) : Word := ⟨text, 0, 0⟩
    let inside := ["Age", "Equal", "Or", "Age", "Exists"].map word
    let last := ["Lb", "Age", "False", "Or", "Age", "In", "Rb"].map word
    let front := ["Age", "True", "And", "Lb"].map word
    let after := word "And" :: last ++ [word "Rb"]
    let body := front ++ word "Lb" :: (inside ++ word "Rb" :: after)
    let expr : QueryExpr := .node .and (.leaf ⟨.isTrue, "age", []⟩)
      (.node .and
        (.node .or (.leaf ⟨.equal, "age", ["age"]⟩) (.leaf ⟨.present, "age", []⟩))
        (.node .or (.leaf ⟨.isFalse, "age", []⟩) (.leaf ⟨.within, "age", ["other"]⟩)))
    let params : List Param := [⟨"age", .ident "int"⟩, ⟨"other", .ident "int"⟩]
    scope.config.splitStrategy = .legacy ∧
      scope.schema.BracketFree ∧
      (word "By").keyword? = some .byQuery ∧
      Legacy scope .run body expr params [] ∧
      GroupIn body front after ∧
      GroupPlace front after := by
  intro scope word inside last front after body expr params
  have free : scope.schema.BracketFree := by
    rw [Schema.bracketFree_iff]
    intro field member
    obtain rfl := List.mem_singleton.mp member
    exact ⟨by decide, by simp⟩
  have reads : (Query.read scope (word "By" :: body)).start params =
      (.ok (.matching expr), []) := by
    apply Prod.ext
    · apply except_toOption_eq_some_iff.mp
      decide +kernel
    · decide +kernel
  have isBy : (word "By").keyword? = some .byQuery := by decide
  have group : GroupIn body front after :=
    ⟨word "Lb", _, inside, rfl, rfl, word "Rb", rfl, rfl, rfl⟩
  obtain ⟨derived, placed⟩ := legacy_query_language rfl free isBy
  exact ⟨rfl, free, isBy, (derived _ _ _ _).mp reads, group,
    placed _ _ _ _ reads _ _ group⟩

end QueryGrammar
end DerivedQuery
