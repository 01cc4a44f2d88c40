import DerivedQuery.Proofs.QueryReader

/-!
# The grammar of nested queries

Under the nested strategy a query run is read by the grammar

* `expression ::= term | term connective expression`
* `term ::= condition | Lb expression Rb`

where brackets leave the tree as it is and conditions bind parameters from the
left. The reader accepts exactly the derivable runs and builds the derived
tree. It follows that redundant brackets make no difference and that every
tree over conditions can be written.
-/

namespace DerivedQuery

namespace Split

open Brackets

theorem nested_wrap
    {opening closing : Word}
    {run : List Word}
    (opens : opening.is .leftBracket)
    (closes : closing.is .rightBracket)
    (balanced : Brackets.Balanced run) :
    nested (opening :: run ++ [closing]) = nested run := by
  simp only [nested, unwrap_wrap opens closes balanced]

theorem nested_append_connective
    {front : List Word}
    {word : Word}
    {connective : Connective}
    (balanced : Brackets.Balanced front)
    (undivided : Undivided 0 0 front)
    (stands : word.connective? = some connective)
    (back : List Word) :
    nested (front ++ word :: back) =
      if back.isEmpty then
        .error (.dangling word.span)
      else
        .ok (.divided connective front back) := by
  have notWrapped := inside?_append_cons_eq_none balanced
    (Word.not_bracket_of_connective stands) back
  simp only [nested, unwrap_eq_self notWrapped,
    findConnective_append_connective undivided balanced stands (Nat.le_refl 0) back]

theorem nested_of_plain
    {run : List Word}
    (plain : ∀ word ∈ run, word.Plain) :
    nested run = .ok (.leaf run) := by
  have notWrapped : inside? run = none := by
    rw [Option.eq_none_iff_forall_ne_some]
    intro inside wrapped
    obtain ⟨opening, closing, opens, -, rfl, -⟩ := inside?_eq_some_iff.mp wrapped
    have noBracket := (plain opening (by simp)).1
    simp [(Word.isBracket_eq_false_iff.mp noBracket).1] at opens
  have undivided : findConnective 0 0 run = .ok none := undivided_of_plain plain 0
  simp only [nested, unwrap_eq_self notWrapped, undivided]

theorem undivided_of_nested_eq_leaf
    {run inner : List Word}
    (divided : nested run = .ok (.leaf inner)) :
    unwrap run = inner ∧ Undivided 0 0 inner := by
  simp only [nested] at divided
  split at divided
  · simp at divided
  · rename_i search
    simp only [Except.ok.injEq, leaf.injEq] at divided
    rw [← divided]
    exact ⟨rfl, search⟩
  · split at divided <;> simp at divided

theorem exists_of_nested_eq_divided
    {run left right : List Word}
    {connective : Connective}
    (divided : nested run = .ok (.divided connective left right)) :
    ∃ word : Word, unwrap run = left ++ word :: right ∧
      word.connective? = some connective ∧ Undivided 0 0 left := by
  simp only [nested] at divided
  split at divided
  · simp at divided
  · simp at divided
  · rename_i search
    obtain ⟨word, run_eq, stands, -, -, -, undivided⟩ := foundIn_of_findConnective search
    split at divided
    · simp at divided
    · simp only [Except.ok.injEq, Split.divided.injEq] at divided
      obtain ⟨rfl, rfl, rfl⟩ := divided
      exact ⟨word, run_eq, stands, undivided⟩

end Split

namespace Outline

open Brackets Split

/-- Brackets around a balanced run leave its outline as it is. -/
theorem ofRun_nested_wrap
    {opening closing : Word}
    {run : List Word}
    (opens : opening.is .leftBracket)
    (closes : closing.is .rightBracket)
    (balanced : Brackets.Balanced run) :
    ofRun .nested (opening :: run ++ [closing]) = ofRun .nested run := by
  rw [ofRun_eq, ofRun_eq .nested run]
  simp only [SplitStrategy.split, nested_wrap opens closes balanced]

/-- A run is divided at the first connective outside all brackets. -/
theorem ofRun_nested_append_connective
    {front : List Word}
    {word : Word}
    {connective : Connective}
    (balanced : Brackets.Balanced front)
    (undivided : Undivided 0 0 front)
    (stands : word.connective? = some connective)
    (back : List Word) :
    ofRun .nested (front ++ word :: back) =
      if back.isEmpty then
        .broken (.dangling word.span)
      else
        .node connective (ofRun .nested front) (ofRun .nested back) := by
  rw [ofRun_eq]
  simp only [SplitStrategy.split, nested_append_connective balanced undivided stands back]
  cases back with
  | nil => rfl
  | cons next others => rfl

theorem ofRun_nested_of_plain
    {run : List Word}
    (plain : ∀ word ∈ run, word.Plain) :
    ofRun .nested run = .leaf run := by
  rw [ofRun_eq]
  simp only [SplitStrategy.split, nested_of_plain plain]

end Outline

namespace QueryGrammar

open Brackets Split

/-- What a derivation of the nested grammar derives. -/
inductive NestedPart
  | expression
  | term
  deriving DecidableEq, Repr

/-- A run derives a tree and binds the parameters from `params` up to `rest`. -/
inductive Nested (scope : Scope) :
    NestedPart -> List Word -> QueryExpr -> List Param -> List Param -> Prop
  | condition
      {run : List Word}
      {condition : Condition}
      {params rest : List Param}
      (plain : ∀ word ∈ run, word.Plain)
      (reads : (Condition.read scope run).Yields params condition rest) :
      Nested scope .term run (.leaf condition) params rest
  | bracketed
      {opening closing : Word}
      {run : List Word}
      {expr : QueryExpr}
      {params rest : List Param}
      (opens : opening.is .leftBracket)
      (closes : closing.is .rightBracket)
      (inside : Nested scope .expression run expr params rest) :
      Nested scope .term (opening :: run ++ [closing]) expr params rest
  | single
      {run : List Word}
      {expr : QueryExpr}
      {params rest : List Param}
      (term : Nested scope .term run expr params rest) :
      Nested scope .expression run expr params rest
  | joined
      {front back : List Word}
      {word : Word}
      {connective : Connective}
      {left right : QueryExpr}
      {params middle rest : List Param}
      (first : Nested scope .term front left params middle)
      (stands : word.connective? = some connective)
      (others : Nested scope .expression back right middle rest) :
      Nested scope .expression (front ++ word :: back) (.node connective left right) params rest

namespace Nested

variable {scope : Scope}
variable {part : NestedPart}
variable {run : List Word}
variable {expr : QueryExpr}
variable {params rest : List Param}

theorem balanced
    (derives : Nested scope part run expr params rest) :
    Brackets.Balanced run := by
  induction derives with
  | condition plain reads =>
      exact .of_no_brackets fun word member => (plain word member).1
  | bracketed opens closes inside hypothesis => exact hypothesis.wrap opens closes
  | single term hypothesis => exact hypothesis
  | joined first stands others firstHypothesis othersHypothesis =>
      exact firstHypothesis.append
        (othersHypothesis.cons (Word.not_bracket_of_connective stands))

theorem ne_nil
    (derives : Nested scope part run expr params rest) :
    run ≠ [] := by
  induction derives with
  | condition plain reads => exact Condition.ne_nil_of_yields_read reads
  | bracketed opens closes inside hypothesis => simp
  | single term hypothesis => exact hypothesis
  | joined first stands others firstHypothesis othersHypothesis => simp

/-- A term has no connective outside its brackets. -/
theorem undivided_of_term
    (derives : Nested scope .term run expr params rest) :
    Undivided 0 0 run := by
  cases derives with
  | condition plain reads => exact undivided_of_plain plain 0
  | @bracketed opening closing run expr params rest opens closes inside =>
      have level := inside.balanced.depthBehind_eq 1
      rw [List.cons_append, undivided_opens_iff opens, Nat.zero_add, undivided_append_iff level,
        undivided_closes_succ_iff closes]
      exact ⟨undivided_of_deep inside.balanced, undivided_nil 0 0⟩

/-- An expression without a connective outside its brackets is a term. -/
theorem term_of_undivided
    (derives : Nested scope .expression run expr params rest)
    (undivided : Undivided 0 0 run) :
    Nested scope .term run expr params rest := by
  cases derives with
  | single term => exact term
  | joined first stands others =>
      have notUndivided := (undivided_append_iff first.balanced).mp undivided
      rw [undivided_other_iff (Word.not_bracket_of_connective stands)] at notUndivided
      have deep := notUndivided.2.1 (by simp [stands])
      exact absurd deep (Nat.lt_irrefl 0)

/-! ## The reader follows the grammar -/

/-- The reader accepts what the grammar derives. -/
theorem yields_read
    (derives : Nested scope part run expr params rest) :
    (QueryExpr.read scope (Outline.ofRun .nested run)).Yields params expr rest := by
  induction derives with
  | @condition run condition params rest plain reads =>
      rw [Outline.ofRun_nested_of_plain plain]
      exact QueryExpr.yields_read_leaf_iff.mpr ⟨condition, rfl, reads⟩
  | bracketed opens closes inside hypothesis =>
      rw [Outline.ofRun_nested_wrap opens closes inside.balanced]
      exact hypothesis
  | single term hypothesis => exact hypothesis
  | @joined front back word connective left right params middle rest first stands others
      firstHypothesis othersHypothesis =>
      have nonempty : back.isEmpty = false := by simpa using others.ne_nil
      rw [Outline.ofRun_nested_append_connective first.balanced first.undivided_of_term stands,
        if_neg (by simp [nonempty])]
      exact QueryExpr.yields_read_node_iff.mpr
        ⟨left, right, middle, rfl, firstHypothesis, othersHypothesis⟩

theorem of_unwrap
    (derives : Nested scope .expression (unwrap run) expr params rest) :
    Nested scope .expression run expr params rest := by
  fun_induction unwrap run with
  | case1 run inside wrapped hypothesis =>
      obtain ⟨opening, closing, opens, closes, rfl, balanced⟩ := inside?_eq_some_iff.mp wrapped
      exact .single (.bracketed opens closes (hypothesis derives))
  | case2 run notWrapped => exact derives

/-- The reader accepts only what the grammar derives. -/
theorem of_yields_read
    (free : scope.schema.BracketFree)
    (yields : (QueryExpr.read scope (Outline.ofRun .nested run)).Yields params expr rest) :
    Nested scope .expression run expr params rest := by
  fun_induction Outline.ofRun .nested run generalizing expr params rest with
  | case1 run error divided => exact absurd yields QueryExpr.not_yields_read_broken
  | case2 run inner divided =>
      obtain ⟨condition, rfl, reads⟩ := QueryExpr.yields_read_leaf_iff.mp yields
      obtain ⟨inner_eq, undivided⟩ := undivided_of_nested_eq_leaf divided
      have noBrackets := Condition.no_brackets_of_yields_read free reads
      have noConnective :=
        (undivided_iff_of_no_brackets noBrackets (Nat.le_refl 0)).mp undivided
      apply of_unwrap
      rw [inner_eq]
      exact .single (.condition
        (fun word member => ⟨noBrackets word member, noConnective word member⟩) reads)
  | case3 run connective left right divided leftHypothesis rightHypothesis =>
      obtain ⟨leftExpr, rightExpr, middle, rfl, readsLeft, readsRight⟩ :=
        QueryExpr.yields_read_node_iff.mp yields
      obtain ⟨word, run_eq, stands, undivided⟩ := exists_of_nested_eq_divided divided
      apply of_unwrap
      rw [run_eq]
      exact .joined ((leftHypothesis readsLeft).term_of_undivided undivided) stands
        (rightHypothesis readsRight)

end Nested

/-- Behind `By` the reader accepts exactly the expressions of the grammar. -/
theorem yields_read_by_iff_nested
    {scope : Scope}
    (strategy : scope.config.splitStrategy = .nested)
    (free : scope.schema.BracketFree)
    {first : Word}
    (isBy : first.keyword? = some .byQuery)
    {body : List Word}
    {expr : QueryExpr}
    {params rest : List Param} :
    (Query.read scope (first :: body)).Yields params (.matching expr) rest ↔
      Nested scope .expression body expr params rest := by
  rw [Query.yields_read_by_iff isBy, strategy]
  constructor
  · rintro ⟨-, -, other, same, reads⟩
    obtain rfl := Query.matching.inj same
    exact .of_yields_read free reads
  · intro derives
    exact ⟨derives.ne_nil, derives.balanced, expr, rfl, derives.yields_read⟩

/-! ## Redundant brackets -/

/-- Two runs that differ in redundant brackets only: brackets around a whole
run or around an operand of a connective, where the left operand has no
connective of its own outside brackets. -/
inductive SameGrouping : List Word -> List Word -> Prop
  | refl (run : List Word) :
      SameGrouping run run
  | symm
      {run other : List Word}
      (same : SameGrouping run other) :
      SameGrouping other run
  | trans
      {run other third : List Word}
      (same : SameGrouping run other)
      (further : SameGrouping other third) :
      SameGrouping run third
  | wrap
      {opening closing : Word}
      {run : List Word}
      (opens : opening.is .leftBracket)
      (closes : closing.is .rightBracket)
      (balanced : Brackets.Balanced run)
      (nonempty : run ≠ []) :
      SameGrouping (opening :: run ++ [closing]) run
  | join
      {left otherLeft right otherRight : List Word}
      {word : Word}
      {connective : Connective}
      (stands : word.connective? = some connective)
      (leftBalanced : Brackets.Balanced left)
      (leftUndivided : Undivided 0 0 left)
      (otherBalanced : Brackets.Balanced otherLeft)
      (otherUndivided : Undivided 0 0 otherLeft)
      (sameLeft : SameGrouping left otherLeft)
      (sameRight : SameGrouping right otherRight) :
      SameGrouping (left ++ word :: right) (otherLeft ++ word :: otherRight)

namespace SameGrouping

variable {run other : List Word}

theorem eq_nil_iff (same : SameGrouping run other) :
    run = [] ↔ other = [] := by
  induction same with
  | refl run => rfl
  | symm same hypothesis => exact hypothesis.symm
  | trans same further hypothesis furtherHypothesis => exact hypothesis.trans furtherHypothesis
  | wrap opens closes balanced nonempty => simp [nonempty]
  | join => simp

theorem balanced_iff (same : SameGrouping run other) :
    Brackets.Balanced run ↔ Brackets.Balanced other := by
  induction same with
  | refl run => rfl
  | symm same hypothesis => exact hypothesis.symm
  | trans same further hypothesis furtherHypothesis => exact hypothesis.trans furtherHypothesis
  | wrap opens closes balanced nonempty =>
      exact ⟨fun _ => balanced, fun _ => balanced.wrap opens closes⟩
  | join stands leftBalanced leftUndivided otherBalanced otherUndivided sameLeft sameRight
      leftHypothesis rightHypothesis =>
      have noBracket := Word.not_bracket_of_connective stands
      unfold Brackets.Balanced at leftBalanced otherBalanced rightHypothesis ⊢
      rw [depthBehind_append, depthBehind_append, leftBalanced, otherBalanced]
      simpa only [Option.bind_some, depthBehind_other noBracket] using rightHypothesis

/-- Redundant brackets leave the outline as it is. -/
theorem ofRun_eq (same : SameGrouping run other) :
    Outline.ofRun .nested run = Outline.ofRun .nested other := by
  induction same with
  | refl run => rfl
  | symm same hypothesis => exact hypothesis.symm
  | trans same further hypothesis furtherHypothesis => exact hypothesis.trans furtherHypothesis
  | wrap opens closes balanced nonempty =>
      exact Outline.ofRun_nested_wrap opens closes balanced
  | @join left otherLeft right otherRight word connective stands leftBalanced leftUndivided
      otherBalanced otherUndivided sameLeft sameRight leftHypothesis rightHypothesis =>
      have nonempty : right.isEmpty = otherRight.isEmpty := by
        rw [Bool.eq_iff_iff, List.isEmpty_iff, List.isEmpty_iff]
        exact sameRight.eq_nil_iff
      rw [Outline.ofRun_nested_append_connective leftBalanced leftUndivided stands,
        Outline.ofRun_nested_append_connective otherBalanced otherUndivided stands,
        leftHypothesis, rightHypothesis, nonempty]

theorem yields_read_iff
    (same : SameGrouping run other)
    {scope : Scope}
    (strategy : scope.config.splitStrategy = .nested)
    {first : Word}
    (isBy : first.keyword? = some .byQuery)
    {query : Query}
    {params rest : List Param} :
    (Query.read scope (first :: run)).Yields params query rest ↔
      (Query.read scope (first :: other)).Yields params query rest := by
  rw [Query.yields_read_by_iff isBy, Query.yields_read_by_iff isBy, strategy, same.ofRun_eq,
    same.balanced_iff, ne_eq, same.eq_nil_iff]

end SameGrouping

/-! ## Every tree can be written -/

/-- A tree over conditions that can be read one after the other from the
left. -/
inductive Readable (scope : Scope) : QueryExpr -> List Param -> List Param -> Prop
  | leaf
      {run : List Word}
      {condition : Condition}
      {params rest : List Param}
      (plain : ∀ word ∈ run, word.Plain)
      (reads : (Condition.read scope run).Yields params condition rest) :
      Readable scope (.leaf condition) params rest
  | node
      {left right : QueryExpr}
      {params middle rest : List Param}
      (connective : Connective)
      (first : Readable scope left params middle)
      (others : Readable scope right middle rest) :
      Readable scope (.node connective left right) params rest

theorem exists_word_of_connective (connective : Connective) :
    ∃ word : Word, word.connective? = some connective := by
  cases connective with
  | and => exact ⟨⟨"And", 0, 0⟩, rfl⟩
  | or => exact ⟨⟨"Or", 0, 0⟩, rfl⟩

/-- Brackets around every left operand write a tree. -/
theorem Readable.exists_nested
    {scope : Scope}
    {expr : QueryExpr}
    {params rest : List Param}
    (readable : Readable scope expr params rest) :
    ∃ body, Nested scope .expression body expr params rest := by
  induction readable with
  | leaf plain reads => exact ⟨_, .single (.condition plain reads)⟩
  | node connective first others firstHypothesis othersHypothesis =>
      obtain ⟨front, frontDerives⟩ := firstHypothesis
      obtain ⟨back, backDerives⟩ := othersHypothesis
      obtain ⟨word, stands⟩ := exists_word_of_connective connective
      have opens : (⟨"Lb", 0, 0⟩ : Word).is .leftBracket := rfl
      have closes : (⟨"Rb", 0, 0⟩ : Word).is .rightBracket := rfl
      exact ⟨_, .joined (.bracketed opens closes frontDerives) stands backDerives⟩

/-- The conditions of a derived tree can be read one after the other. -/
theorem Nested.readable
    {scope : Scope}
    {part : NestedPart}
    {run : List Word}
    {expr : QueryExpr}
    {params rest : List Param}
    (derives : Nested scope part run expr params rest) :
    Readable scope expr params rest := by
  induction derives with
  | condition plain reads => exact .leaf plain reads
  | bracketed opens closes inside hypothesis => exact hypothesis
  | single term hypothesis => exact hypothesis
  | joined first stands others firstHypothesis othersHypothesis =>
      exact .node _ firstHypothesis othersHypothesis

/-! ## The language of nested queries -/

/-- Under the nested strategy the words behind `By` are read exactly as the
grammar derives them, redundant brackets never change the result, and the
trees that are read are all trees over conditions. -/
theorem nested_query_language
    {scope : Scope}
    (strategy : scope.config.splitStrategy = .nested)
    (free : scope.schema.BracketFree)
    {first : Word}
    (isBy : first.keyword? = some .byQuery) :
    (∀ (body : List Word) (expr : QueryExpr) (params rest : List Param),
      (Query.read scope (first :: body)).start params = (.ok (.matching expr), rest) ↔
        Nested scope .expression body expr params rest) ∧
    (∀ body other : List Word, SameGrouping body other ->
      ∀ (query : Query) (params rest : List Param),
        (Query.read scope (first :: body)).start params = (.ok query, rest) ↔
          (Query.read scope (first :: other)).start params = (.ok query, rest)) ∧
    (∀ (expr : QueryExpr) (params rest : List Param), Readable scope expr params rest ↔
      ∃ body, (Query.read scope (first :: body)).start params =
        (.ok (.matching expr), rest)) := by
  refine ⟨?_, ?_, ?_⟩
  · intro body expr params rest
    exact yields_read_by_iff_nested strategy free isBy
  · intro body other same query params rest
    exact same.yields_read_iff strategy isBy
  · intro expr params rest
    constructor
    · intro readable
      obtain ⟨body, derives⟩ := readable.exists_nested
      exact ⟨body, (yields_read_by_iff_nested strategy free isBy).mpr derives⟩
    · rintro ⟨body, reads⟩
      exact ((yields_read_by_iff_nested strategy free isBy).mp reads).readable

/-- A group in front of a connective, once with and once without brackets
around the whole. -/
theorem nested_query_language_left_group :
    let scope : Scope := {
      method := ⟨"Any", "", [], []⟩
      schema := ⟨"User", [⟨"Age", "age", .ident "int", none⟩]⟩
      config := Config.standard.withSplitStrategy .nested }
    let word (text : String) : Word := ⟨text, 0, 0⟩
    let body := ["Lb", "Age", "Equal", "Or", "Age", "Exists", "Rb", "And", "Age", "True"].map word
    let expr : QueryExpr := .node .and
      (.node .or (.leaf ⟨.equal, "age", ["age"]⟩) (.leaf ⟨.present, "age", []⟩))
      (.leaf ⟨.isTrue, "age", []⟩)
    let params : List Param := [⟨"age", .ident "int"⟩, ⟨"other", .ident "string"⟩]
    scope.config.splitStrategy = .nested ∧
      scope.schema.BracketFree ∧
      (word "By").keyword? = some .byQuery ∧
      Nested scope .expression body expr params (params.drop 1) ∧
      (Query.read scope (word "By" :: (word "Lb" :: body ++ [word "Rb"]))).start params =
        (.ok (.matching expr), params.drop 1) ∧
      Readable scope expr params (params.drop 1) := by
  intro scope word body expr params
  have free : scope.schema.BracketFree := by
    rw [Schema.bracketFree_iff]
    intro field member
    obtain rfl := List.mem_singleton.mp member
    exact ⟨by decide, by simp⟩
  have reads : (Query.read scope (word "By" :: body)).start params =
      (.ok (.matching expr), params.drop 1) := by
    apply Prod.ext
    · apply except_toOption_eq_some_iff.mp
      decide +kernel
    · decide +kernel
  have isBy : (word "By").keyword? = some .byQuery := by decide
  obtain ⟨derived, grouping, expressible⟩ := nested_query_language rfl free isBy
  have same : SameGrouping (word "Lb" :: body ++ [word "Rb"]) body :=
    .wrap rfl rfl rfl (by simp [body])
  exact ⟨rfl, free, isBy, (derived _ _ _ _).mp reads, (grouping _ _ same _ _ _).mpr reads,
    (expressible _ _ _).mpr ⟨body, reads⟩⟩

end QueryGrammar
end DerivedQuery
