import DerivedQuery.Proofs.Comparison
import DerivedQuery.Proofs.FieldReading
import DerivedQuery.Proofs.QueryReader

/-!
# Words in the same place

Field paths, brackets and connectives are found by the texts of words alone.
Runs in the same place are therefore cut into parts in the same place, and
where one of them cannot be cut, neither can the other.
-/

namespace DerivedQuery

/-! ## Field paths -/

namespace FieldPath

theorem spelled?_of_texts_eq
    {run twin : List Word}
    (same : Word.texts twin = Word.texts run)
    (name : List Char) :
    spelled? name twin = spelled? name run := by
  induction run generalizing twin name with
  | nil =>
      obtain rfl := List.map_eq_nil_iff.mp same
      rfl
  | cons word rest hypothesis =>
      obtain ⟨twinWord, twinRest, rfl, text_eq, rest_eq⟩ := List.map_eq_cons_iff.mp same
      simp only [spelled?, text_eq, hypothesis rest_eq]

end FieldPath

namespace Schema

theorem fieldsCandidates_eq_flatMap
    (fields : List Field)
    (words : List Word) :
    fieldsCandidates fields words = fields.flatMap (fieldCandidates · words) := by
  induction fields with
  | nil => rfl
  | cons field rest hypothesis => rw [fieldsCandidates, hypothesis, List.flatMap_cons]

/-- The candidates of a run are told by its texts, at any level of nesting. -/
theorem candidates_of_texts_eq
    (schema : Schema)
    {run twin : List Word}
    (same : Word.texts twin = Word.texts run) :
    schema.candidates twin = schema.candidates run := by
  induction schema using nestedInduction generalizing run twin with
  | step schema hypothesis =>
      rw [candidates_eq, candidates_eq, fieldsCandidates_eq_flatMap, fieldsCandidates_eq_flatMap]
      congr 1
      apply List.flatMap_congr
      intro field member
      have spelled_eq := FieldPath.spelled?_of_texts_eq same field.name.toList
      cases counted : FieldPath.spelled? field.name.toList run with
      | none => rw [fieldCandidates_of_none counted,
          fieldCandidates_of_none (spelled_eq.trans counted)]
      | some count =>
          have dropped : Word.texts (twin.drop count) = Word.texts (run.drop count) := by
            rw [Word.texts, List.map_drop, ← Word.texts, same, Word.texts, ← List.map_drop,
              ← Word.texts]
          have inner : nestedCandidates field.nested (twin.drop count) =
              nestedCandidates field.nested (run.drop count) := by
            cases nested : field.nested with
            | none => rfl
            | some inner => exact hypothesis field member inner nested dropped
          rw [fieldCandidates_of_some counted,
            fieldCandidates_of_some (spelled_eq.trans counted), inner]

end Schema

theorem FieldPath.covers_of_texts_eq
    (schema : Schema)
    {run twin : List Word}
    (same : Word.texts twin = Word.texts run) :
    covers schema twin = covers schema run := by
  induction run generalizing twin with
  | nil =>
      obtain rfl := List.map_eq_nil_iff.mp same
      rfl
  | cons word rest hypothesis =>
      have candidates_eq := schema.candidates_of_texts_eq same
      obtain ⟨twinWord, twinRest, rfl, text_eq, rest_eq⟩ := List.map_eq_cons_iff.mp same
      simp only [covers, hypothesis rest_eq, candidates_eq]

theorem Word.runSpan?_singleton (word : Word) : runSpan? [word] = some word.span := by
  simp [runSpan?, Span.merge]

namespace Comparison

variable {comparison : Comparison}
variable {run twin : List Word}

/-- Resolution errors about runs in the same place. -/
def ResolveErrors (comparison : Comparison) (error other : ResolveError) : Prop :=
  comparison.Faults error.fault other.fault

theorem results_resolveAll
    (runs : comparison.Runs run twin)
    (schema : Schema) :
    Results comparison.ResolveErrors (fun paths twins => paths = twins)
      (FieldPath.resolveAll schema run) (FieldPath.resolveAll schema twin) := by
  simp only [FieldPath.resolveAll, FieldPath.cover,
    FieldPath.covers_of_texts_eq schema runs.texts_eq, runs.isEmpty_eq]
  split
  · exact .error (faults_overall (.same .noFieldWords))
  · split
    · exact .ok rfl
    · rename_i offset _
      have rest := runs.drop offset
      rw [rest.texts_eq]
      exact .error (faults_on rest (.same _))

theorem results_resolve
    (runs : comparison.Runs run twin)
    (schema : Schema) :
    Results comparison.ResolveErrors (fun path twin => path = twin)
      (FieldPath.resolve schema run) (FieldPath.resolve schema twin) := by
  simp only [FieldPath.resolve, schema.candidates_of_texts_eq runs.texts_eq, runs.isEmpty_eq,
    runs.length_eq]
  split
  · exact .error (faults_overall (.same .noFieldWords))
  · split
    · exact .ok rfl
    · have results := results_resolveAll runs schema
      generalize FieldPath.resolveAll schema run = outcome at results
      generalize FieldPath.resolveAll schema twin = twinOutcome at results
      cases results with
      | error related => exact .error related
      | ok same =>
          rw [runs.texts_eq]
          exact .error (faults_on runs (.same _))

/-! ## Brackets -/

/-- Split errors at words in the same place. -/
def SplitErrors (comparison : Comparison) (error other : SplitError) : Prop :=
  comparison.Faults error.fault other.fault

theorem runs_singleton
    {word : Word}
    (member : word ∈ comparison.words) :
    comparison.Runs [word] [comparison.move word] := by
  obtain ⟨front, back, words_eq⟩ := List.append_of_mem member
  exact ⟨⟨front, back, by simp [words_eq]⟩, rfl⟩

theorem splitErrors_unbalanced
    {word : Word}
    (member : word ∈ comparison.words) :
    comparison.SplitErrors (.unbalanced word.span) (.unbalanced (comparison.move word).span) :=
  ⟨.same _, [word], _, runs_singleton member, (Word.runSpan?_singleton word).symm,
    (Word.runSpan?_singleton _).symm⟩

theorem splitErrors_dangling
    {word : Word}
    (member : word ∈ comparison.words) :
    comparison.SplitErrors (.dangling word.span) (.dangling (comparison.move word).span) :=
  ⟨.same _, [word], _, runs_singleton member, (Word.runSpan?_singleton word).symm,
    (Word.runSpan?_singleton _).symm⟩

/-- The check goes through both runs in step, with the same brackets open. -/
theorem results_checkBehind
    {opened : List Word}
    (inRun : ∀ word ∈ run, word ∈ comparison.words)
    (inOpened : ∀ word ∈ opened, word ∈ comparison.words) :
    Results comparison.SplitErrors (fun _ _ => True)
      (Brackets.checkBehind opened run)
      (Brackets.checkBehind (opened.map comparison.move) (run.map comparison.move)) := by
  induction run generalizing opened with
  | nil =>
      cases opened with
      | nil => exact .ok trivial
      | cons unclosed outer =>
          exact .error (splitErrors_unbalanced (inOpened unclosed List.mem_cons_self))
  | cons word rest hypothesis =>
      rw [List.forall_mem_cons] at inRun
      rw [List.map_cons, Brackets.checkBehind_cons, Brackets.checkBehind_cons, is_move, is_move]
      split
      · exact hypothesis inRun.2 (List.forall_mem_cons.mpr ⟨inRun.1, inOpened⟩)
      · split
        · cases opened with
          | nil => exact .error (splitErrors_unbalanced inRun.1)
          | cons innermost outer =>
              exact hypothesis inRun.2 (List.forall_mem_cons.mp inOpened).2
        · exact hypothesis inRun.2 inOpened

theorem results_check (runs : comparison.Runs run twin) :
    Results comparison.SplitErrors (fun _ _ => True)
      (Brackets.check run) (Brackets.check twin) := by
  rw [runs.twin_eq]
  exact results_checkBehind (fun _ member => runs.part.subset member) (by simp)

theorem splitClosing_move
    (comparison : Comparison)
    (depth : Nat)
    (run : List Word) :
    Brackets.splitClosing depth (run.map comparison.move) =
      (Brackets.splitClosing depth run).map fun parts =>
        (parts.1.map comparison.move, parts.2.map comparison.move) := by
  induction run generalizing depth with
  | nil => rfl
  | cons word rest hypothesis =>
      have behind (depth : Nat) :
          ((Brackets.splitClosing depth (rest.map comparison.move)).map fun parts =>
              (comparison.move word :: parts.1, parts.2)) =
            ((Brackets.splitClosing depth rest).map fun parts =>
              (word :: parts.1, parts.2)).map fun parts =>
                (parts.1.map comparison.move, parts.2.map comparison.move) := by
        rw [hypothesis, Option.map_map, Option.map_map]
        rfl
      rw [List.map_cons]
      unfold Brackets.splitClosing
      rw [is_move, is_move]
      split
      · exact behind (depth + 1)
      · split
        · cases depth with
          | zero => rfl
          | succ depth => exact behind depth
        · exact behind depth

theorem isInfix_of_splitClosing
    {depth : Nat}
    {inside after : List Word}
    (divided : Brackets.splitClosing depth run = some (inside, after)) :
    inside <:+: run ∧ after <:+: run := by
  obtain ⟨closing, -, rfl, -⟩ := Brackets.splitClosing_eq_some_iff.mp divided
  constructor
  · exact (List.prefix_append inside _).isInfix
  · exact ⟨inside ++ [closing], [], by simp⟩

theorem inside?_move
    (comparison : Comparison)
    (run : List Word) :
    Brackets.inside? (run.map comparison.move) =
      (Brackets.inside? run).map (List.map comparison.move) := by
  cases run with
  | nil => rfl
  | cons first rest =>
      rw [List.map_cons, Brackets.inside?, Brackets.inside?, is_move, splitClosing_move]
      split
      · rcases Brackets.splitClosing 0 rest with _ | ⟨inside, _ | ⟨after, others⟩⟩ <;> rfl
      · rfl

theorem runs_unwrap (runs : comparison.Runs run twin) :
    comparison.Runs (Brackets.unwrap run) (Brackets.unwrap twin) := by
  obtain ⟨part, rfl⟩ := runs
  fun_induction Brackets.unwrap run with
  | case1 run inside wrapped hypothesis =>
      have within : inside <:+: run := by
        obtain ⟨opening, closing, -, -, rfl, -⟩ := Brackets.inside?_eq_some_iff.mp wrapped
        exact ⟨[opening], [closing], rfl⟩
      have twinWrapped := comparison.inside?_move run
      rw [wrapped, Option.map_some] at twinWrapped
      rw [Brackets.unwrap_of_inside? twinWrapped]
      exact hypothesis (within.trans part)
  | case2 run bare =>
      have twinBare := comparison.inside?_move run
      rw [bare, Option.map_none] at twinBare
      rw [Brackets.unwrap_eq_self twinBare]
      exact ⟨part, rfl⟩

/-! ## Connectives -/

@[simp] theorem isBracket_move (comparison : Comparison) (word : Word) :
    (comparison.move word).isBracket = word.isBracket := by
  rw [Word.isBracket, is_move, is_move, Word.isBracket]

@[simp] theorem connective?_move (comparison : Comparison) (word : Word) :
    (comparison.move word).connective? = word.connective? := by
  rw [Word.connective?, keyword?_move, Word.connective?]

/-- Connectives found in the same place. -/
structure Founds (comparison : Comparison) (found twin : Split.Found) : Prop where
  before_eq : twin.before = found.before.map comparison.move
  connective_eq : twin.connective = found.connective
  after_eq : twin.after = found.after.map comparison.move
  depth_eq : twin.depth = found.depth
  dangling : comparison.SplitErrors (.dangling found.span) (.dangling twin.span)

/-- Searches that end in the same way. -/
abbrev Searches
    (comparison : Comparison)
    (search twinSearch : Except SplitError (Option Split.Found)) : Prop :=
  Results comparison.SplitErrors (Option.Rel comparison.Founds) search twinSearch

theorem Searches.behind
    {search twinSearch : Except SplitError (Option Split.Found)}
    (searches : comparison.Searches search twinSearch)
    (word : Word) :
    comparison.Searches (Split.behind word search)
      (Split.behind (comparison.move word) twinSearch) := by
  cases searches with
  | error related => exact .error related
  | ok found =>
      cases found with
      | none => exact .ok .none
      | some founds =>
          refine .ok (.some ⟨?_, founds.connective_eq, founds.after_eq, founds.depth_eq,
            founds.dangling⟩)
          exact congrArg (comparison.move word :: ·) founds.before_eq

theorem searches_findConnective
    (inRun : ∀ word ∈ run, word ∈ comparison.words)
    (limit depth : Nat) :
    comparison.Searches (Split.findConnective limit depth run)
      (Split.findConnective limit depth (run.map comparison.move)) := by
  induction run generalizing depth with
  | nil => exact .ok .none
  | cons word rest hypothesis =>
      rw [List.forall_mem_cons] at inRun
      have further (depth : Nat) := hypothesis inRun.2 depth
      rw [List.map_cons]
      rcases word.bracket_cases with opens | closes | other
      · rw [Split.findConnective_opens opens, Split.findConnective_opens (by simpa using opens)]
        exact (further _).behind word
      · have twinCloses : (comparison.move word).is .rightBracket := by simpa using closes
        cases depth with
        | zero =>
            rw [Split.findConnective_closes_zero closes,
              Split.findConnective_closes_zero twinCloses]
            exact .error (splitErrors_unbalanced inRun.1)
        | succ depth =>
            rw [Split.findConnective_closes_succ closes,
              Split.findConnective_closes_succ twinCloses]
            exact (further _).behind word
      · rw [Split.findConnective_other other, Split.findConnective_other (by simpa using other),
          connective?_move]
        split
        · split
          · exact .ok (.some ⟨rfl, rfl, rfl, rfl, splitErrors_dangling inRun.1⟩)
          · exact (further _).behind word
        · exact (further _).behind word

/-- The words on both sides of a connective are in the same place. -/
theorem Founds.runs
    {limit depth : Nat}
    {found twinFound : Split.Found}
    (founds : comparison.Founds found twinFound)
    (runs : comparison.Runs run twin)
    (search : Split.findConnective limit depth run = .ok (some found)) :
    comparison.Runs found.before twinFound.before ∧
      comparison.Runs found.after twinFound.after := by
  obtain ⟨word, run_eq, -⟩ := Split.foundIn_of_findConnective search
  rw [founds.before_eq, founds.after_eq]
  subst run_eq
  constructor
  · exact runs.of_isInfix (List.prefix_append found.before _).isInfix
  · exact runs.of_isInfix ⟨found.before ++ [word], [], by simp⟩

/-- Runs that are divided in the same place, or not at all. -/
inductive Splits (comparison : Comparison) : Split -> Split -> Prop
  | leaf
      {run twin : List Word}
      (runs : comparison.Runs run twin) :
      Splits comparison (.leaf run) (.leaf twin)
  | divided
      (connective : Connective)
      {left twinLeft right twinRight : List Word}
      (leftRuns : comparison.Runs left twinLeft)
      (rightRuns : comparison.Runs right twinRight) :
      Splits comparison (.divided connective left right)
        (.divided connective twinLeft twinRight)

theorem results_legacy (runs : comparison.Runs run twin) :
    Results comparison.SplitErrors comparison.Splits (Split.legacy run) (Split.legacy twin) := by
  have searches := searches_findConnective (fun _ member => runs.part.subset member) 1 0
  rw [← runs.twin_eq] at searches
  unfold Split.legacy
  generalize search : Split.findConnective 1 0 run = outcome at searches ⊢
  generalize Split.findConnective 1 0 twin = twinOutcome at searches ⊢
  cases searches with
  | error related => exact .error related
  | ok found =>
      cases found with
      | none => exact .ok (.leaf runs)
      | some founds =>
          obtain ⟨before, after⟩ := founds.runs runs search
          simp only [after.isEmpty_eq, founds.depth_eq, founds.connective_eq]
          split
          · exact .error founds.dangling
          · split
            · exact .ok (.divided _ (before.drop 1) after.dropLast)
            · exact .ok (.divided _ before after)

theorem results_nested (runs : comparison.Runs run twin) :
    Results comparison.SplitErrors comparison.Splits (Split.nested run) (Split.nested twin) := by
  have inner := runs_unwrap runs
  have searches := searches_findConnective (fun _ member => inner.part.subset member) 0 0
  rw [← inner.twin_eq] at searches
  unfold Split.nested
  dsimp only
  generalize search : Split.findConnective 0 0 (Brackets.unwrap run) = outcome at searches ⊢
  generalize Split.findConnective 0 0 (Brackets.unwrap twin) = twinOutcome at searches ⊢
  cases searches with
  | error related => exact .error related
  | ok found =>
      cases found with
      | none => exact .ok (.leaf inner)
      | some founds =>
          obtain ⟨before, after⟩ := founds.runs inner search
          simp only [after.isEmpty_eq, founds.connective_eq]
          split
          · exact .error founds.dangling
          · exact .ok (.divided _ before after)

theorem results_split
    (runs : comparison.Runs run twin)
    (strategy : SplitStrategy) :
    Results comparison.SplitErrors comparison.Splits
      (strategy.split run) (strategy.split twin) := by
  cases strategy with
  | legacy => exact results_legacy runs
  | nested => exact results_nested runs

/-- Outlines of the same shape over runs in the same place. -/
inductive Outlines (comparison : Comparison) : Outline -> Outline -> Prop
  | leaf
      {run twin : List Word}
      (runs : comparison.Runs run twin) :
      Outlines comparison (.leaf run) (.leaf twin)
  | node
      (connective : Connective)
      {left twinLeft right twinRight : Outline}
      (leftOutlines : Outlines comparison left twinLeft)
      (rightOutlines : Outlines comparison right twinRight) :
      Outlines comparison (.node connective left right) (.node connective twinLeft twinRight)
  | broken
      {error other : SplitError}
      (related : comparison.SplitErrors error other) :
      Outlines comparison (.broken error) (.broken other)

theorem outlines_ofRun
    (runs : comparison.Runs run twin)
    (strategy : SplitStrategy) :
    comparison.Outlines (Outline.ofRun strategy run) (Outline.ofRun strategy twin) := by
  fun_induction Outline.ofRun strategy run generalizing twin with
  | case1 run error broken =>
      have results := results_split runs strategy
      rw [Outline.ofRun_eq strategy twin]
      rw [broken] at results
      generalize strategy.split twin = outcome at results ⊢
      cases results with
      | error related => exact .broken related
  | case2 run inner leaf =>
      have results := results_split runs strategy
      rw [Outline.ofRun_eq strategy twin]
      rw [leaf] at results
      generalize strategy.split twin = outcome at results ⊢
      cases results with
      | ok splits =>
          cases splits with
          | leaf innerRuns => exact .leaf innerRuns
  | case3 run connective left right divided leftHypothesis rightHypothesis =>
      have results := results_split runs strategy
      rw [Outline.ofRun_eq strategy twin]
      rw [divided] at results
      generalize strategy.split twin = outcome at results ⊢
      cases results with
      | ok splits =>
          cases splits with
          | divided connective leftRuns rightRuns =>
              exact .node connective (leftHypothesis leftRuns) (rightHypothesis rightRuns)

end Comparison

end DerivedQuery
