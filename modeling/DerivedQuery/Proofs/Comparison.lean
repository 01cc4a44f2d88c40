import DerivedQuery.Proofs.OperationReader
import DerivedQuery.Proofs.Relabeling
import DerivedQuery.Proofs.Signature
import Mathlib.Data.List.Forall2
import Mathlib.Data.List.Infix

/-!
# Methods compiled side by side

Two methods are compared whose descriptors have the same words, apart from
where these stand, and whose parameters have the same types, apart from their
names. Readers are alike if they go through both in step: both fail with the
same kind of fault at the same words, or both succeed with values that differ
in parameter names only. Sequencing keeps readers alike, so no later proof runs
a reader.
-/

namespace DerivedQuery

/-- Two methods that are compiled with the same schema and configuration. -/
structure Comparison where
  /-- The first method and what it is compiled with. -/
  scope : Scope
  other : Method
  /-- The words of the first descriptor. -/
  words : List Word
  /-- The word of the other descriptor in the place of a word of the first. -/
  move : Word -> Word
  /-- Parameters that may stand in one place. -/
  Pairs : Param -> Param -> Prop
  name_eq : other.name = scope.method.name
  returns_eq : other.returns = scope.method.returns
  params_pair : List.Forall₂ Pairs scope.method.params other.params
  text_move : ∀ word, (move word).text = word.text
  type_eq : ∀ {param twin}, Pairs param twin -> twin.type = param.type
  /-- The names of collections are more than names: descriptors refer to them. -/
  collection_eq : ∀ {param twin}, Pairs param twin ->
    param.type = scope.config.collectionType -> twin = param

namespace Comparison

variable (comparison : Comparison)

/-- What the other method is compiled with. -/
def otherScope : Scope :=
  { comparison.scope with method := comparison.other }

@[simp] theorem otherScope_schema : comparison.otherScope.schema = comparison.scope.schema := rfl

@[simp] theorem otherScope_name :
    comparison.otherScope.method.name = comparison.scope.method.name :=
  comparison.name_eq

/-! ## Words -/

@[simp] theorem keyword?_move (word : Word) :
    (comparison.move word).keyword? = word.keyword? := by
  rw [Word.keyword?, comparison.text_move, Word.keyword?]

@[simp] theorem is_move (word : Word) (keyword : Keyword) :
    (comparison.move word).is keyword = word.is keyword := by
  rw [Word.is, keyword?_move, Word.is]

/-- A run of the first descriptor and the run of the other in its place. -/
structure Runs (run twin : List Word) : Prop where
  part : run <:+: comparison.words
  twin_eq : twin = run.map comparison.move

variable {comparison : Comparison}
variable {run twin : List Word}

namespace Runs

/-- Parts of runs stand in the same place. -/
theorem of_isInfix
    {inner : List Word}
    (runs : comparison.Runs run twin)
    (within : inner <:+: run) :
    comparison.Runs inner (inner.map comparison.move) :=
  ⟨within.trans runs.part, rfl⟩

theorem texts_eq (runs : comparison.Runs run twin) : Word.texts twin = Word.texts run := by
  rw [runs.twin_eq, Word.texts, List.map_map, Word.texts]
  apply List.map_congr_left
  intro word _
  exact comparison.text_move word

theorem length_eq (runs : comparison.Runs run twin) : twin.length = run.length := by
  rw [runs.twin_eq, List.length_map]

theorem isEmpty_eq (runs : comparison.Runs run twin) : twin.isEmpty = run.isEmpty := by
  rw [runs.twin_eq, List.isEmpty_map]

theorem take (runs : comparison.Runs run twin) (count : Nat) :
    comparison.Runs (run.take count) (twin.take count) := by
  rw [runs.twin_eq, ← List.map_take]
  exact runs.of_isInfix (run.take_prefix count).isInfix

theorem drop (runs : comparison.Runs run twin) (count : Nat) :
    comparison.Runs (run.drop count) (twin.drop count) := by
  rw [runs.twin_eq, ← List.map_drop]
  exact runs.of_isInfix (run.drop_suffix count).isInfix

theorem tail
    {word twinWord : Word}
    (runs : comparison.Runs (word :: run) (twinWord :: twin)) :
    comparison.Runs run twin :=
  runs.drop 1

theorem dropLast (runs : comparison.Runs run twin) :
    comparison.Runs run.dropLast twin.dropLast := by
  rw [runs.twin_eq, ← List.map_dropLast]
  exact runs.of_isInfix run.dropLast_prefix.isInfix

/-- A test that words pass by their texts cuts both runs in the same place. -/
theorem takeWhile
    (runs : comparison.Runs run twin)
    (test : Word -> Bool)
    (blind : ∀ word, test (comparison.move word) = test word) :
    comparison.Runs (run.takeWhile test) (twin.takeWhile test) := by
  have sameTest : test ∘ comparison.move = test := funext blind
  rw [runs.twin_eq, List.takeWhile_map, sameTest]
  exact runs.of_isInfix (run.takeWhile_prefix test).isInfix

theorem dropWhile
    (runs : comparison.Runs run twin)
    (test : Word -> Bool)
    (blind : ∀ word, test (comparison.move word) = test word) :
    comparison.Runs (run.dropWhile test) (twin.dropWhile test) := by
  have sameTest : test ∘ comparison.move = test := funext blind
  rw [runs.twin_eq, List.dropWhile_map, sameTest]
  exact runs.of_isInfix (run.dropWhile_suffix test).isInfix

end Runs

/-! ## Faults -/

/-- Causes that differ at most in the parameter they name. -/
inductive Causes (comparison : Comparison) : Cause -> Cause -> Prop
  | same (cause : Cause) : Causes comparison cause cause
  | naming
      (causeOf : Param -> Cause)
      {param twin : Param}
      (pairs : comparison.Pairs param twin)
      (kind_eq : (causeOf twin).kind = (causeOf param).kind) :
      Causes comparison (causeOf param) (causeOf twin)

theorem Causes.kind_eq
    {cause other : Cause}
    (causes : comparison.Causes cause other) :
    other.kind = cause.kind := by
  cases causes with
  | same cause => rfl
  | naming causeOf pairs kind_eq => exact kind_eq

/-- Faults for the same reason about runs in the same place. -/
structure Faults (comparison : Comparison) (fault other : Fault) : Prop where
  causes : comparison.Causes fault.cause other.cause
  located : ∃ run twin, comparison.Runs run twin ∧
    fault.span = Word.runSpan? run ∧ other.span = Word.runSpan? twin

theorem faults_on
    {cause other : Cause}
    (runs : comparison.Runs run twin)
    (causes : comparison.Causes cause other) :
    comparison.Faults (Fault.on cause run) (Fault.on other twin) :=
  ⟨causes, run, twin, runs, rfl, rfl⟩

theorem faults_overall
    {cause other : Cause}
    (causes : comparison.Causes cause other) :
    comparison.Faults (Fault.overall cause) (Fault.overall other) := by
  refine ⟨causes, [], [], ⟨List.nil_infix, rfl⟩, rfl, rfl⟩

/-! ## Results -/

section Results

variable {ε α β : Type}

/-- Results that are both related errors or both related values. -/
inductive Results
    (errors : ε -> ε -> Prop)
    (values : α -> α -> Prop) :
    Except ε α -> Except ε α -> Prop
  | ok
      {value twin : α}
      (same : values value twin) :
      Results errors values (.ok value) (.ok twin)
  | error
      {error other : ε}
      (related : errors error other) :
      Results errors values (.error error) (.error other)

/-- What two readers end with. The second has bound a share of its parameters,
and the parameters that are left pair up. -/
inductive Outcomes
    (comparison : Comparison)
    (values : α -> List String -> α -> Prop)
    (twins : List Param) :
    Except Fault α × List Param -> Except Fault α × List Param -> Prop
  | ok
      {value twin : α}
      {share rest twinRest : List Param}
      (twins_eq : twins = share ++ twinRest)
      (pairs : List.Forall₂ comparison.Pairs rest twinRest)
      (same : values value (share.map Param.name) twin) :
      Outcomes comparison values twins (.ok value, rest) (.ok twin, twinRest)
  | error
      {fault other : Fault}
      {rest twinRest : List Param}
      (faults : comparison.Faults fault other) :
      Outcomes comparison values twins (.error fault, rest) (.error other, twinRest)

/-- Readers that go in step through parameters that pair up. Their values are
related by way of the names that the second reader has bound. -/
def Alike
    (comparison : Comparison)
    (values : α -> List String -> α -> Prop)
    (first second : Binding α) : Prop :=
  ∀ params twins, List.Forall₂ comparison.Pairs params twins ->
    comparison.Outcomes values twins (first.start params) (second.start twins)

/-- Values of which the second is the first with other parameter names. -/
abbrev Relabels
    (relabel : α -> Relabeling α)
    (value : α)
    (names : List String)
    (twin : α) : Prop :=
  (relabel value).Takes names twin

variable {values : α -> List String -> α -> Prop}

theorem alike_pure
    {value twin : α}
    (same : values value [] twin) :
    comparison.Alike values (pure value) (pure twin) :=
  fun _ twins pairs => .ok (List.nil_append twins).symm pairs same

theorem alike_throw
    {fault other : Fault}
    (faults : comparison.Faults fault other) :
    comparison.Alike values (throw fault) (throw other) :=
  fun _ _ _ => .error faults

theorem alike_refuse
    {cause other : Cause}
    (runs : comparison.Runs run twin)
    (causes : comparison.Causes cause other) :
    comparison.Alike values (Binding.refuse cause run) (Binding.refuse other twin) :=
  alike_throw (faults_on runs causes)

theorem Alike.mono
    {weaker : α -> List String -> α -> Prop}
    {first second : Binding α}
    (alike : comparison.Alike values first second)
    (implies : ∀ value names twin, values value names twin -> weaker value names twin) :
    comparison.Alike weaker first second := by
  intro params twins pairs
  have outcomes := alike params twins pairs
  generalize first.start params = outcome at outcomes ⊢
  generalize second.start twins = twinOutcome at outcomes ⊢
  cases outcomes with
  | ok twins_eq restPairs same => exact .ok twins_eq restPairs (implies _ _ _ same)
  | error faults => exact .error faults

/-- Readers stay alike when they are followed by readers that are alike
whenever the values found so far are related. -/
theorem Alike.bind
    {results : β -> List String -> β -> Prop}
    {first second : Binding α}
    {next follow : α -> Binding β}
    (alike : comparison.Alike values first second)
    (further : ∀ value names twin, values value names twin ->
      comparison.Alike (fun result more other => results result (names ++ more) other)
        (next value) (follow twin)) :
    comparison.Alike results (first >>= next) (second >>= follow) := by
  intro params twins pairs
  rw [Binding.start_bind, Binding.start_bind]
  have outcomes := alike params twins pairs
  generalize first.start params = outcome at outcomes
  generalize second.start twins = outcome' at outcomes
  cases outcomes with
  | error faults => exact .error faults
  | @ok value twin share rest twinRest twins_eq restPairs same =>
      have furtherOutcomes := further value _ twin same rest twinRest restPairs
      dsimp only
      generalize (next value).start rest = outcome at furtherOutcomes
      generalize (follow twin).start twinRest = outcome' at furtherOutcomes
      cases furtherOutcomes with
      | error faults => exact .error faults
      | @ok result other more last twinLast twinRest_eq lastPairs related =>
          have parts : twins = (share ++ more) ++ twinLast := by
            rw [twins_eq, twinRest_eq, List.append_assoc]
          refine .ok parts lastPairs ?_
          rw [List.map_append]
          exact related

/-- Values that are wrapped in the same way are relabeled inside. -/
theorem Alike.then_pure
    {relabel : α -> Relabeling α}
    {relabelImage : β -> Relabeling β}
    {image : α -> β}
    {first second : Binding α}
    (alike : comparison.Alike (Relabels relabel) first second)
    (inside : ∀ value, relabelImage (image value) = do
      let value ← relabel value
      return image value) :
    comparison.Alike (Relabels relabelImage) (first >>= fun value => pure (image value))
      (second >>= fun value => pure (image value)) := by
  apply alike.bind
  intro value names twin takes
  apply alike_pure
  rw [Relabels, inside, List.append_nil]
  exact takes.then_pure image

theorem alike_ofResult
    {same : α -> α -> Prop}
    {outcome other : Except Fault α}
    (results : Results comparison.Faults same outcome other) :
    comparison.Alike (fun value names twin => names = [] ∧ same value twin)
      (Binding.ofResult outcome) (Binding.ofResult other) := by
  cases results with
  | ok related => exact alike_pure ⟨rfl, related⟩
  | error faults => exact alike_throw faults

/-- Errors are alike by the faults they stand for. -/
theorem alike_ofResult_mapError
    {same : α -> α -> Prop}
    (fault : ε -> Fault)
    {outcome other : Except ε α}
    (results : Results (fun error other => comparison.Faults (fault error) (fault other)) same
      outcome other) :
    comparison.Alike (fun value names twin => names = [] ∧ same value twin)
      (Binding.ofResult (outcome.mapError fault)) (Binding.ofResult (other.mapError fault)) := by
  cases results with
  | ok related => exact alike_pure ⟨rfl, related⟩
  | error faults => exact alike_throw faults

/-- Checks of the same signature end alike. -/
theorem alike_ofCheck
    {outcome other : Except Cause α}
    (same : other = outcome) :
    comparison.Alike (fun value names twin => names = [] ∧ value = twin)
      (Binding.ofCheck outcome) (Binding.ofCheck other) := by
  subst same
  cases other with
  | ok value => exact alike_pure ⟨rfl, rfl⟩
  | error cause => exact alike_throw (faults_overall (.same cause))

end Results

/-! ## Parameters -/

/-- Signatures are checked by types, which parameters that pair up share. -/
theorem agree (comparison : Comparison) :
    Signature.Agree comparison.scope.method comparison.other where
  types_eq := by
    have pairs := comparison.params_pair
    generalize comparison.scope.method.params = params at pairs
    generalize comparison.other.params = twins at pairs
    induction pairs with
    | nil => rfl
    | cons pair _ hypothesis =>
        rw [List.map_cons, List.map_cons, comparison.type_eq pair, hypothesis]
  returns_eq := comparison.returns_eq

theorem alike_takeContext :
    comparison.Alike (fun _ names twin => names = [twin])
      Binding.takeContext Binding.takeContext := by
  intro params twins pairs
  cases pairs with
  | nil => exact .error (faults_overall (.same _))
  | @cons param twin rest twinRest pair restPairs =>
      have parts : twin :: twinRest = [twin] ++ twinRest := rfl
      exact .ok parts restPairs rfl

theorem alike_takeParam (runs : comparison.Runs run twin) :
    comparison.Alike (fun param names twin => names = [twin.name] ∧ comparison.Pairs param twin)
      (Binding.takeParam run) (Binding.takeParam twin) := by
  intro params twins pairs
  cases pairs with
  | nil => exact .error (faults_on runs (.same _))
  | @cons param twin rest twinRest pair restPairs =>
      have parts : twin :: twinRest = [twin] ++ twinRest := rfl
      exact .ok parts restPairs ⟨rfl, pair⟩

/-- Parameters that pair up are all of one type, or the first that is not
stands in the same place. -/
theorem results_namesOfType
    {required : TypeExpr}
    {params twins : List Param}
    (runs : comparison.Runs run twin)
    (pairs : List.Forall₂ comparison.Pairs params twins) :
    Results comparison.Faults
      (fun names twinNames => twinNames = twins.map Param.name ∧ twinNames.length = names.length)
      (Binding.namesOfType required run params) (Binding.namesOfType required twin twins) := by
  induction pairs with
  | nil => exact .ok ⟨rfl, rfl⟩
  | @cons param twinParam rest twinRest pair restPairs hypothesis =>
      simp only [Binding.namesOfType, comparison.type_eq pair]
      by_cases typed : param.type = required
      · rw [if_pos typed, if_pos typed]
        generalize Binding.namesOfType required run rest = outcome at hypothesis
        generalize Binding.namesOfType required twin twinRest = twinOutcome at hypothesis
        cases hypothesis with
        | ok same =>
            obtain ⟨rfl, length_eq⟩ := same
            exact .ok ⟨rfl, congrArg (· + 1) length_eq⟩
        | error faults => exact .error faults
      · rw [if_neg typed, if_neg typed]
        apply Results.error
        apply faults_on runs
        exact .naming (fun other => .fieldType param.type other.name required) pair rfl

theorem alike_takeNames
    (runs : comparison.Runs run twin)
    (required : TypeExpr)
    (count : Nat) :
    comparison.Alike
      (fun names taken twinNames => taken = twinNames ∧ twinNames.length = names.length)
      (Binding.takeNames required count run) (Binding.takeNames required count twin) := by
  intro params twins pairs
  rw [Binding.start_takeNames, Binding.start_takeNames, pairs.length_eq]
  by_cases enough : count ≤ twins.length
  · rw [if_pos enough, if_pos enough]
    have results : Results comparison.Faults _ (Binding.namesOfType required _ _) _ :=
      results_namesOfType runs (List.forall₂_take count pairs)
    generalize Binding.namesOfType required run (params.take count) = outcome at results
    generalize Binding.namesOfType required twin (twins.take count) = twinOutcome at results
    cases results with
    | ok same =>
        have parts := (List.take_append_drop count twins).symm
        exact .ok parts (List.forall₂_drop count pairs) ⟨same.1.symm, same.2⟩
    | error faults => exact .error faults
  · rw [if_neg enough, if_neg enough]
    exact .error (faults_on runs (.same _))

theorem alike_ensureExhausted :
    comparison.Alike (fun _ names _ => names = [])
      Binding.ensureExhausted Binding.ensureExhausted := by
  intro params twins pairs
  cases pairs with
  | nil => exact .ok (List.nil_append []).symm .nil rfl
  | @cons param twin rest twinRest pair restPairs =>
      apply Outcomes.error
      apply faults_overall
      exact .naming (fun other => .unusedParams other.name) pair rfl

/-- Collections are the same parameters on both sides. -/
theorem alike_takeCollections :
    comparison.Alike (fun taken names twins => taken = twins ∧ names = taken.map Param.name)
      (Binding.takeWhileType comparison.scope.config.collectionType)
      (Binding.takeWhileType comparison.scope.config.collectionType) := by
  intro params twins pairs
  have same : twins.takeWhile (·.type == comparison.scope.config.collectionType) =
        params.takeWhile (·.type == comparison.scope.config.collectionType) ∧
      List.Forall₂ comparison.Pairs
        (params.dropWhile (·.type == comparison.scope.config.collectionType))
        (twins.dropWhile (·.type == comparison.scope.config.collectionType)) := by
    induction pairs with
    | nil => exact ⟨rfl, .nil⟩
    | @cons param twin rest twinRest pair restPairs hypothesis =>
        simp only [List.takeWhile_cons, List.dropWhile_cons, comparison.type_eq pair]
        by_cases isCollection : param.type = comparison.scope.config.collectionType
        · simp only [isCollection, beq_self_eq_true, if_true]
          rw [comparison.collection_eq pair isCollection, hypothesis.1]
          exact ⟨rfl, hypothesis.2⟩
        · simp only [beq_eq_false_iff_ne.mpr isCollection, Bool.false_eq_true, if_false]
          exact ⟨trivial, .cons pair restPairs⟩
  have parts := (List.takeWhile_append_dropWhile
    (p := (·.type == comparison.scope.config.collectionType)) (l := twins)).symm
  exact .ok parts same.2 ⟨same.1.symm, by rw [same.1]⟩

end Comparison

end DerivedQuery
