import DerivedQuery.Proofs.Comparison.Batch
import DerivedQuery.Proofs.Comparison.Search

/-!
# Compiled methods side by side

Methods that are compared compile together or fail together. Comparing methods
that differ in parameter names shows that names are opaque: an operation only
passes them on, each in the place where its parameter is bound.
-/

namespace DerivedQuery

/-- A word that starts no clause does not take part in relabeling. -/
theorem Find.relabel_cons
    {word : Word}
    (within : startsClause word = false)
    (words : List Word)
    (find : Find) :
    find.relabel (word :: words) = find.relabel words := by
  simp only [relabel, List.foldlM_cons, relabelClause_eq_pure within, pure_bind]

namespace Comparison

variable {comparison : Comparison}
variable {run twin : List Word}

theorem alike_operation (runs : comparison.Runs run twin) :
    comparison.Alike (Relabels (Operation.relabel run))
      (Operation.read comparison.scope run) (Operation.read comparison.otherScope twin) := by
  obtain rfl := runs.twin_eq
  cases run with
  | nil => exact alike_throw (faults_overall (.same _))
  | cons first rest =>
      have restRuns := runs.tail
      simp only [List.map_cons, Operation.read, comparison.text_move]
      split
      · exact alike_refuse (runs.take 1) (.same _)
      · rename_i kind named
        cases kind with
        | insert => exact (alike_insert restRuns .standalone).then_pure fun _ => rfl
        | find =>
            apply (alike_find restRuns).then_pure
            intro find
            have within := Find.startsClause_eq_false_of_ofName? named
            rw [Operation.relabel, Find.relabel_cons within]
        | update => exact (alike_update restRuns .standalone).then_pure fun _ => rfl
        | delete => exact (alike_delete restRuns .standalone).then_pure fun _ => rfl
        | count => exact (alike_count restRuns).then_pure fun _ => rfl
        | transaction => exact (alike_transaction restRuns).then_pure fun _ => rfl
        | bulk => exact (alike_bulk restRuns .standalone).then_pure fun _ => rfl

/-- Errors of both methods for the same reason about runs in the same place. -/
structure MethodErrors (comparison : Comparison) (error twin : MethodError) : Prop where
  method_eq : error.method = comparison.scope.method.name
  twin_method_eq : twin.method = comparison.scope.method.name
  faults : comparison.Faults error.fault twin.fault

/-- If the words that are compared are those of the descriptors, both methods
compile or both fail. -/
theorem results_compile
    (comparison : Comparison)
    (words_eq : comparison.words = Word.segment comparison.scope.method.descriptor)
    (twin_eq : comparison.words.map comparison.move = Word.segment comparison.other.descriptor) :
    Results comparison.MethodErrors
      (fun operation twin =>
        operation.withNames comparison.words (comparison.other.params.map Param.name) = twin)
      (comparison.scope.method.compile comparison.scope.schema comparison.scope.config)
      (comparison.other.compile comparison.scope.schema comparison.scope.config) := by
  have runs : comparison.Runs comparison.words (comparison.words.map comparison.move) :=
    ⟨List.infix_rfl, rfl⟩
  have outcomes := alike_operation runs _ _ comparison.params_pair
  unfold Method.compile Scope.start
  rw [← words_eq, ← twin_eq]
  change Results _ _
    (((Operation.read comparison.scope comparison.words).start
      comparison.scope.method.params).1.mapError (MethodError.mk comparison.scope.method.name))
    (((Operation.read comparison.otherScope (comparison.words.map comparison.move)).start
      comparison.other.params).1.mapError (MethodError.mk comparison.other.name))
  generalize (Operation.read comparison.scope _).start _ = outcome at outcomes ⊢
  generalize (Operation.read comparison.otherScope _).start _ = twinOutcome at outcomes ⊢
  cases outcomes with
  | error faults => exact .error ⟨rfl, comparison.name_eq, faults⟩
  | ok twins_eq pairs takes =>
      apply Results.ok
      rw [twins_eq, List.map_append]
      exact Operation.withNames_of_takes takes _

end Comparison

/-! ## Parameter names -/

namespace Method

/-- Parameters of one type, and of one name if descriptors can refer to it. -/
structure ParamsAlike (config : Config) (param twin : Param) : Prop where
  type_eq : twin.type = param.type
  name_eq : param.type = config.collectionType -> twin.name = param.name

/-- Methods that differ in the names of parameters and in nothing else. The
names of collections are the same. -/
structure Renamed (config : Config) (method other : Method) : Prop where
  name_eq : other.name = method.name
  descriptor_eq : other.descriptor = method.descriptor
  returns_eq : other.returns = method.returns
  params_alike : List.Forall₂ (ParamsAlike config) method.params other.params

variable {method other : Method}
variable {schema : Schema}
variable {config : Config}

/-- The comparison of methods that differ in parameter names. -/
def Renamed.comparison
    (renamed : Renamed config method other)
    (schema : Schema) : Comparison where
  scope := ⟨method, schema, config⟩
  other := other
  words := Word.segment method.descriptor
  move := id
  Pairs := ParamsAlike config
  name_eq := renamed.name_eq
  returns_eq := renamed.returns_eq
  params_pair := renamed.params_alike
  text_move _ := rfl
  type_eq alike := alike.type_eq
  collection_eq {param twin} alike isCollection := by
    obtain ⟨name, type⟩ := param
    obtain ⟨twinName, twinType⟩ := twin
    obtain rfl : twinType = type := alike.type_eq
    obtain rfl : twinName = name := alike.name_eq isCollection
    rfl

theorem Renamed.results_compile
    (renamed : Renamed config method other)
    (schema : Schema) :
    Comparison.Results (renamed.comparison schema).MethodErrors
      (fun operation twin =>
        operation.withNames (Word.segment method.descriptor) (other.params.map Param.name) = twin)
      (method.compile schema config) (other.compile schema config) := by
  apply (renamed.comparison schema).results_compile rfl
  change (Word.segment method.descriptor).map id = Word.segment other.descriptor
  rw [List.map_id, renamed.descriptor_eq]

/-- Parameter names are opaque. A method compiles if the same method with other
names does, and to the same operation with the other names, each in the place
where the parameter was bound; or both fail for the same kind of reason at the
same words. -/
theorem compile_renamed_params
    (method other : Method)
    (schema : Schema)
    (config : Config)
    (renamed : Renamed config method other) :
    ((∃ operation, method.compile schema config = .ok operation) ↔
      ∃ operation, other.compile schema config = .ok operation) ∧
    (∀ error twin, method.compile schema config = .error error ->
      other.compile schema config = .error twin ->
        twin.kind = error.kind ∧ twin.fault.span = error.fault.span) ∧
    (∀ operation, method.compile schema config = .ok operation ->
      other.compile schema config = .ok
        (operation.withNames (Word.segment method.descriptor)
          (other.params.map Param.name))) := by
  have results := renamed.results_compile schema
  generalize method.compile schema config = outcome at results ⊢
  generalize other.compile schema config = twinOutcome at results ⊢
  cases results with
  | @ok operation twin same =>
      refine ⟨⟨fun _ => ⟨twin, rfl⟩, fun _ => ⟨operation, rfl⟩⟩, ?_, ?_⟩
      · intro error other failed
        cases failed
      · intro compiled found
        rw [← Except.ok.inj found, same]
  | @error error twin related =>
      refine ⟨⟨fun found => by simp at found, fun found => by simp at found⟩, ?_, ?_⟩
      · intro first second failed twinFailed
        cases failed
        cases twinFailed
        obtain ⟨causes, run, twinRun, runs, span_eq, twinSpan_eq⟩ := related.faults
        have run_eq : twinRun = run := runs.twin_eq.trans (List.map_id run)
        exact ⟨causes.kind_eq, by rw [span_eq, twinSpan_eq, run_eq]⟩
      · intro compiled found
        cases found

/-- Two parameters of one name, and clauses in another order than that of the
record. -/
theorem compile_renamed_params_limit_first :
    let schema : Schema := ⟨"User", [⟨"Age", "age", .ident "int", none⟩]⟩
    let params (names : List String) : List Param := names.zipWith Param.mk
      [.selector "context" "Context", .ident "int64", .ident "int", .ident "int", .ident "int64"]
    let method : Method := {
      name := "Page"
      descriptor := "FindLimitByAgeBetweenSkip"
      params := params ["ctx", "limit", "low", "high", "skip"]
      returns := [.slice (.ident "User"), .ident "error"] }
    let other : Method := { method with params := params ["c", "n", "age", "age", "c"] }
    let operation (context skip limit low high : String) : Operation := .find {
      method := "Page"
      mode := .many
      context := context
      returnType := .slice (.ident "User")
      projection := []
      sort := []
      skip := some skip
      limit := some limit
      query := .matching (.leaf ⟨.between, "age", [low, high]⟩) }
    method.compile schema Config.standard =
        .ok (operation "ctx" "skip" "limit" "low" "high") ∧
      Renamed Config.standard method other ∧
      other.compile schema Config.standard = .ok (operation "c" "c" "n" "age" "age") := by
  intro schema params method other operation
  have compiled : method.compile schema Config.standard =
      .ok (operation "ctx" "skip" "limit" "low" "high") := by
    apply except_toOption_eq_some_iff.mp
    decide +kernel
  have renamed : Renamed Config.standard method other := by
    refine ⟨rfl, rfl, rfl, ?_⟩
    repeat' constructor
    all_goals nofun
  have replaced : (operation "ctx" "skip" "limit" "low" "high").withNames
      (Word.segment method.descriptor) (other.params.map Param.name) =
        operation "c" "c" "n" "age" "age" := by
    decide +kernel
  obtain ⟨-, -, compiles⟩ := compile_renamed_params method other schema Config.standard renamed
  exact ⟨compiled, renamed, replaced ▸ compiles _ compiled⟩

end Method

end DerivedQuery
