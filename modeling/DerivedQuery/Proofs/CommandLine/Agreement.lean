import DerivedQuery.Proofs.CommandLine.Check
import DerivedQuery.Proofs.WrittenResults

/-!
# Agreement of the commands

A file can be parsed as a whole or checked one interface after the other. Both
commands end with the same exit code and tell the same, but for the notice with
which a check closes a failing interface. What parsing prints can be read back:
it has one entry for each method, and exactly those of the reported methods are
errors.
-/

namespace DerivedQuery

/-! ## Printed entries -/

/-- Methods with the entries printed for them and the errors reported of them. -/
inductive Method.Printed (schema : Schema) (config : Config) :
    List Method -> List Json -> List MethodError -> Prop
  | nil : Printed schema config [] [] []
  | passed
      {method : Method}
      {methods : List Method}
      {operation : Operation}
      {entries : List Json}
      {errors : List MethodError}
      (compiles : method.compile schema config = .ok operation)
      (others : Printed schema config methods entries errors) :
      Printed schema config (method :: methods)
        (.tagged "Ok" (Operation.codec.write operation) :: entries) errors
  | failed
      {method : Method}
      {methods : List Method}
      {error : MethodError}
      {entries : List Json}
      {errors : List MethodError}
      (fails : method.compile schema config = .error error)
      (others : Printed schema config methods entries errors) :
      Printed schema config (method :: methods)
        (.tagged "Err" error.toJson :: entries) (error :: errors)

/-- Interfaces with the results printed for them and the errors reported of them. -/
inductive Interface.Printed (config : Config) :
    List Interface -> List Json -> List MethodError -> Prop
  | nil : Printed config [] [] []
  | cons
      {interface : Interface}
      {interfaces : List Interface}
      {entries results : List Json}
      {errors others : List MethodError}
      (methods : Method.Printed interface.schema config interface.methods entries errors)
      (further : Printed config interfaces results others) :
      Printed config (interface :: interfaces)
        (.object [("name", .string interface.name), ("results", .array entries)] :: results)
        (errors ++ others)

theorem Method.printed
    (schema : Schema)
    (config : Config)
    (methods : List Method) :
    Printed schema config methods
      ((methods.map (·.compile schema config)).map CompiledInterface.resultToJson)
      ((methods.map (·.compile schema config)).filterMap CompiledInterface.error?) := by
  induction methods with
  | nil => exact .nil
  | cons method methods hypothesis =>
      rw [List.map_cons]
      cases result : method.compile schema config with
      | ok operation => exact .passed result hypothesis
      | error error => exact .failed result hypothesis

theorem Interface.printed
    (config : Config)
    (interfaces : List Interface) :
    Printed config interfaces
      ((interfaces.map (·.compile config)).map CompiledInterface.toJson)
      ((interfaces.map (·.compile config)).flatMap CompiledInterface.errors) := by
  induction interfaces with
  | nil => exact .nil
  | cons interface interfaces hypothesis =>
      exact .cons (Method.printed interface.schema config interface.methods) hypothesis

theorem Interface.errors_compile_of_compiles
    (interface : Interface)
    (config : Config)
    (compiles : interface.Compiles config) :
    (interface.compile config).errors = [] := by
  rw [CompiledInterface.errors, List.filterMap_eq_nil_iff]
  refine List.forall_mem_map.2 ?_
  intro method member
  obtain ⟨operation, result⟩ := compiles method member
  rw [result]
  rfl

namespace CommandLine

/-! ## What both commands tell -/

namespace Notice

/-- The header of a report of a method. -/
def header? : Notice -> Option String
  | .failedMethod error => some (Notice.failedMethod error).render
  | _ => none

/-- Whether the notice closes the reports of an interface. -/
def isSummary : Notice -> Bool
  | .failedInterface .. => true
  | _ => false

end Notice

namespace Outcome

/-- The headers of the reports, in order. -/
def headers (outcome : Outcome) : List String :=
  outcome.notices.filterMap Notice.header?

/-- Both outcomes have the same exit code, and the second one adds nothing but
summaries to what the first one tells. -/
structure Agrees (first second : Outcome) : Prop where
  exitCode_eq : first.exitCode = second.exitCode
  notices_eq : first.notices = second.notices.filter fun notice => !notice.isSummary

namespace Agrees

theorem headers_eq
    {first second : Outcome}
    (agrees : first.Agrees second) :
    first.headers = second.headers := by
  rw [headers, agrees.notices_eq, List.filterMap_filter, headers]
  congr 1
  funext notice
  cases notice <;> rfl

theorem failure
    {notice : Notice}
    (kept : notice.isSummary = false) :
    (Outcome.failure notice).Agrees (Outcome.failure notice) where
  exitCode_eq := rfl
  notices_eq := by simp [Outcome.failure, kept]

theorem append
    {first second other another : Outcome}
    (agrees : first.Agrees second)
    (further : other.Agrees another) :
    (first.append other).Agrees (second.append another) where
  exitCode_eq := congrArg₂ max agrees.exitCode_eq further.exitCode_eq
  notices_eq := by
    simp only [Outcome.append, List.filter_append, agrees.notices_eq, further.notices_eq]

theorem concat_map
    {α : Type}
    {first second : α -> Outcome}
    (agrees : ∀ item, (first item).Agrees (second item))
    (items : List α) :
    (concat (items.map first)).Agrees (concat (items.map second)) := by
  induction items with
  | nil => exact ⟨rfl, rfl⟩
  | cons item items hypothesis => exact (agrees item).append hypothesis

theorem append_output
    {first second : Outcome}
    (agrees : first.Agrees second)
    (output : String) :
    (first.append { output := output }).Agrees second where
  exitCode_eq := (Nat.max_zero _).trans agrees.exitCode_eq
  notices_eq := (List.append_nil _).trans agrees.notices_eq

end Agrees

end Outcome

/-- Parsing reports the same methods of an interface as checking does. -/
theorem agrees_checkInterface
    (config : Config)
    (path : String)
    (interface : Interface) :
    Outcome.Agrees
      { exitCode := exitCodeOf (interface.compile config)
        notices := methodNotices (interface.compile config) }
      (checkInterface config path interface) := by
  by_cases compiles : interface.Compiles config
  · rw [checkInterface_of_compiles config path compiles]
    have ok := (interface.isOk_compile_iff config).mpr compiles
    have silent : methodNotices (interface.compile config) = [] := by
      rw [methodNotices, interface.errors_compile_of_compiles config compiles, List.map_nil]
    exact ⟨if_pos ok, silent⟩
  · rw [checkInterface_of_not_compiles config path compiles]
    have fails : ¬(interface.compile config).isOk = true :=
      fun ok => compiles ((interface.isOk_compile_iff config).mp ok)
    refine ⟨if_neg fails, ?_⟩
    rw [List.filter_append, List.filter_eq_self.2 (List.forall_mem_map.2 fun error _ => rfl)]
    exact (List.append_nil _).symm

theorem agrees_checkInput
    {config : Config}
    {input : Input}
    {file : InterfaceFile}
    (layout : Json.Layout)
    (reads : readInput input = .ok file) :
    (parseFile config layout file).Agrees (checkInput config input) := by
  rw [checkInput, reads]
  refine Outcome.Agrees.append_output ?_ _
  rw [InterfaceFile.compile, List.map_map]
  exact .concat_map (agrees_checkInterface config input.path) file.interfaces

theorem Outcome.concat_singleton (outcome : Outcome) : concat [outcome] = outcome := by
  simp [concat, append]

theorem Input.ofPaths_singleton
    {files : FileSystem}
    {path : String}
    (notDirectory : ∀ entries, files path ≠ some (.directory entries)) :
    ofPaths files [path] = [⟨path, files path⟩] := by
  rw [ofPaths, List.flatMap_singleton, ofPath]
  split
  · next entries leads => exact absurd leads (notDirectory entries)
  · rfl

theorem isSummary_of_loadConfig
    {files : FileSystem}
    {target : Target}
    {notice : Notice}
    (refuses : loadConfig files target = .error notice) :
    notice.isSummary = false := by
  have refused := except_map_eq_error_iff.mp refuses
  unfold readConfig at refused
  split at refused
  · cases refused
  · split at refused
    · cases refused
      rfl
    · obtain ⟨error, -, rfl⟩ := except_mapError_eq_error_iff.mp refused
      rfl

theorem readInput_of_decodes
    {input : Input}
    {text : String}
    {file : InterfaceFile}
    (hasText : input.text? = some text)
    (decodes : InterfaceFile.codec.ofText text = .ok file) :
    readInput input = .ok file := by
  simp only [readInput, hasText, decodes]
  rfl

theorem isSummary_of_readInput
    {input : Input}
    {notice : Notice}
    (refuses : readInput input = .error notice) :
    notice.isSummary = false := by
  unfold readInput at refuses
  split at refuses
  · cases refuses
    rfl
  · obtain ⟨error, -, rfl⟩ := except_mapError_eq_error_iff.mp refuses
    rfl

/-- A configuration or a file that cannot be read is told of by both commands. -/
theorem agrees_runCheck
    {files : FileSystem}
    {path : String}
    (pretty : Bool)
    (target : Target)
    (notDirectory : ∀ entries, files path ≠ some (.directory entries)) :
    (runParse files path pretty target).Agrees (runCheck files [path] target) := by
  unfold runParse runCheck
  cases configured : loadConfig files target with
  | error notice => exact .failure (isSummary_of_loadConfig configured)
  | ok config =>
      dsimp only
      rw [Input.ofPaths_singleton notDirectory, List.map_singleton, Outcome.concat_singleton]
      cases reads : readInput ⟨path, files path⟩ with
      | error notice =>
          rw [checkInput, reads]
          exact .failure (isSummary_of_readInput reads)
      | ok file => exact agrees_checkInput _ reads

/-! ## What parsing prints -/

namespace Outcome

theorem notices_concat (outcomes : List Outcome) :
    (concat outcomes).notices = outcomes.flatMap notices := by
  induction outcomes with
  | nil => rfl
  | cons first others hypothesis => rw [List.flatMap_cons, ← hypothesis, concat_cons, append]

theorem output_concat_eq_empty
    {outcomes : List Outcome}
    (silent : ∀ outcome ∈ outcomes, outcome.output = "") :
    (concat outcomes).output = "" := by
  induction outcomes with
  | nil => rfl
  | cons first others hypothesis =>
      rw [List.forall_mem_cons] at silent
      rw [concat_cons, append, silent.1, hypothesis silent.2, String.empty_append]

end Outcome

variable {config : Config}
variable {layout : Json.Layout}

theorem notices_parseFile (file : InterfaceFile) :
    (parseFile config layout file).notices =
      ((file.compile config).flatMap CompiledInterface.errors).map .failedMethod := by
  rw [parseFile, Outcome.append, Outcome.notices_concat, List.append_nil, List.flatMap_map,
    List.map_flatMap]
  rfl

/-- The printed text holds the results of the file. -/
theorem parse?_output_parseFile
    (blank : layout.Blank)
    (file : InterfaceFile) :
    Json.parse? (parseFile config layout file).output =
      some (.array ((file.compile config).map CompiledInterface.toJson)) := by
  have plain : (Json.array ((file.compile config).map CompiledInterface.toJson)).Plain :=
    .array (List.forall_mem_map.2 fun compiled _ => compiled.plain_toJson)
  rw [parseFile, Outcome.append, Outcome.output_concat_eq_empty, String.empty_append]
  · exact plain.parse?_render blank (by simp [Json.Token.isBlank])
  · exact List.forall_mem_map.2 fun _ _ => rfl

/-! ## The commands -/

/-- Parsing and checking the same file with the same options end with the same
exit code and print the same report headers, and apart from the summaries of
failing interfaces they tell the same. If the file decodes, then what parsing
prints can be read: it has an entry for each method in order, and the entries of
exactly the reported methods are errors. -/
theorem parse_agrees_with_check
    (files : FileSystem)
    (parseArguments checkArguments : List String)
    (path : String)
    (pretty : Bool)
    (target : Target)
    (asksParse : Command.read parseArguments = .ok (.parse path pretty target))
    (asksCheck : Command.read checkArguments = .ok (.check [path] target))
    (notDirectory : ∀ entries, files path ≠ some (.directory entries)) :
    (run files parseArguments).exitCode = (run files checkArguments).exitCode ∧
    (run files parseArguments).headers = (run files checkArguments).headers ∧
    (run files parseArguments).notices =
      (run files checkArguments).notices.filter (fun notice => !notice.isSummary) ∧
    ∀ config text file, loadConfig files target = .ok config ->
      (files path).bind FileTree.text? = some text -> InterfaceFile.codec.ofText text = .ok file ->
        ∃ results errors,
          Json.parse? (run files parseArguments).output = some (.array results) ∧
          Interface.Printed config file.interfaces results errors ∧
          (run files parseArguments).notices = errors.map .failedMethod := by
  have parses : run files parseArguments = runParse files path pretty target := by
    simp only [run, asksParse, Command.run]
  have checks : run files checkArguments = runCheck files [path] target := by
    simp only [run, asksCheck, Command.run]
  rw [parses, checks]
  have agrees := agrees_runCheck pretty target notDirectory
  refine ⟨agrees.exitCode_eq, agrees.headers_eq, agrees.notices_eq, ?_⟩
  intro config text file configured hasText decodes
  have reads : readInput ⟨path, files path⟩ = .ok file := readInput_of_decodes hasText decodes
  have blank : (if pretty then Json.Layout.pretty else Json.Layout.compact).Blank := by
    cases pretty with
    | false => exact .compact
    | true => exact .pretty
  simp only [runParse, configured, reads]
  exact ⟨_, _, parse?_output_parseFile blank file, Interface.printed config file.interfaces,
    notices_parseFile file⟩

/-- One of the two methods of a file is reported. -/
theorem parse_agrees_with_check_one_of_two :
    let text := "\x7b\"interfaces\":[\x7b\"name\":\"A\",\"schema\":\x7b\"name\":\"U\"\x7d,\"methods\":[" ++
      "\x7b\"name\":\"M\",\"descriptor\":\"\"\x7d,\x7b\"name\":\"N\",\"descriptor\":\"CountAll\"," ++
      "\"params\":[\x7b\"name\":\"c\",\"type\":\"context.Context\"\x7d]," ++
      "\"returns\":[\"int\",\"error\"]\x7d]\x7d]\x7d"
    let files : FileSystem := fun path => [("a.json", .file text)].lookup path
    let target : Target := ⟨none, some .legacy⟩
    let config := Config.standard.withSplitStrategy .legacy
    let parseArguments := ["parse", "a.json", "--pretty", "--strategy", "legacy"]
    let checkArguments := ["check", "-s", "legacy", "a.json"]
    Command.read parseArguments = .ok (.parse "a.json" true target) ∧
      Command.read checkArguments = .ok (.check ["a.json"] target) ∧
      (run files parseArguments).exitCode = 1 ∧
      (run files parseArguments).headers = ["[E-GRAMMAR] Error: method M has syntax errors, " ++
        "specific reasons: the method descriptor is empty"] ∧
      ∃ file results, InterfaceFile.codec.ofText text = .ok file ∧
        Json.parse? (run files parseArguments).output = some (.array results) ∧
        Interface.Printed config file.interfaces results
          [⟨"M", ⟨.emptyDescriptor, none⟩⟩] := by
  intro text files target config parseArguments checkArguments
  have asksParse : Command.read parseArguments = .ok (.parse "a.json" true target) := by
    rw [← except_toOption_eq_some_iff]
    decide +kernel
  have asksCheck : Command.read checkArguments = .ok (.check ["a.json"] target) := by
    rw [← except_toOption_eq_some_iff]
    decide +kernel
  have notDirectory : ∀ entries, files "a.json" ≠ some (.directory entries) := by simp [files]
  -- The text is decoded once, both for the file and for what the check tells.
  have evaluated : ((InterfaceFile.codec.ofText text).toOption.map fun file =>
      Outcome.concat (file.interfaces.map (checkInterface config "a.json"))) = some {
        exitCode := 1
        notices := [.failedMethod ⟨"M", ⟨.emptyDescriptor, none⟩⟩,
          .failedInterface "a.json" "A" 1 2] } := by
    decide +kernel
  obtain ⟨file, decoded, outcome_eq⟩ := Option.map_eq_some_iff.mp evaluated
  have decodes := except_toOption_eq_some_iff.mp decoded
  have configured : loadConfig files target = .ok config := rfl
  have told := run_check asksCheck configured
  rw [Input.ofPaths_singleton notDirectory, List.map_singleton, Outcome.concat_singleton, checkInput,
    readInput_of_decodes rfl decodes] at told
  replace told := told.trans outcome_eq
  obtain ⟨exitCode_eq, headers_eq, notices_eq, printed⟩ :=
    parse_agrees_with_check files parseArguments checkArguments "a.json" true target asksParse
      asksCheck notDirectory
  rw [told] at exitCode_eq notices_eq
  obtain ⟨results, errors, parses, entries, reported⟩ := printed config text file configured rfl decodes
  rw [notices_eq] at reported
  obtain rfl : errors = [⟨"M", ⟨.emptyDescriptor, none⟩⟩] :=
    (List.map_inj_right fun _ _ => Notice.failedMethod.inj).mp reported.symm
  rw [headers_eq, told]
  exact ⟨asksParse, asksCheck, exitCode_eq, rfl, file, results, decodes, parses, entries⟩

end CommandLine
end DerivedQuery
