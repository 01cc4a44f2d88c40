import DerivedQuery.CommandLine.Run
import DerivedQuery.Proofs.Binding
import Mathlib.Data.List.Forall2

/-!
# What a check tells

A check goes through its inputs and their interfaces in order. It writes one
line for an interface whose methods all compile, a report for each failing method
and a closing notice for any other interface, and a single notice for an input
that cannot be read. The lines about an input depend on that input alone, and the
check succeeds exactly if it has nothing to complain of.
-/

namespace DerivedQuery

/-! ## Compiled interfaces -/

/-- The method compiles against a schema. -/
def Method.Compiles (method : Method) (schema : Schema) (config : Config) : Prop :=
  ∃ operation, method.compile schema config = .ok operation

/-- The errors of a row of methods, in their order. -/
inductive Method.Failing (schema : Schema) (config : Config) :
    List Method -> List MethodError -> Prop
  | nil : Failing schema config [] []
  | passed
      {method : Method}
      {methods : List Method}
      {errors : List MethodError}
      (compiles : method.Compiles schema config)
      (others : Failing schema config methods errors) :
      Failing schema config (method :: methods) errors
  | failed
      {method : Method}
      {methods : List Method}
      {error : MethodError}
      {errors : List MethodError}
      (fails : method.compile schema config = .error error)
      (others : Failing schema config methods errors) :
      Failing schema config (method :: methods) (error :: errors)

namespace Interface

variable (interface : Interface)
variable (config : Config)

/-- Every method of the interface compiles. -/
def Compiles : Prop :=
  ∀ method ∈ interface.methods, method.Compiles interface.schema config

theorem isOk_compile_iff : (interface.compile config).isOk ↔ interface.Compiles config := by
  simp only [CompiledInterface.isOk, compile, List.all_map, List.all_eq_true, Compiles,
    Function.comp_apply]
  refine forall₂_congr fun method member => ?_
  unfold Method.Compiles
  cases method.compile interface.schema config with
  | ok operation => simp [Except.isOk, Except.toBool]
  | error error => simp [Except.isOk, Except.toBool]

theorem length_results_compile :
    (interface.compile config).results.length = interface.methods.length := by
  simp [compile]

theorem failing_errors_compile :
    Method.Failing interface.schema config interface.methods (interface.compile config).errors := by
  simp only [compile, CompiledInterface.errors]
  induction interface.methods with
  | nil => exact .nil
  | cons method methods hypothesis =>
      rw [List.map_cons]
      cases result : method.compile interface.schema config with
      | ok operation =>
          exact .passed ⟨operation, result⟩ hypothesis
      | error error =>
          exact .failed result hypothesis

/-- An interface with a failing method has an error. -/
theorem errors_compile_ne_nil
    (fails : ¬interface.Compiles config) :
    (interface.compile config).errors ≠ [] := by
  intro nothing
  have failing := interface.failing_errors_compile config
  rw [nothing] at failing
  apply fails
  unfold Compiles
  generalize interface.methods = methods at failing
  generalize errors_eq : ([] : List MethodError) = errors at failing
  induction failing with
  | nil => simp
  | passed compiles others hypothesis =>
      exact List.forall_mem_cons.mpr ⟨compiles, hypothesis errors_eq⟩
  | failed fails others hypothesis => cases errors_eq

end Interface

namespace CommandLine

/-! ## Outcomes one after another -/

namespace Outcome

theorem concat_cons
    (first : Outcome)
    (others : List Outcome) :
    concat (first :: others) = first.append (concat others) := rfl

theorem exitCode_concat_eq_zero_iff
    {outcomes : List Outcome} :
    (concat outcomes).exitCode = 0 ↔ ∀ outcome ∈ outcomes, outcome.exitCode = 0 := by
  induction outcomes with
  | nil => simp [concat]
  | cons first others hypothesis =>
      rw [concat_cons, List.forall_mem_cons, ← hypothesis]
      exact Nat.max_eq_zero_iff

theorem exitCode_concat_le
    {outcomes : List Outcome}
    {bound : Nat}
    (below : ∀ outcome ∈ outcomes, outcome.exitCode ≤ bound) :
    (concat outcomes).exitCode ≤ bound := by
  induction outcomes with
  | nil => exact Nat.zero_le bound
  | cons first others hypothesis =>
      rw [List.forall_mem_cons] at below
      exact Nat.max_le.mpr ⟨below.1, hypothesis below.2⟩

end Outcome

/-! ## Lines -/

/-- A line that a check writes. -/
inductive Line
  /-- All methods of an interface compile. -/
  | passed (path name : String) (total : Nat)
  | told (notice : Notice)

namespace Line

/-- What a line adds to the output. -/
def output : Line -> String
  | .passed path name total =>
      "✓ " ++ path ++ " - " ++ name ++ ": " ++ total.repr ++ " methods\n"
  | .told _ => ""

/-- What a line adds to the notices. -/
def notice? : Line -> Option Notice
  | .passed .. => none
  | .told notice => some notice

end Line

/-- An outcome whose output and notices are those of a row of lines. -/
structure Outcome.Writes (outcome : Outcome) (lines : List Line) : Prop where
  output_eq : outcome.output = String.join (lines.map Line.output)
  notices_eq : outcome.notices = lines.filterMap Line.notice?

namespace Outcome.Writes

theorem append
    {first second : Outcome}
    {lines others : List Line}
    (writes : first.Writes lines)
    (further : second.Writes others) :
    (first.append second).Writes (lines ++ others) where
  output_eq := by
    rw [List.map_append, String.join_append, ← writes.output_eq, ← further.output_eq]
    rfl
  notices_eq := by
    rw [List.filterMap_append, ← writes.notices_eq, ← further.notices_eq]
    rfl

theorem notices
    (exitCode : Nat)
    (notices : List Notice) :
    Writes { exitCode := exitCode, notices := notices } (notices.map .told) := by
  induction notices with
  | nil => exact ⟨rfl, rfl⟩
  | cons notice notices hypothesis =>
      exact ⟨hypothesis.output_eq, congrArg (notice :: ·) hypothesis.notices_eq⟩

end Outcome.Writes

/-- If each member of a row has lines of its own, then the outcomes of all members
write one row of lines after the other. -/
theorem exists_writes_concat
    {α : Type}
    {outcome : α -> Outcome}
    {Lines : α -> List Line -> Prop}
    (writes : ∀ item, ∃ lines, Lines item lines ∧ (outcome item).Writes lines)
    (items : List α) :
    ∃ rows, List.Forall₂ Lines items rows ∧
      (Outcome.concat (items.map outcome)).Writes rows.flatten := by
  induction items with
  | nil => exact ⟨[], .nil, rfl, rfl⟩
  | cons item items hypothesis =>
      obtain ⟨lines, first, writesFirst⟩ := writes item
      obtain ⟨rows, others, writesOthers⟩ := hypothesis
      exact ⟨lines :: rows, .cons first others, writesFirst.append writesOthers⟩

/-! ## Interfaces and inputs -/

/-- The lines about an interface: a single one if all its methods compile, and
otherwise the error of each failing method and then how many of how many have
failed. -/
inductive InterfaceLines (config : Config) (path : String) (interface : Interface) :
    List Line -> Prop
  | passes
      (compiles : interface.Compiles config) :
      InterfaceLines config path interface
        [.passed path interface.name interface.methods.length]
  | fails
      {errors : List MethodError}
      (some : errors ≠ [])
      (failing : Method.Failing interface.schema config interface.methods errors) :
      InterfaceLines config path interface
        (errors.map (fun error => .told (.failedMethod error)) ++
          [.told (.failedInterface path interface.name errors.length interface.methods.length)])

/-- The lines about an input: those about its interfaces in their order, or a
single notice that it cannot be read. -/
inductive InputLines (config : Config) (input : Input) : List Line -> Prop
  | unreadable
      (noText : input.text? = none) :
      InputLines config input [.told (.unreadableFile input.path)]
  | invalid
      {text : String}
      {error : DocumentError}
      (hasText : input.text? = some text)
      (refuses : InterfaceFile.codec.ofText text = .error error) :
      InputLines config input [.told (.invalidFile input.path error)]
  | decoded
      {text : String}
      {file : InterfaceFile}
      {rows : List (List Line)}
      (hasText : input.text? = some text)
      (decodes : InterfaceFile.codec.ofText text = .ok file)
      (interfaces : List.Forall₂ (InterfaceLines config input.path) file.interfaces rows) :
      InputLines config input rows.flatten

/-- An input that can be read and whose methods all compile. -/
def Passes (config : Config) (input : Input) : Prop :=
  ∃ text file, input.text? = some text ∧ InterfaceFile.codec.ofText text = .ok file ∧
    ∀ interface ∈ file.interfaces, interface.Compiles config

section

variable (config : Config)

theorem checkInterface_of_compiles
    {interface : Interface}
    (path : String)
    (compiles : interface.Compiles config) :
    checkInterface config path interface =
      { output := (Line.passed path interface.name interface.methods.length).output } := by
  unfold checkInterface
  dsimp only
  rw [if_pos ((interface.isOk_compile_iff config).mpr compiles),
    interface.length_results_compile config]
  rfl

theorem checkInterface_of_not_compiles
    {interface : Interface}
    (path : String)
    (fails : ¬interface.Compiles config) :
    checkInterface config path interface =
      { exitCode := 1
        notices := (interface.compile config).errors.map .failedMethod ++
          [.failedInterface path interface.name (interface.compile config).errors.length
            interface.methods.length] } := by
  unfold checkInterface
  dsimp only
  rw [if_neg fun ok => fails ((interface.isOk_compile_iff config).mp ok),
    interface.length_results_compile config]
  rfl

theorem exists_writes_checkInterface
    (path : String)
    (interface : Interface) :
    ∃ lines, InterfaceLines config path interface lines ∧
      (checkInterface config path interface).Writes lines := by
  by_cases compiles : interface.Compiles config
  · rw [checkInterface_of_compiles config path compiles]
    exact ⟨_, .passes compiles, by simp, rfl⟩
  · rw [checkInterface_of_not_compiles config path compiles]
    refine ⟨_, .fails (interface.errors_compile_ne_nil config compiles)
      (interface.failing_errors_compile config), ?_⟩
    have writes := Outcome.Writes.notices 1 ((interface.compile config).errors.map .failedMethod ++
      [.failedInterface path interface.name (interface.compile config).errors.length
        interface.methods.length])
    rwa [List.map_append, List.map_map] at writes

theorem exitCode_checkInterface_eq_zero_iff
    (path : String)
    (interface : Interface) :
    (checkInterface config path interface).exitCode = 0 ↔ interface.Compiles config := by
  by_cases compiles : interface.Compiles config
  · simp [checkInterface_of_compiles config path compiles, compiles]
  · simp [checkInterface_of_not_compiles config path compiles, compiles]

theorem exitCode_checkInterface_le
    (path : String)
    (interface : Interface) :
    (checkInterface config path interface).exitCode ≤ 1 := by
  by_cases compiles : interface.Compiles config
  · simp [checkInterface_of_compiles config path compiles]
  · simp [checkInterface_of_not_compiles config path compiles]

variable (input : Input)

/-- Reading an input fails for want of a text or of its form. -/
theorem readInput_cases :
    (input.text? = none ∧ readInput input = .error (.unreadableFile input.path)) ∨
    ∃ text, input.text? = some text ∧
      ((∃ error, InterfaceFile.codec.ofText text = .error error ∧
          readInput input = .error (.invalidFile input.path error)) ∨
        ∃ file, InterfaceFile.codec.ofText text = .ok file ∧ readInput input = .ok file) := by
  cases hasText : input.text? with
  | none => exact .inl ⟨rfl, by rw [readInput, hasText]⟩
  | some text =>
      refine .inr ⟨text, rfl, ?_⟩
      cases decodes : InterfaceFile.codec.ofText text with
      | error error => exact .inl ⟨error, rfl, by rw [readInput, hasText]; simp only [decodes]; rfl⟩
      | ok file => exact .inr ⟨file, rfl, by rw [readInput, hasText]; simp only [decodes]; rfl⟩

theorem exists_writes_checkInput :
    ∃ lines, InputLines config input lines ∧ (checkInput config input).Writes lines := by
  unfold checkInput
  rcases readInput_cases input with ⟨noText, reads⟩ |
    ⟨text, hasText, ⟨error, refuses, reads⟩ | ⟨file, decodes, reads⟩⟩
  · rw [reads]
    exact ⟨_, .unreadable noText, .notices 1 [_]⟩
  · rw [reads]
    exact ⟨_, .invalid hasText refuses, .notices 1 [_]⟩
  · rw [reads]
    obtain ⟨rows, interfaces, writes⟩ :=
      exists_writes_concat (exists_writes_checkInterface config input.path) file.interfaces
    exact ⟨_, .decoded hasText decodes interfaces, writes⟩

theorem exitCode_checkInput_eq_zero_iff :
    (checkInput config input).exitCode = 0 ↔ Passes config input := by
  unfold checkInput Passes
  rcases readInput_cases input with ⟨noText, reads⟩ |
    ⟨text, hasText, ⟨error, refuses, reads⟩ | ⟨file, decodes, reads⟩⟩
  · rw [reads]
    simp [Outcome.failure, noText]
  · rw [reads]
    simp [Outcome.failure, hasText, refuses]
  · rw [reads]
    simp [hasText, decodes, Outcome.exitCode_concat_eq_zero_iff,
      exitCode_checkInterface_eq_zero_iff]

theorem exitCode_checkInput_le : (checkInput config input).exitCode ≤ 1 := by
  unfold checkInput
  split
  · exact Nat.le_refl 1
  · apply Outcome.exitCode_concat_le
    rw [List.forall_mem_map]
    intro interface _
    exact exitCode_checkInterface_le config input.path interface

end

/-! ## The command -/

variable {files : FileSystem}
variable {arguments paths : List String}
variable {target : Target}
variable {config : Config}

/-- A check with a valid configuration is the check of its inputs, one after the
other. -/
theorem run_check
    (asks : Command.read arguments = .ok (.check paths target))
    (configured : loadConfig files target = .ok config) :
    run files arguments =
      .concat ((Input.ofPaths files paths).map (checkInput config)) := by
  simp only [run, asks, Command.run, runCheck, configured]

/-- An input that cannot be read adds its notice and nothing else. -/
theorem concat_checkInput_insert
    {input : Input}
    {notice : Notice}
    (refuses : readInput input = .error notice)
    (front back : List Input) :
    (Outcome.concat ((front ++ input :: back).map (checkInput config))).output =
        (Outcome.concat ((front ++ back).map (checkInput config))).output ∧
      ∃ before after,
        (Outcome.concat ((front ++ back).map (checkInput config))).notices = before ++ after ∧
        (Outcome.concat ((front ++ input :: back).map (checkInput config))).notices =
          before ++ notice :: after := by
  have only : checkInput config input = .failure notice := by rw [checkInput, refuses]
  induction front with
  | nil =>
      rw [List.nil_append, List.nil_append, List.map_cons, Outcome.concat_cons, only]
      exact ⟨String.empty_append, [], _, rfl, rfl⟩
  | cons first front hypothesis =>
      obtain ⟨output_eq, before, after, notices_eq, inserted⟩ := hypothesis
      rw [List.cons_append, List.cons_append, List.map_cons, List.map_cons,
        Outcome.concat_cons, Outcome.concat_cons]
      refine ⟨congrArg ((checkInput config first).output ++ ·) output_eq,
        (checkInput config first).notices ++ before, after, ?_, ?_⟩
      · rw [List.append_assoc, ← notices_eq]
        rfl
      · rw [List.append_assoc, ← inserted]
        rfl

/-- A check succeeds exactly if each of its inputs can be read and all methods in
it compile, and otherwise ends with 1. It writes the lines of its inputs one
after the other. An input that cannot be read leaves the lines of the others as
they are without it. -/
theorem check_tells_all
    (files : FileSystem)
    (arguments paths : List String)
    (target : Target)
    (config : Config)
    (asks : Command.read arguments = .ok (.check paths target))
    (configured : loadConfig files target = .ok config) :
    ((run files arguments).exitCode = 0 ↔
      ∀ input ∈ Input.ofPaths files paths, Passes config input) ∧
    (run files arguments).exitCode ≤ 1 ∧
    (∃ rows, List.Forall₂ (InputLines config) (Input.ofPaths files paths) rows ∧
      (run files arguments).Writes rows.flatten) ∧
    (∀ (front back : List Input) (input : Input) (notice : Notice)
        (otherFiles : FileSystem) (otherArguments otherPaths : List String) (otherTarget : Target),
      Input.ofPaths files paths = front ++ input :: back -> readInput input = .error notice ->
      Command.read otherArguments = .ok (.check otherPaths otherTarget) ->
      loadConfig otherFiles otherTarget = .ok config ->
      Input.ofPaths otherFiles otherPaths = front ++ back ->
        (run files arguments).output = (run otherFiles otherArguments).output ∧
          ∃ before after, (run otherFiles otherArguments).notices = before ++ after ∧
            (run files arguments).notices = before ++ notice :: after) := by
  rw [run_check asks configured]
  refine ⟨?_, ?_, exists_writes_concat (exists_writes_checkInput config) _, ?_⟩
  · rw [Outcome.exitCode_concat_eq_zero_iff, List.forall_mem_map]
    exact forall₂_congr fun input _ => exitCode_checkInput_eq_zero_iff config input
  · apply Outcome.exitCode_concat_le
    rw [List.forall_mem_map]
    intro input _
    exact exitCode_checkInput_le config input
  · intro front back input notice otherFiles otherArguments otherPaths otherTarget inputs_eq
      refuses otherAsks otherConfigured otherInputs_eq
    rw [run_check otherAsks otherConfigured, inputs_eq, otherInputs_eq]
    exact concat_checkInput_insert refuses front back

/-- A file that is missing between one that passes and one that does not. -/
theorem check_tells_all_missing_file :
    let files : FileSystem := fun path => [
      ("a.json", .file "\x7b\"interfaces\":[\x7b\"name\":\"A\",\"schema\":\x7b\"name\":\"U\"\x7d\x7d]\x7d"),
      ("b.json", .file ("\x7b\"interfaces\":[\x7b\"name\":\"B\",\"schema\":\x7b\"name\":\"U\"\x7d," ++
        "\"methods\":[\x7b\"name\":\"M\",\"descriptor\":\"\"\x7d]\x7d]\x7d"))].lookup path
    let paths := ["a.json", "c.json", "b.json"]
    Command.read ("check" :: paths) = .ok (.check paths ⟨none, none⟩) ∧
      loadConfig files ⟨none, none⟩ = .ok Config.standard ∧
      run files ("check" :: paths) = {
        exitCode := 1
        output := "✓ a.json - A: 0 methods\n"
        notices := [.unreadableFile "c.json", .failedMethod ⟨"M", ⟨.emptyDescriptor, none⟩⟩,
          .failedInterface "b.json" "B" 1 1] } ∧
      ¬∀ input ∈ Input.ofPaths files paths, Passes Config.standard input := by
  intro files paths
  have asks : Command.read ("check" :: paths) = .ok (.check paths ⟨none, none⟩) := by
    rw [← except_toOption_eq_some_iff]
    decide +kernel
  have configured : loadConfig files ⟨none, none⟩ = .ok Config.standard := rfl
  have told : run files ("check" :: paths) = {
      exitCode := 1
      output := "✓ a.json - A: 0 methods\n"
      notices := [.unreadableFile "c.json", .failedMethod ⟨"M", ⟨.emptyDescriptor, none⟩⟩,
        .failedInterface "b.json" "B" 1 1] } := by
    decide +kernel
  obtain ⟨verdict, -⟩ := check_tells_all files _ paths _ _ asks configured
  rw [told] at verdict
  exact ⟨asks, configured, told, verdict.not.mp Nat.one_ne_zero⟩

end CommandLine
end DerivedQuery
