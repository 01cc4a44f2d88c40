import DerivedQuery.Proofs.RecordOrigin

/-!
# Agreement of the split strategies

Without brackets the split strategies cannot be told apart. Either divides a
run at its first connective and goes on behind it, so every query is a chain of
conditions that nests to the right, and a method compiles to the same operation
or fails with the same error.
-/

namespace DerivedQuery

namespace Word

/-- A run has no connective, or it has a first one. -/
theorem exists_first_connective (run : List Word) :
    (∀ word ∈ run, word.connective? = none) ∨
    ∃ (front back : List Word) (word : Word) (connective : Connective),
      run = front ++ word :: back ∧ (∀ other ∈ front, other.connective? = none) ∧
        word.connective? = some connective := by
  induction run with
  | nil => exact .inl (by simp)
  | cons first rest hypothesis =>
      cases stands : first.connective? with
      | some connective => exact .inr ⟨[], rest, first, connective, rfl, by simp, stands⟩
      | none =>
          rcases hypothesis with undivided | ⟨front, back, word, connective, rfl, undivided, found⟩
          · exact .inl (List.forall_mem_cons.mpr ⟨stands, undivided⟩)
          · exact .inr ⟨first :: front, back, word, connective, rfl,
              List.forall_mem_cons.mpr ⟨stands, undivided⟩, found⟩

end Word

namespace SplitStrategy

variable (strategy : SplitStrategy)
variable {front back : List Word}
variable {word : Word}
variable {connective : Connective}

theorem split_of_plain
    {run : List Word}
    (plain : ∀ word ∈ run, word.Plain) :
    strategy.split run = .ok (.leaf run) := by
  cases strategy with
  | legacy => exact Split.legacy_of_undivided (Split.undivided_of_plain plain 1)
  | nested => exact Split.nested_of_plain plain

/-- Behind plain words either strategy divides at the next connective. -/
theorem split_append_connective
    (plain : ∀ other ∈ front, other.Plain)
    (stands : word.connective? = some connective) :
    strategy.split (front ++ word :: back) =
      if back.isEmpty then
        .error (.dangling word.span)
      else
        .ok (.divided connective front back) := by
  have balanced : Brackets.Balanced front :=
    Brackets.Balanced.of_no_brackets fun other member => (plain other member).1
  cases strategy with
  | legacy =>
      have search := Split.findConnective_append_connective (Split.undivided_of_plain plain 1)
        balanced stands (Nat.zero_le 1) back
      simp only [split, Split.legacy, search]
      rfl
  | nested =>
      exact Split.nested_append_connective balanced (Split.undivided_of_plain plain 0) stands back

end SplitStrategy

namespace Outline

/-- The outline of a run that is divided at its first connective, and again
behind it: in front of each connective stands a single condition. -/
inductive DividedAtFirst : List Word -> Outline -> Prop
  | leaf
      {run : List Word}
      (undivided : ∀ word ∈ run, word.connective? = none) :
      DividedAtFirst run (.leaf run)
  | dangling
      {front : List Word}
      {word : Word}
      {connective : Connective}
      (undivided : ∀ other ∈ front, other.connective? = none)
      (stands : word.connective? = some connective) :
      DividedAtFirst (front ++ [word]) (.broken (.dangling word.span))
  | node
      {front back : List Word}
      {word : Word}
      {connective : Connective}
      {right : Outline}
      (undivided : ∀ other ∈ front, other.connective? = none)
      (stands : word.connective? = some connective)
      (nonempty : back ≠ [])
      (behind : DividedAtFirst back right) :
      DividedAtFirst (front ++ word :: back) (.node connective (.leaf front) right)

theorem exists_dividedAtFirst (run : List Word) : ∃ outline, DividedAtFirst run outline := by
  induction length : run.length using Nat.strongRecOn generalizing run with
  | ind bound hypothesis =>
      rcases Word.exists_first_connective run with
        undivided | ⟨front, back, word, connective, rfl, undivided, stands⟩
      · exact ⟨.leaf run, .leaf undivided⟩
      · cases back with
        | nil => exact ⟨.broken (.dangling word.span), .dangling undivided stands⟩
        | cons next others =>
            have shorter : (next :: others).length < bound := by
              simp only [← length, List.length_append, List.length_cons]
              omega
            obtain ⟨right, behind⟩ := hypothesis _ shorter (next :: others) rfl
            exact ⟨.node connective (.leaf front) right,
              .node undivided stands (List.cons_ne_nil next others) behind⟩

/-- Without brackets either strategy outlines a run in this way. -/
theorem DividedAtFirst.ofRun_eq
    {run : List Word}
    {outline : Outline}
    (divided : DividedAtFirst run outline)
    (noBrackets : ∀ word ∈ run, word.isBracket = false)
    (strategy : SplitStrategy) :
    ofRun strategy run = outline := by
  have ofRun_plain {run : List Word}
      (noBrackets : ∀ word ∈ run, word.isBracket = false)
      (undivided : ∀ word ∈ run, word.connective? = none) :
      ofRun strategy run = .leaf run := by
    rw [Outline.ofRun_eq, strategy.split_of_plain]
    exact fun word member => ⟨noBrackets word member, undivided word member⟩
  induction divided with
  | leaf undivided => exact ofRun_plain noBrackets undivided
  | @dangling front word connective undivided stands =>
      rw [Outline.ofRun_eq, strategy.split_append_connective _ stands]
      · rfl
      · exact fun other member => ⟨noBrackets other (by simp [member]), undivided other member⟩
  | @node front back word connective right undivided stands nonempty _ hypothesis =>
      have frontFree : ∀ other ∈ front, other.isBracket = false :=
        fun other member => noBrackets other (by simp [member])
      have backFree : ∀ other ∈ back, other.isBracket = false :=
        fun other member => noBrackets other (by simp [member])
      rw [Outline.ofRun_eq, strategy.split_append_connective _ stands]
      · simp [nonempty, ofRun_plain frontFree undivided, hypothesis backFree]
      · exact fun other member => ⟨frontFree other member, undivided other member⟩

theorem dividedAtFirst_ofRun
    {run : List Word}
    (noBrackets : ∀ word ∈ run, word.isBracket = false)
    (strategy : SplitStrategy) :
    DividedAtFirst run (ofRun strategy run) := by
  obtain ⟨outline, divided⟩ := exists_dividedAtFirst run
  rw [divided.ofRun_eq noBrackets strategy]
  exact divided

end Outline

/-! ## Queries of an operation -/

namespace QueryExpr

/-- To the left of every connective stands a single condition. -/
def RightNested : QueryExpr -> Prop
  | .leaf _ => True
  | .node _ (.leaf _) right => right.RightNested
  | .node _ (.node _ _ _) _ => False

/-- The connectives of an expression from left to right. -/
def connectives : QueryExpr -> List Connective
  | .leaf _ => []
  | .node connective left right => left.connectives ++ connective :: right.connectives

/-- An outline divided at its first connective is read as a chain of conditions
with the connectives of the run. -/
theorem rightNested_of_yields_read
    {scope : Scope}
    {run : List Word}
    {outline : Outline}
    {expr : QueryExpr}
    {params rest : List Param}
    (divided : outline.DividedAtFirst run)
    (yields : (read scope outline).Yields params expr rest) :
    expr.RightNested ∧ expr.connectives = run.filterMap Word.connective? := by
  induction divided generalizing expr params with
  | leaf undivided =>
      obtain ⟨condition, rfl, -⟩ := yields_read_leaf_iff.mp yields
      exact ⟨trivial, (List.filterMap_eq_nil_iff.mpr undivided).symm⟩
  | dangling undivided stands => exact absurd yields not_yields_read_broken
  | node undivided stands nonempty behind hypothesis =>
      obtain ⟨left, right, middle, rfl, readsLeft, readsRight⟩ := yields_read_node_iff.mp yields
      obtain ⟨condition, rfl, -⟩ := yields_read_leaf_iff.mp readsLeft
      obtain ⟨nested, connectives_eq⟩ := hypothesis readsRight
      refine ⟨nested, ?_⟩
      rw [List.filterMap_append, List.filterMap_eq_nil_iff.mpr undivided,
        List.filterMap_cons_some stands, ← connectives_eq]
      rfl

end QueryExpr

namespace Query

/-- A query that is right-nested over the words that state it. -/
inductive Chained : List Word -> Query -> Prop
  | all
      {word : Word}
      (isAll : word.is .allQuery) :
      Chained [word] .all
  | matching
      {word : Word}
      {body : List Word}
      {expr : QueryExpr}
      (isBy : word.is .byQuery)
      (nested : expr.RightNested)
      (connectives_eq : expr.connectives = body.filterMap Word.connective?) :
      Chained (word :: body) (.matching expr)

theorem chained_of_reaches
    {scope : Scope}
    {run : List Word}
    {query : Query}
    (noBrackets : ∀ word ∈ run, word.isBracket = false)
    (reaches : (Query.read scope run).Reaches query) :
    Chained run query := by
  obtain ⟨params, rest, yields⟩ := reaches
  rcases yields_read_cases yields with ⟨word, rfl, isAll, rfl, -⟩ | ⟨word, body, rfl, isBy⟩
  · exact .all (Word.is_iff.mpr isAll)
  · obtain ⟨-, -, expr, rfl, reads⟩ := (yields_read_by_iff isBy).mp yields
    have divided := Outline.dividedAtFirst_ofRun (List.forall_mem_cons.mp noBrackets).2
      scope.config.splitStrategy
    obtain ⟨nested, connectives_eq⟩ := QueryExpr.rightNested_of_yields_read divided reads
    exact .matching (Word.is_iff.mpr isBy) nested connectives_eq

end Query

/-! ## Whole methods -/

namespace Binding

/-- Equality of readers only asks about the values that are reached. -/
theorem congruence_eq : Congruence fun {α : Type} => @Eq (Binding α) where
  refl := fun _ => rfl
  bind := by
    intro α β first second next other same further
    subst same
    funext params
    change start _ params = start _ params
    rw [start_bind, start_bind]
    cases result : first.start params with
    | mk outcome rest =>
        cases outcome with
        | error fault => rfl
        | ok value =>
            exact congrArg (fun reader => reader.start rest) (further value ⟨params, rest, result⟩)

end Binding

/-- No condition looks at the split strategy. -/
theorem QueryExpr.read_withStrategy
    (scope : Scope)
    (first second : SplitStrategy)
    (outline : Outline) :
    read (scope.withStrategy first) outline = read (scope.withStrategy second) outline := by
  induction outline with
  | leaf run => rfl
  | node connective left right leftHypothesis rightHypothesis =>
      simp only [read, leftHypothesis, rightHypothesis]
  | broken error => rfl

theorem Query.read_legacy_eq_nested
    (scope : Scope)
    {run : List Word}
    (noBrackets : ∀ word ∈ run, word.isBracket = false) :
    Query.read (scope.withStrategy .legacy) run = Query.read (scope.withStrategy .nested) run := by
  cases run with
  | nil => rfl
  | cons first body =>
      obtain ⟨outline, divided⟩ := Outline.exists_dividedAtFirst body
      have bodyFree := (List.forall_mem_cons.mp noBrackets).2
      have outline_eq (strategy : SplitStrategy) :
          Outline.ofRun (scope.withStrategy strategy).config.splitStrategy body = outline :=
        divided.ofRun_eq bodyFree strategy
      simp only [Query.read, outline_eq, QueryExpr.read_withStrategy scope .legacy .nested]

/-- Without brackets the strategies compile a method alike, errors included.
Each divides runs at their first connective, so queries nest to the right. -/
theorem compile_legacy_eq_nested
    (method : Method)
    (schema : Schema)
    (config : Config)
    (noBrackets : ∀ word ∈ Word.segment method.descriptor,
      word.text ≠ "Lb" ∧ word.text ≠ "Rb") :
    method.compile schema (config.withSplitStrategy .legacy) =
      method.compile schema (config.withSplitStrategy .nested) ∧
    (∀ strategy run, run <:+: Word.segment method.descriptor ->
      Outline.DividedAtFirst run (Outline.ofRun strategy run)) ∧
    (∀ strategy operation,
      method.compile schema (config.withSplitStrategy strategy) = .ok operation ->
        ∀ query ∈ operation.queries,
          ∃ run, run <:+: Word.segment method.descriptor ∧ query.Chained run) := by
  have free : ∀ word ∈ Word.segment method.descriptor, word.isBracket = false := by
    intro word member
    rw [← Bool.not_eq_true]
    intro bracket
    obtain ⟨notLeft, notRight⟩ := noBrackets word member
    exact (Word.text_of_isBracket bracket).elim notLeft notRight
  let scope : Scope := ⟨method, schema, config⟩
  refine ⟨?_, ?_, ?_⟩
  · have same : Operation.read (scope.withStrategy .legacy) (Word.segment method.descriptor) =
        Operation.read (scope.withStrategy .nested) (Word.segment method.descriptor) := by
      apply related_operation Binding.congruence_eq
      intro run part
      exact Query.read_legacy_eq_nested scope fun word member => free word (part member)
    exact congrArg (fun reader => (scope.start reader method.params).1) same
  · intro strategy run part
    exact Outline.dividedAtFirst_ofRun (fun word member => free word (part.subset member)) strategy
  · intro strategy operation compiled query member
    obtain ⟨rest, yields⟩ := Method.compile_eq_ok_iff.mp compiled
    obtain ⟨run, part, reaches⟩ := Operation.queries_writtenIn ⟨_, rest, yields⟩ member
    exact ⟨run, part,
      Query.chained_of_reaches (fun word inRun => free word (part.subset inRun)) reaches⟩

/-- Two steps with queries of several conditions each. -/
theorem compile_legacy_eq_nested_two_steps :
    let schema : Schema := ⟨"User",
      [⟨"Name", "name", .ident "string", none⟩, ⟨"Age", "age", .ident "int", none⟩]⟩
    let method : Method := {
      name := "Tidy"
      descriptor := "TransactionUpdateOneNameByNameEqualAndAgeExistsOrAgeEqual" ++
        "DeleteManyByAgeEqualOrNameExists"
      params := [⟨"ctx", .selector "context" "Context"⟩,
        ⟨"client", .pointer (.selector "mongo" "Client")⟩, ⟨"renamed", .ident "string"⟩,
        ⟨"name", .ident "string"⟩, ⟨"age", .ident "int"⟩, ⟨"limit", .ident "int"⟩]
      returns := [.ident "error"] }
    let first : QueryExpr := .node .and (.leaf ⟨.equal, "name", ["name"]⟩)
      (.node .or (.leaf ⟨.present, "age", []⟩) (.leaf ⟨.equal, "age", ["age"]⟩))
    let second : QueryExpr := .node .or (.leaf ⟨.equal, "age", ["limit"]⟩)
      (.leaf ⟨.present, "name", []⟩)
    let operation : Operation := .transaction ⟨"Tidy", "ctx", "client", [],
      [⟨.primary, .update ⟨"Tidy", .one, none, false, .fields [⟨"name", "renamed"⟩],
          .matching first⟩⟩,
        ⟨.primary, .delete ⟨"Tidy", .many, none, .matching second⟩⟩]⟩
    (∀ word ∈ Word.segment method.descriptor, word.text ≠ "Lb" ∧ word.text ≠ "Rb") ∧
      method.compile schema (Config.standard.withSplitStrategy .legacy) = .ok operation ∧
      method.compile schema (Config.standard.withSplitStrategy .nested) = .ok operation ∧
      ∃ run, run <:+: Word.segment method.descriptor ∧ (Query.matching first).Chained run := by
  intro schema method first second operation
  have noBrackets : ∀ word ∈ Word.segment method.descriptor,
      word.text ≠ "Lb" ∧ word.text ≠ "Rb" := by
    decide +kernel
  have compiled : method.compile schema (Config.standard.withSplitStrategy .legacy) =
      .ok operation := by
    apply except_toOption_eq_some_iff.mp
    decide +kernel
  obtain ⟨same, -, chained⟩ :=
    compile_legacy_eq_nested method schema Config.standard noBrackets
  exact ⟨noBrackets, compiled, same ▸ compiled,
    chained .legacy operation compiled (.matching first) (by simp [operation, Operation.queries,
      TransactionAction.queries])⟩

end DerivedQuery
