import DerivedQuery.Proofs.QueryReader
import DerivedQuery.Proofs.RecordReader
import DerivedQuery.Proofs.Signature

/-!
# Writes as operations and as steps

An Update or Delete that is the operation of a method takes its mode from the
signature and binds the context; as a step of a batch it starts with the word of
its mode and binds no context. Behind this opening both read the same words with
the same parameters, and only the operation asks for the parameters to be used
up.
-/

namespace DerivedQuery

variable {scope : Scope}
variable {mode : Mode}
variable {word : Word}
variable {first : Param}
variable {others rest : List Param}
variable {body : List Word}

namespace Scope

theorem nestedMode_cons
    {operation : Keyword}
    (named : word.is mode.keyword) :
    nestedMode (word :: body) operation = .ok (mode, body) := by
  cases mode with
  | one => simp only [nestedMode, if_pos (show word.is .one from named)]
  | many =>
      have notOne : ¬word.is .one := by
        rw [Word.is_iff, Word.is_iff.mp named]
        decide
      simp only [nestedMode, if_neg notOne, if_pos (show word.is .many from named)]

/-- With an accepted signature the opening leaves the words as they are and binds
the first parameter. -/
theorem yields_openWrite_standalone_iff
    {operation : Keyword}
    {signature : Except Cause Mode}
    {found : Mode}
    {context : Option String}
    {run : List Word}
    (signed : signature = .ok mode) :
    (openWrite operation signature body .standalone).Yields (first :: others)
        (found, context, run) rest ↔
      found = mode ∧ context = some first.name ∧ run = body ∧ rest = others := by
  rw [yields_openWrite_iff, signed]
  constructor
  · rintro (⟨-, same, rfl, param, rfl, params_eq⟩ | ⟨⟨⟩, -⟩)
    obtain ⟨rfl, rfl⟩ := List.cons.inj params_eq
    exact ⟨(Except.ok.inj same).symm, rfl, rfl, rfl⟩
  · rintro ⟨rfl, rfl, rfl, rfl⟩
    exact .inl ⟨rfl, rfl, rfl, first, rfl, rfl⟩

/-- With the word of a mode in front the opening of a step leaves the words behind
it, if there are any, and binds nothing. -/
theorem yields_openWrite_nested_iff
    {operation : Keyword}
    {signature : Except Cause Mode}
    {found : Mode}
    {context : Option String}
    {run : List Word}
    (named : word.is mode.keyword) :
    (openWrite operation signature (word :: body) .nested).Yields others
        (found, context, run) rest ↔
      found = mode ∧ context = none ∧ run = body ∧ rest = others ∧ body ≠ [] := by
  rw [yields_openWrite_iff, nestedMode_cons named]
  constructor
  · rintro (⟨⟨⟩, -⟩ | ⟨-, same, nonempty, rfl, rfl⟩)
    obtain ⟨rfl, rfl⟩ := Prod.mk.inj (Except.ok.inj same)
    exact ⟨rfl, rfl, rfl, rfl, nonempty⟩
  · rintro ⟨rfl, rfl, rfl, rfl, nonempty⟩
    exact .inr ⟨rfl, rfl, nonempty, rfl, rfl⟩

/-- Without words there is no query. -/
theorem ne_nil_of_splitAtQuery
    {parts : List Word × List Word}
    (divided : splitAtQuery body = .ok parts) :
    body ≠ [] := by
  rintro rfl
  cases divided

end Scope

namespace Update

/-- An Update that is the operation of a method is the step with the same words
and parameters, once its context is filled in. -/
theorem yields_standalone_iff_nested
    {update : Update}
    (signed : Signature.update scope.method scope.config = .ok mode)
    (named : word.is mode.keyword) :
    (Update.read scope body .standalone).Yields (first :: others) update rest ↔
      rest = [] ∧ ∃ step : Update,
        (Update.read scope (word :: body) .nested).Yields others step [] ∧
          update = { step with context := some first.name } := by
  constructor
  · intro yields
    obtain ⟨_, front, queryRun, _, middle, opens, divided, upsert, payload, query, method_eq,
      ends⟩ := yields_read_iff.mp yields
    obtain ⟨mode_eq, context_eq, rfl, rfl⟩ := (Scope.yields_openWrite_standalone_iff signed).mp opens
    obtain rfl := ends rfl
    refine ⟨rfl, { update with context := none }, yields_read_iff.mpr ?_, by rw [← context_eq]⟩
    refine ⟨_, front, queryRun, _, middle, ?_, divided, upsert, payload, query, method_eq,
      fun _ => rfl⟩
    exact (Scope.yields_openWrite_nested_iff named).mpr
      ⟨mode_eq, rfl, rfl, rfl, Scope.ne_nil_of_splitAtQuery divided⟩
  · rintro ⟨rfl, step, yields, rfl⟩
    obtain ⟨_, front, queryRun, _, middle, opens, divided, upsert, payload, query, method_eq, -⟩ :=
      yields_read_iff.mp yields
    obtain ⟨mode_eq, -, rfl, rfl, -⟩ := (Scope.yields_openWrite_nested_iff named).mp opens
    refine yields_read_iff.mpr ⟨_, front, queryRun, _, middle, ?_, divided, upsert, payload, query,
      method_eq, fun _ => rfl⟩
    exact (Scope.yields_openWrite_standalone_iff signed).mpr ⟨mode_eq, rfl, rfl, rfl⟩

end Update

namespace Delete

theorem yields_standalone_iff_nested
    {delete : Delete}
    (signed : Signature.delete scope.method scope.config = .ok mode)
    (named : word.is mode.keyword) :
    (Delete.read scope body .standalone).Yields (first :: others) delete rest ↔
      rest = [] ∧ ∃ step : Delete,
        (Delete.read scope (word :: body) .nested).Yields others step [] ∧
          delete = { step with context := some first.name } := by
  constructor
  · intro yields
    obtain ⟨_, _, opens, divided, query, method_eq, ends⟩ := yields_read_iff.mp yields
    obtain ⟨mode_eq, context_eq, rfl, rfl⟩ := (Scope.yields_openWrite_standalone_iff signed).mp opens
    obtain rfl := ends rfl
    refine ⟨rfl, { delete with context := none }, yields_read_iff.mpr ?_, by rw [← context_eq]⟩
    refine ⟨_, _, ?_, divided, query, method_eq, fun _ => rfl⟩
    exact (Scope.yields_openWrite_nested_iff named).mpr
      ⟨mode_eq, rfl, rfl, rfl, Scope.ne_nil_of_splitAtQuery divided⟩
  · rintro ⟨rfl, step, yields, rfl⟩
    obtain ⟨_, _, opens, divided, query, method_eq, -⟩ := yields_read_iff.mp yields
    obtain ⟨mode_eq, -, rfl, rfl, -⟩ := (Scope.yields_openWrite_nested_iff named).mp opens
    refine yields_read_iff.mpr ⟨_, _, ?_, divided, query, method_eq, fun _ => rfl⟩
    exact (Scope.yields_openWrite_standalone_iff signed).mpr ⟨mode_eq, rfl, rfl, rfl⟩

end Delete

/-- Where the signature tells the mode, an Update or Delete succeeds as the
operation of a method exactly if the step with the word of the mode in front
succeeds behind the first parameter and uses up all parameters. Its record is that
of the step with the first parameter as context. -/
theorem standalone_write_iff_nested
    (scope : Scope)
    (mode : Mode)
    (word : Word)
    (body : List Word)
    (named : word.text = mode.name) :
    (Signature.update scope.method scope.config = .ok mode ->
      ∃ first others, scope.method.params = first :: others ∧
        ∀ update : Update,
          ((Update.read scope body .standalone).start scope.method.params).1 = .ok update ↔
            ∃ step : Update,
              (Update.read scope (word :: body) .nested).start others = (.ok step, []) ∧
                update = { step with context := some first.name }) ∧
    (Signature.delete scope.method scope.config = .ok mode ->
      ∃ first others, scope.method.params = first :: others ∧
        ∀ delete : Delete,
          ((Delete.read scope body .standalone).start scope.method.params).1 = .ok delete ↔
            ∃ step : Delete,
              (Delete.read scope (word :: body) .nested).start others = (.ok step, []) ∧
                delete = { step with context := some first.name }) := by
  have spelled : word.is mode.keyword := Word.is_iff_text.mpr named
  constructor
  · intro signed
    obtain ⟨first, others, params_eq, -⟩ := Signature.opensWithContext_of_standard signed
    refine ⟨first, others, params_eq, fun update => ?_⟩
    rw [params_eq, ← Binding.exists_yields_iff]
    simp only [Update.yields_standalone_iff_nested signed spelled, exists_eq_left]
    rfl
  · intro signed
    obtain ⟨first, others, params_eq, -⟩ := Signature.opensWithContext_of_standard signed
    refine ⟨first, others, params_eq, fun delete => ?_⟩
    rw [params_eq, ← Binding.exists_yields_iff]
    simp only [Delete.yields_standalone_iff_nested signed spelled, exists_eq_left]
    rfl

/-- A method whose signature fits both kinds of write. What its words are read as
follows from what they are read as behind `One`. -/
theorem standalone_write_iff_nested_upsert :
    let scope : Scope := {
      method := {
        name := "Rename"
        descriptor := ""
        params := [⟨"ctx", .selector "context" "Context"⟩, ⟨"name", .ident "string"⟩,
          ⟨"id", .ident "string"⟩]
        returns := [.ident "bool", .ident "error"] }
      schema := ⟨"User", [⟨"Name", "name", .ident "string", none⟩,
        ⟨"UserID", "_id", .ident "string", none⟩]⟩
      config := Config.standard }
    ((Update.read scope (Word.segment "UpsertNameByUserIDEqual") .standalone).start
        scope.method.params).1 =
      .ok ⟨"Rename", .one, some "ctx", true, .fields [⟨"name", "name"⟩],
        .matching (.leaf ⟨.equal, "_id", ["id"]⟩)⟩ ∧
    ((Delete.read scope (Word.segment "ByNameEqualOrUserIDEqual") .standalone).start
        scope.method.params).1 =
      .ok ⟨"Rename", .one, some "ctx", .matching (.node .or (.leaf ⟨.equal, "name", ["name"]⟩)
        (.leaf ⟨.equal, "_id", ["id"]⟩))⟩ := by
  intro scope
  let word : Word := ⟨"One", ⟨0, 3⟩⟩
  constructor
  · obtain ⟨first, others, params_eq, agrees⟩ :=
      (standalone_write_iff_nested scope .one word _ rfl).1 (by rfl)
    obtain ⟨rfl, rfl⟩ := List.cons.inj params_eq
    refine (agrees _).mpr ⟨⟨"Rename", .one, none, true, _, _⟩, ?_, rfl⟩
    apply toOption_pair_eq_iff.mp
    decide +kernel
  · obtain ⟨first, others, params_eq, agrees⟩ :=
      (standalone_write_iff_nested scope .one word _ rfl).2 (by rfl)
    obtain ⟨rfl, rfl⟩ := List.cons.inj params_eq
    refine (agrees _).mpr ⟨⟨"Rename", .one, none, _⟩, ?_, rfl⟩
    apply toOption_pair_eq_iff.mp
    decide +kernel

end DerivedQuery
