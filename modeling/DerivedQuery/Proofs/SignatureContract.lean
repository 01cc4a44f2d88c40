import DerivedQuery.Proofs.ClauseReader
import DerivedQuery.Proofs.RecordReader
import DerivedQuery.Proofs.Signature

/-!
# Contracts of signatures

For each kind of operation there is a row of rules about the types of parameters
and results. The check of a kind goes through its row and complains about the
first broken rule. It comes before the words behind the keyword are read, so
neither they nor the schema take part in the complaint. A method that compiles
keeps every rule, and the mode of its operation is told by its types.
-/

namespace DerivedQuery

namespace Signature

/-! ## Rows of rules -/

/-- What a contract is about: the types of the parameters and of the results. -/
structure Types where
  params : List TypeExpr
  returns : List TypeExpr
  deriving DecidableEq, Repr

end Signature

/-- The types of a method. -/
def Method.types (method : Method) : Signature.Types :=
  ⟨method.params.map Param.type, method.returns⟩

namespace Signature

/-- Whether a rule is kept, and the complaint if it is not. -/
structure Rule where
  kept : Bool
  complaint : Cause
  deriving DecidableEq, Repr

/-- The complaint about the first broken rule of a row. -/
def firstComplaint? (row : List Rule) : Option Cause :=
  (row.find? (!·.kept)).map Rule.complaint

/-- Whether a type has one of the shapes that tell a mode. -/
def hasModeShape (type : TypeExpr) : Bool :=
  type.isPointer || type.isSlice

/-- The mode of a shape: a pointer is one document, a slice many. -/
def modeOfShape? (type : TypeExpr) : Option Mode :=
  if type.isPointer then some .one
  else if type.isSlice then some .many
  else none

/-- The mode of the result of a write. If both results are configured to be the
same type, it is that of one document. -/
def modeOfResult? (config : Config) (type : TypeExpr) : Option Mode :=
  if type = config.oneResult then some .one
  else if type = config.manyResult then some .many
  else none

namespace Types

variable (types : Types) (config : Config)

/-- The context comes first. -/
def contextRule : Rule :=
  ⟨types.params[0]? = some config.contextType, .paramType 0 config.contextType⟩

/-- Behind the result there is an error and nothing else. -/
def errorRules : List Rule :=
  [⟨types.returns.length = 2, .returnCount 2⟩,
    types.contextRule config,
    ⟨types.returns[1]? = some config.errorType, .returnType 1 config.errorType⟩]

/-- The first rules of most rows. -/
def standardRules (least : Nat) : List Rule :=
  ⟨least ≤ types.params.length, .fewParams least⟩ :: types.errorRules config

/-- The first result is of a fixed type. -/
def resultRule (required : TypeExpr) : Rule :=
  ⟨types.returns[0]? = some required, .returnType 0 required⟩

/-- The document of an Insert is a pointer or a slice, and the first result is
the one that goes with it. -/
def documentRules : List Rule :=
  [⟨types.params[1]?.any hasModeShape, .documentShape⟩,
    ⟨types.params[1]?.any TypeExpr.isPointer ->
      types.returns[0]? = some config.insertOneResult, .insertResult config.insertOneResult⟩,
    ⟨types.params[1]?.any TypeExpr.isSlice ->
      types.returns[0]? = some config.insertManyResult, .insertResult config.insertManyResult⟩]

/-- The first result tells the mode of a write. -/
def writeRule : Rule :=
  ⟨types.returns[0]? = some config.oneResult ∨ types.returns[0]? = some config.manyResult,
    .writeResult config.oneResult config.manyResult⟩

/-- The row of a kind, in the order in which its rules are checked. -/
def rules : OperationKind -> List Rule
  | .insert =>
      ⟨types.params.length = 2, .paramCount 2⟩ ::
        (types.errorRules config ++ types.documentRules config)
  | .find => types.standardRules config 1 ++ [⟨types.returns[0]?.any hasModeShape, .resultShape⟩]
  | .update => types.standardRules config 2 ++ [types.writeRule config]
  | .delete => types.standardRules config 1 ++ [types.writeRule config]
  | .count => types.standardRules config 1 ++ [types.resultRule config.countResult]
  | .bulk => types.standardRules config 1 ++ [types.resultRule config.bulkResult]
  | .transaction =>
      [⟨2 ≤ types.params.length, .fewParams 2⟩,
        ⟨types.returns.length = 1, .returnCount 1⟩,
        types.contextRule config,
        ⟨types.params[1]? = some config.clientType, .paramType 1 config.clientType⟩,
        ⟨types.returns[0]? = some config.errorType, .onlyReturn config.errorType⟩]

/-- Every rule of a kind is kept. -/
def Meets (kind : OperationKind) : Prop :=
  ∀ rule ∈ types.rules config kind, rule.kept

/-- The wording of the complaint about the first broken rule of a kind. -/
def complaint? (kind : OperationKind) : Option String :=
  (firstComplaint? (types.rules config kind)).map Cause.message

/-- The mode that types tell for a kind, if they tell one. -/
def mode? : OperationKind -> Option Mode
  | .insert => types.params[1]?.bind modeOfShape?
  | .find => types.returns[0]?.bind modeOfShape?
  | .update | .delete => types.returns[0]?.bind (modeOfResult? config)
  | .count | .transaction | .bulk => none

end Types

/-! ## Checks that follow a row -/

/-- A check fails just with the complaint about the first broken rule. -/
def Follows
    {α : Type}
    (check : Except Cause α)
    (row : List Rule) : Prop :=
  ∀ cause, check = .error cause ↔ firstComplaint? row = some cause

section Follows

variable {α β : Type}
variable {check : Except Cause α}
variable {next : α -> Except Cause β}
variable {row others : List Rule}

@[simp] theorem firstComplaint?_nil : firstComplaint? [] = none := rfl

@[simp] theorem firstComplaint?_cons
    {rule : Rule} :
    firstComplaint? (rule :: row) =
      if rule.kept then firstComplaint? row else some rule.complaint := by
  cases kept : rule.kept <;> simp [firstComplaint?, kept]

theorem firstComplaint?_append :
    firstComplaint? (row ++ others) = (firstComplaint? row).or (firstComplaint? others) := by
  rw [firstComplaint?, List.find?_append, firstComplaint?, firstComplaint?]
  cases row.find? (!·.kept) <;> rfl

theorem follows_single
    {rule : Rule}
    (accepts : rule.kept -> ∃ value, check = .ok value)
    (refuses : rule.kept = false -> check = .error rule.complaint) :
    Follows check [rule] := by
  intro cause
  cases kept : rule.kept with
  | true =>
      obtain ⟨value, accepted⟩ := accepts kept
      simp [kept, accepted]
  | false => simp [kept, refuses kept]

/-- One check behind the other follows both rows. -/
theorem Follows.bind
    (first : Follows check row)
    (second : ∀ value, check = .ok value -> Follows (next value) others) :
    Follows (check >>= next) (row ++ others) := by
  intro cause
  rw [firstComplaint?_append]
  cases outcome : check with
  | error found =>
      have broken := (first found).mp outcome
      change Except.error found = .error cause ↔ _
      simp [broken]
  | ok value =>
      have unbroken : firstComplaint? row = none := by
        apply Option.eq_none_iff_forall_ne_some.mpr
        intro found broken
        cases outcome.symm.trans ((first found).mpr broken)
      rw [unbroken, Option.none_or]
      exact second value outcome cause

theorem Follows.bind_cons
    {rule : Rule}
    (first : Follows check [rule])
    (second : ∀ value, check = .ok value -> Follows (next value) others) :
    Follows (check >>= next) (rule :: others) :=
  first.bind second

end Follows

variable {method : Method}
variable {config : Config}

theorem follows_paramsAtLeast (least : Nat) :
    Follows (paramsAtLeast method least)
      [⟨least ≤ method.types.params.length, .fewParams least⟩] := by
  apply follows_single <;> simp [paramsAtLeast, Method.types]

/-- A check that counts follows the rule about the number. -/
theorem Takes.follows
    {α β : Type}
    {list : List α}
    {count length : Nat}
    {complaint : Cause}
    {elements : β -> List α}
    {check : Except Cause β}
    (takes : Takes list count complaint elements check)
    (length_eq : length = list.length) :
    Follows check [⟨length = count, complaint⟩] := by
  subst length_eq
  rcases takes.cases with ⟨miscounted, refused⟩ | ⟨value, counted, -, accepted⟩
  · exact follows_single (by simp [miscounted]) fun _ => refused
  · exact follows_single (fun _ => ⟨value, accepted⟩) (by simp [counted])

theorem follows_paramIs (index : Nat) (required : TypeExpr) :
    Follows (paramIs method index required)
      [⟨method.types.params[index]? = some required, .paramType index required⟩] := by
  apply follows_single <;> simp [paramIs, Method.types]

/-- A result is compared where it stands. -/
theorem follows_returnIs
    {index : Nat}
    {actual : TypeExpr}
    (stands : method.types.returns[index]? = some actual)
    (required : TypeExpr) :
    Follows (returnIs index actual required)
      [⟨method.types.returns[index]? = some required, .returnType index required⟩] := by
  apply follows_single <;> simp [returnIs, stands]

/-- The check of the results, of the context and of the error, and what comes
behind it. -/
theorem follows_errorRules
    {α : Type}
    {next : TypeExpr -> Except Cause α}
    {others : List Rule}
    (further : ∀ result, method.types.returns[0]? = some result ->
      Follows (next result) others) :
    Follows
      (do
        let (result, failure) ← twoReturns method
        paramIs method 0 config.contextType
        returnIs 1 failure config.errorType
        next result)
      (method.types.errorRules config ++ others) := by
  apply ((takes_twoReturns method).follows rfl).bind_cons
  rintro ⟨result, failure⟩ returns
  have returns_eq : method.types.returns = [result, failure] := twoReturns_eq_ok_iff.mp returns
  apply (follows_paramIs 0 config.contextType).bind_cons
  intro _ _
  apply (follows_returnIs (by simp [returns_eq]) config.errorType).bind_cons
  intro _ _
  exact further result (by simp [returns_eq])

/-- The check that most kinds begin with, and what comes behind it. -/
theorem follows_standard_bind
    {α : Type}
    {least : Nat}
    {next : TypeExpr -> Except Cause α}
    {others : List Rule}
    (further : ∀ result, method.types.returns[0]? = some result ->
      Follows (next result) others) :
    Follows (standard method config least >>= next)
      (method.types.standardRules config least ++ others) := by
  have reassociated : (standard method config least >>= next) = (do
      paramsAtLeast method least
      let (result, failure) ← twoReturns method
      paramIs method 0 config.contextType
      returnIs 1 failure config.errorType
      next result) := by
    simp only [standard, bind_assoc, pure_bind]
  rw [reassociated]
  apply (follows_paramsAtLeast least).bind_cons
  intro _ _
  exact follows_errorRules further

theorem follows_writeMode
    {result : TypeExpr}
    (stands : method.types.returns[0]? = some result) :
    Follows (writeMode config result) [method.types.writeRule config] := by
  apply follows_single
  · intro kept
    simp only [Types.writeRule, stands, Option.some.injEq, Bool.decide_or, Bool.or_eq_true,
      decide_eq_true_eq] at kept
    unfold writeMode
    split
    · exact ⟨_, rfl⟩
    · rename_i notOne
      rw [if_pos (kept.resolve_left notOne)]
      exact ⟨_, rfl⟩
  · intro broken
    simp only [Types.writeRule, stands, Option.some.injEq, Bool.decide_or, Bool.or_eq_false_iff,
      decide_eq_false_iff_not] at broken
    rw [writeMode, if_neg broken.1, if_neg broken.2]
    rfl

/-! ## The check of each kind -/

/-- The check of a kind, with the mode it tells. -/
def check (method : Method) (config : Config) : OperationKind -> Except Cause (Option Mode)
  | .insert => (insert method config).map fun signed => some signed.1
  | .find => (find method config).map fun signed => some signed.1
  | .update => (update method config).map some
  | .delete => (delete method config).map some
  | .count => (count method config).map fun _ => none
  | .transaction => (transaction method config).map fun _ => none
  | .bulk => (bulk method config).map fun _ => none

theorem Follows.map
    {α β : Type}
    {outcome : Except Cause α}
    {image : α -> β}
    {row : List Rule}
    (follows : Follows outcome row) :
    Follows (outcome.map image) row := by
  intro cause
  rw [except_map_eq_error_iff]
  exact follows cause

/-- The end of the check of an Insert: the document tells which result is asked
for. -/
def documentMode (config : Config) (document result : TypeExpr) :
    Except Cause (Mode × TypeExpr) :=
  if document.isPointer then
    if result = config.insertOneResult then
      .ok (.one, document)
    else
      .error (.insertResult config.insertOneResult)
  else if document.isSlice then
    if result = config.insertManyResult then
      .ok (.many, document)
    else
      .error (.insertResult config.insertManyResult)
  else
    .error .documentShape

theorem follows_documentMode
    {document result : TypeExpr}
    (document_eq : method.types.params[1]? = some document)
    (result_eq : method.types.returns[0]? = some result) :
    Follows (documentMode config document result)
      (method.types.documentRules config) := by
  intro cause
  simp only [Types.documentRules, document_eq, result_eq, Option.any_some, Option.some.injEq,
    hasModeShape, documentMode]
  cases isPointer : document.isPointer with
  | true =>
      have notSlice : document.isSlice = false := by
        obtain ⟨target, rfl⟩ := TypeExpr.isPointer_iff.mp isPointer
        rfl
      by_cases isOne : result = config.insertOneResult <;> simp [notSlice, isOne]
  | false =>
      cases isSlice : document.isSlice with
      | true => by_cases isMany : result = config.insertManyResult <;> simp [isMany]
      | false => simp

theorem follows_insert :
    Follows (insert method config) (method.types.rules config .insert) := by
  apply ((takes_twoParams method).follows (List.length_map _)).bind_cons
  rintro ⟨context, document⟩ params
  have document_eq : method.types.params[1]? = some document.type := by
    simp [Method.types, twoParams_eq_ok_iff.mp params]
  exact follows_errorRules fun result result_eq => follows_documentMode document_eq result_eq

theorem follows_find :
    Follows (find method config) (method.types.rules config .find) := by
  apply follows_standard_bind
  intro result result_eq
  apply follows_single
  · intro kept
    simp only [result_eq, Option.any_some, hasModeShape, Bool.or_eq_true] at kept
    split
    · exact ⟨_, rfl⟩
    · rename_i notPointer
      rw [if_pos (kept.resolve_left notPointer)]
      exact ⟨_, rfl⟩
  · intro broken
    simp only [result_eq, Option.any_some, hasModeShape, Bool.or_eq_false_iff] at broken
    rw [broken.1, broken.2]
    rfl

theorem follows_transaction :
    Follows (transaction method config) (method.types.rules config .transaction) := by
  apply (follows_paramsAtLeast 2).bind_cons
  intro _ _
  apply ((takes_oneReturn method).follows rfl).bind_cons
  intro only returns
  have only_eq : method.types.returns[0]? = some only := by
    simp [Method.types, oneReturn_eq_ok_iff.mp returns]
  apply (follows_paramIs 0 config.contextType).bind_cons
  intro _ _
  apply (follows_paramIs 1 config.clientType).bind_cons
  intro _ _
  apply follows_single
  · intro kept
    simp only [only_eq, Option.some.injEq, decide_eq_true_eq] at kept
    exact ⟨(), if_pos kept⟩
  · intro broken
    simp only [only_eq, Option.some.injEq, decide_eq_false_iff_not] at broken
    exact if_neg broken

/-- The check of a kind goes through the row of that kind. -/
theorem follows_check (kind : OperationKind) :
    Follows (check method config kind) (method.types.rules config kind) := by
  cases kind with
  | insert => exact follows_insert.map
  | find => exact follows_find.map
  | update => exact (follows_standard_bind fun _ => follows_writeMode).map
  | delete => exact (follows_standard_bind fun _ => follows_writeMode).map
  | count => exact (follows_standard_bind fun _ stands => follows_returnIs stands _).map
  | bulk => exact (follows_standard_bind fun _ stands => follows_returnIs stands _).map
  | transaction => exact follows_transaction.map

/-! ## Modes -/

theorem modeOfShape?_of_isPointer
    {type : TypeExpr}
    (isPointer : type.isPointer) :
    modeOfShape? type = some .one :=
  if_pos isPointer

theorem modeOfShape?_of_isSlice
    {type : TypeExpr}
    (isSlice : type.isSlice) :
    modeOfShape? type = some .many := by
  obtain ⟨element, rfl⟩ := TypeExpr.isSlice_iff.mp isSlice
  rfl

theorem modeOfResult?_of_writeMode
    {result : TypeExpr}
    {mode : Mode}
    (told : writeMode config result = .ok mode) :
    modeOfResult? config result = some mode := by
  unfold writeMode at told
  unfold modeOfResult?
  split at told
  · rename_i isOne
    rw [if_pos isOne, Except.ok.inj told]
  · rename_i notOne
    rw [if_neg notOne]
    split at told
    · rename_i isMany
      rw [if_pos isMany, Except.ok.inj told]
    · cases told

/-- The mode of a write is told by its first result. -/
theorem mode?_of_standard
    {least : Nat}
    {mode : Mode}
    (told : (standard method config least >>= writeMode config) = .ok mode) :
    method.types.returns[0]?.bind (modeOfResult? config) = some mode := by
  obtain ⟨result, accepted, moded⟩ := except_bind_eq_ok_iff.mp told
  obtain ⟨-, returns_eq, -⟩ := standard_eq_ok_iff.mp accepted
  simpa [Method.types, returns_eq] using modeOfResult?_of_writeMode moded

/-- A check that succeeds tells the mode of the types. -/
theorem mode?_of_check
    {kind : OperationKind}
    {mode? : Option Mode}
    (told : check method config kind = .ok mode?) :
    mode? = method.types.mode? config kind := by
  cases kind with
  | insert =>
      obtain ⟨⟨mode, type⟩, accepted, rfl⟩ := except_map_eq_ok_iff.mp told
      obtain ⟨context, document, params_eq, -, rfl, ⟨rfl, shape, -⟩ | ⟨rfl, shape, -⟩⟩ :=
        insert_eq_ok_iff.mp accepted
      · simp [Types.mode?, Method.types, params_eq, modeOfShape?_of_isPointer shape]
      · simp [Types.mode?, Method.types, params_eq, modeOfShape?_of_isSlice shape]
  | find =>
      obtain ⟨⟨mode, type⟩, accepted, rfl⟩ := except_map_eq_ok_iff.mp told
      obtain ⟨-, returns_eq, ⟨rfl, shape⟩ | ⟨rfl, shape⟩⟩ := find_eq_ok_iff.mp accepted
      · simp [Types.mode?, Method.types, returns_eq, modeOfShape?_of_isPointer shape]
      · simp [Types.mode?, Method.types, returns_eq, modeOfShape?_of_isSlice shape]
  | update =>
      obtain ⟨mode, accepted, rfl⟩ := except_map_eq_ok_iff.mp told
      exact (mode?_of_standard accepted).symm
  | delete =>
      obtain ⟨mode, accepted, rfl⟩ := except_map_eq_ok_iff.mp told
      exact (mode?_of_standard accepted).symm
  | count =>
      obtain ⟨-, -, rfl⟩ := except_map_eq_ok_iff.mp told
      rfl
  | transaction =>
      obtain ⟨-, -, rfl⟩ := except_map_eq_ok_iff.mp told
      rfl
  | bulk =>
      obtain ⟨-, -, rfl⟩ := except_map_eq_ok_iff.mp told
      rfl

/-! ## Complaints -/

variable {types : Types}
variable {kind : OperationKind}

/-- Every complaint of a row is about the signature. -/
theorem kind_of_mem_rules
    {rule : Rule}
    (member : rule ∈ types.rules config kind) :
    rule.complaint.kind = .signature := by
  cases kind <;>
    simp only [Types.rules, Types.standardRules, Types.errorRules, Types.documentRules,
      List.cons_append, List.nil_append, List.mem_cons, List.not_mem_nil, or_false] at member <;>
    grind [Cause.kind, Types.contextRule, Types.resultRule, Types.writeRule]

/-- A broken contract has a first broken rule. -/
theorem exists_firstComplaint
    (broken : ¬types.Meets config kind) :
    ∃ cause, firstComplaint? (types.rules config kind) = some cause ∧ cause.kind = .signature := by
  simp only [Types.Meets, not_forall] at broken
  obtain ⟨rule, member, notKept⟩ := broken
  have found : (types.rules config kind).find? (!·.kept) |>.isSome := by
    rw [List.find?_isSome]
    exact ⟨rule, member, by simpa using notKept⟩
  obtain ⟨first, first_eq⟩ := Option.isSome_iff_exists.mp found
  refine ⟨first.complaint, by rw [firstComplaint?, first_eq, Option.map_some], ?_⟩
  exact kind_of_mem_rules (List.mem_of_find?_eq_some first_eq)

/-- A check that succeeds has found every rule kept. -/
theorem meets_of_check
    {method : Method}
    {mode? : Option Mode}
    (told : check method config kind = .ok mode?) :
    method.types.Meets config kind := by
  by_contra broken
  obtain ⟨cause, first, -⟩ := exists_firstComplaint broken
  cases told.symm.trans ((follows_check kind cause).mpr first)

end Signature

/-! ## Readers -/

variable {scope : Scope}
variable {params rest : List Param}
variable {run : List Word}

namespace Binding

variable {α β : Type}
variable {cause : Cause}

/-- A reader complains about the signature before it binds anything. -/
def Rejects
    (binding : Binding α)
    (cause : Cause) : Prop :=
  ∀ params, binding.start params = (.error (Fault.overall cause), params)

theorem rejects_ofCheck
    {outcome : Except Cause α}
    (failed : outcome = .error cause) :
    (ofCheck outcome).Rejects cause := by
  subst failed
  exact fun _ => rfl

/-- What follows a complaint is not read. -/
theorem Rejects.bind
    {binding : Binding α}
    {next : α -> Binding β}
    (rejects : binding.Rejects cause) :
    (binding >>= next).Rejects cause := by
  intro params
  rw [start_bind, rejects params]

end Binding

namespace Operation

/-- The mode of an operation, if it has one. -/
def mode? : Operation -> Option Mode
  | .insert record => some record.mode
  | .find record => some record.mode
  | .update record => some record.mode
  | .delete record => some record.mode
  | .count _ | .transaction _ | .bulk _ => none

/-- The check of a kind comes before everything else its reader does. -/
theorem rejects_readKind
    {kind : OperationKind}
    {cause : Cause}
    (failed : Signature.check scope.method scope.config kind = .error cause) :
    (readKind scope run kind).Rejects cause := by
  cases kind with
  | insert => exact (Binding.rejects_ofCheck (except_map_eq_error_iff.mp failed)).bind.bind
  | find => exact (Binding.rejects_ofCheck (except_map_eq_error_iff.mp failed)).bind.bind
  | update => exact (Binding.rejects_ofCheck (except_map_eq_error_iff.mp failed)).bind.bind.bind
  | delete => exact (Binding.rejects_ofCheck (except_map_eq_error_iff.mp failed)).bind.bind.bind
  | count => exact (Binding.rejects_ofCheck (except_map_eq_error_iff.mp failed)).bind.bind
  | transaction => exact (Binding.rejects_ofCheck (except_map_eq_error_iff.mp failed)).bind.bind
  | bulk => exact (Binding.rejects_ofCheck (except_map_eq_error_iff.mp failed)).bind.bind.bind

/-- What is read has passed the check of its kind. -/
theorem exists_check_of_yields_readKind
    {kind : OperationKind}
    {operation : Operation}
    (yields : (readKind scope run kind).Yields params operation rest) :
    ∃ told, Signature.check scope.method scope.config kind = .ok told := by
  cases outcome : Signature.check scope.method scope.config kind with
  | ok told => exact ⟨told, rfl⟩
  | error cause =>
      have rejected := (rejects_readKind outcome params).symm.trans yields
      cases (Prod.mk.inj rejected).1

end Operation

/-- As the operation of a method an Insert has the mode of the signature. -/
theorem Insert.signed_of_yields_readStandalone
    {insert : Insert}
    (yields : (readStandalone scope run).Yields params insert rest) :
    ∃ type, Signature.insert scope.method scope.config = .ok (insert.mode, type) := by
  obtain ⟨_, _, type, signed, -⟩ := yields_readStandalone_iff.mp yields
  exact ⟨type, signed⟩

/-- As the operation of a method an Update or Delete has the mode of the
signature. -/
theorem Scope.signed_of_yields_openWrite
    {operation : Keyword}
    {signature : Except Cause Mode}
    {mode : Mode}
    {context : Option String}
    {body : List Word}
    (yields : (openWrite operation signature run .standalone).Yields params
      (mode, context, body) rest) :
    signature = .ok mode := by
  rcases yields_openWrite_iff.mp yields with ⟨-, signed, -⟩ | ⟨⟨⟩, -⟩
  exact signed

namespace Operation

/-- The check of its kind has told the mode of what is read. -/
theorem check_of_yields_readKind
    {kind : OperationKind}
    {operation : Operation}
    (yields : (readKind scope run kind).Yields params operation rest) :
    operation.kind = kind ∧
      Signature.check scope.method scope.config kind = .ok operation.mode? := by
  obtain ⟨told, passed⟩ := exists_check_of_yields_readKind yields
  cases kind with
  | insert =>
      obtain ⟨record, rfl, reads⟩ := Binding.yields_then_pure.mp yields
      obtain ⟨type, signed⟩ := Insert.signed_of_yields_readStandalone reads
      exact ⟨rfl, congrArg (Except.map _) signed⟩
  | find =>
      obtain ⟨record, rfl, reads⟩ := Binding.yields_then_pure.mp yields
      obtain ⟨_, _, _, signed, -⟩ := Find.yields_read_iff.mp reads
      exact ⟨rfl, congrArg (Except.map _) signed⟩
  | update =>
      obtain ⟨record, rfl, reads⟩ := Binding.yields_then_pure.mp yields
      obtain ⟨_, _, _, _, _, opens, -⟩ := Update.yields_read_iff.mp reads
      exact ⟨rfl, congrArg (Except.map _) (Scope.signed_of_yields_openWrite opens)⟩
  | delete =>
      obtain ⟨record, rfl, reads⟩ := Binding.yields_then_pure.mp yields
      obtain ⟨_, _, opens, -⟩ := Delete.yields_read_iff.mp reads
      exact ⟨rfl, congrArg (Except.map _) (Scope.signed_of_yields_openWrite opens)⟩
  | count =>
      obtain ⟨record, rfl, -⟩ := Binding.yields_then_pure.mp yields
      obtain rfl := Signature.mode?_of_check passed
      exact ⟨rfl, passed⟩
  | transaction =>
      obtain ⟨record, rfl, -⟩ := Binding.yields_then_pure.mp yields
      obtain rfl := Signature.mode?_of_check passed
      exact ⟨rfl, passed⟩
  | bulk =>
      obtain ⟨record, rfl, -⟩ := Binding.yields_then_pure.mp yields
      obtain rfl := Signature.mode?_of_check passed
      exact ⟨rfl, passed⟩

end Operation

namespace Method

/-- The signature is judged by the types of the parameters and results alone, and
before the words behind the keyword. A method that compiles keeps the contract of
its kind and has the mode that its types tell; a method that breaks the contract
fails with a complaint that its types, the configuration and the kind determine,
about no particular words. -/
theorem compile_keeps_contract
    (method : Method)
    (schema : Schema)
    (config : Config)
    (kind : OperationKind)
    (named : (Word.segment method.descriptor).head?.map Word.text = some kind.name) :
    (∀ operation, method.compile schema config = .ok operation ->
      operation.kind = kind ∧
      method.types.Meets config kind ∧
      operation.mode? = method.types.mode? config kind) ∧
    (¬method.types.Meets config kind ->
      ∃ error, method.compile schema config = .error error ∧
        error.kind = .signature ∧
        error.fault.span = none ∧
        method.types.complaint? config kind = some error.message) := by
  constructor
  · intro operation compiled
    obtain ⟨rest, yields⟩ := compile_eq_ok_iff.mp compiled
    rw [Operation.read_of_first named] at yields
    obtain ⟨kind_eq, told⟩ := Operation.check_of_yields_readKind yields
    exact ⟨kind_eq, Signature.meets_of_check told, Signature.mode?_of_check told⟩
  · intro broken
    obtain ⟨cause, first, isSignature⟩ := Signature.exists_firstComplaint broken
    have failed := (Signature.follows_check kind cause).mpr first
    refine ⟨⟨method.name, Fault.overall cause⟩, ?_, isSignature, rfl, ?_⟩
    · rw [compile, Operation.read_of_first named, Scope.start,
        Operation.rejects_readKind failed method.params]
      rfl
    · rw [Signature.Types.complaint?, first, Option.map_some]
      rfl

/-- Two results of the same type tell the mode of one document, and a third type
is refused whatever the words say. -/
theorem compile_keeps_contract_same_results :
    let config : Config := { Config.standard with oneResult := .ident "int" }
    let schema : Schema := ⟨"User",
      [⟨"Name", "name", .ident "string", none⟩, ⟨"Age", "age", .ident "int", none⟩]⟩
    let method (descriptor result : String) : Method := {
      name := "Rename"
      descriptor := descriptor
      params := [⟨"ctx", .selector "context" "Context"⟩, ⟨"name", .ident "string"⟩,
        ⟨"age", .ident "int"⟩]
      returns := [.ident result, .ident "error"] }
    let renames := method "UpdateNameByAgeEqual" "int"
    let wrong := method "UpdateBulkRbRb" "bool"
    let update : Update := ⟨"Rename", .one, some "ctx", false, .fields [⟨"name", "name"⟩],
      .matching (.leaf ⟨.equal, "age", ["age"]⟩)⟩
    (renames.compile schema config = .ok (.update update) ∧
      renames.types.Meets config .update ∧
      renames.types.mode? config .update = some .one) ∧
    ¬wrong.types.Meets config .update ∧
    ∃ error, wrong.compile schema config = .error error ∧
      error.kind = .signature ∧
      error.fault.span = none ∧
      error.message = "the first parameter in the return parameters should be int or int" := by
  intro config schema method renames wrong update
  have compiled : renames.compile schema config = .ok (.update update) := by
    apply except_toOption_eq_some_iff.mp
    decide +kernel
  have renamesNamed :
      (Word.segment renames.descriptor).head?.map Word.text = some OperationKind.update.name := by
    decide +kernel
  have wrongNamed :
      (Word.segment wrong.descriptor).head?.map Word.text = some OperationKind.update.name := by
    decide +kernel
  have broken : ¬wrong.types.Meets config .update := by
    unfold Signature.Types.Meets
    decide +kernel
  have wording : wrong.types.complaint? config .update =
      some "the first parameter in the return parameters should be int or int" := by
    decide +kernel
  obtain ⟨-, meets, mode_eq⟩ :=
    (compile_keeps_contract renames schema config .update renamesNamed).1 _ compiled
  obtain ⟨error, failed, isSignature, noSpan, message_eq⟩ :=
    (compile_keeps_contract wrong schema config .update wrongNamed).2 broken
  refine ⟨⟨compiled, meets, mode_eq.symm⟩, broken, error, failed, isSignature, noSpan, ?_⟩
  exact Option.some.inj (message_eq.symm.trans wording)

end Method
end DerivedQuery
