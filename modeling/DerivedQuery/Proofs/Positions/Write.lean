import DerivedQuery.Proofs.Positions.Query
import DerivedQuery.Proofs.Signature

/-!
# Reading single writes by position

Signature checks look up parameters and results once they have counted them.
The query of a write starts at the position of its first `By` or `All`, and a
field that is written takes the first of the names bound for it.
-/

namespace DerivedQuery
namespace Positions

open Checked

/-! ## Signatures -/

/-- Exactly so many parameters. -/
def paramsExactly (method : Method) (count : Nat) : Except Cause Unit :=
  if method.params.length = count then .ok () else .error (.paramCount count)

/-- Exactly so many results. -/
def returnsExactly (method : Method) (count : Nat) : Except Cause Unit :=
  if method.returns.length = count then .ok () else .error (.returnCount count)

/-- There is a result at a position, and it has the required type. -/
def returnIs (method : Method) (index : Nat) (required : TypeExpr) : Except Cause Unit :=
  if method.returns[index]? = some required then .ok () else .error (.returnType index required)

/-- Go on behind a check that looks nothing up. -/
def behindCheck {α : Type} (check : Except Cause Unit) (next : Option (Except Cause α)) :
    Option (Except Cause α) :=
  match check with
  | .error cause => some (.error cause)
  | .ok () => next

/-- The common part of most signatures, and a check of the first result. -/
def behindStandard {α : Type} (method : Method) (config : Config) (least : Nat)
    (next : TypeExpr -> Except Cause α) : Option (Except Cause α) :=
  behindCheck
    (do
      Signature.paramsAtLeast method least
      returnsExactly method 2
      Signature.paramIs method 0 config.contextType
      returnIs method 1 config.errorType)
    (do
      let result ← method.returns[0]?
      return next result)

/-- The mode of an Insert, told by the shape of its second parameter. -/
def insertMode (method : Method) (config : Config) : Option (Except Cause Mode) :=
  behindCheck
    (do
      paramsExactly method 2
      returnsExactly method 2
      Signature.paramIs method 0 config.contextType
      returnIs method 1 config.errorType)
    (do
      let document ← method.params[1]?
      if document.type.isPointer then
        let result ← method.returns[0]?
        if result = config.insertOneResult then
          return .ok .one
        else
          return .error (.insertResult config.insertOneResult)
      else if document.type.isSlice then
        let result ← method.returns[0]?
        if result = config.insertManyResult then
          return .ok .many
        else
          return .error (.insertResult config.insertManyResult)
      else
        return .error .documentShape)

theorem except_ok_bind
    {ε α β : Type}
    (value : α)
    (next : α -> Except ε β) :
    (Except.ok value >>= next) = next value :=
  rfl

variable {method : Method}
variable {config : Config}

/-- A list is counted before its elements are looked up. -/
theorem cases_of_takes
    {α β : Type}
    {list : List α}
    {count : Nat}
    {complaint : Cause}
    {elements : β -> List α}
    {check : Except Cause β}
    {counted : Except Cause Unit}
    (takes : Signature.Takes list count complaint elements check)
    (counted_eq : counted = if list.length = count then .ok () else .error complaint) :
    (counted = .error complaint ∧ check = .error complaint) ∨
      ∃ value, list = elements value ∧ counted = .ok () ∧ check = .ok value := by
  rcases takes.cases with ⟨miscounted, refused⟩ | ⟨value, length_eq, list_eq, accepted⟩
  · exact .inl ⟨counted_eq.trans (if_neg miscounted), refused⟩
  · exact .inr ⟨value, list_eq, counted_eq.trans (if_pos length_eq), accepted⟩

theorem returnIs_second
    {result failure : TypeExpr}
    (returns : method.returns = [result, failure])
    (required : TypeExpr) :
    returnIs method 1 required = Signature.returnIs 1 failure required := by
  rw [returnIs, returns, Signature.returnIs]
  simp

/-- A method with two results has a first one. -/
theorem behindStandard_eq
    {α : Type}
    (least : Nat)
    (next : TypeExpr -> Except Cause α) :
    behindStandard method config least next =
      some (Signature.standard method config least >>= next) := by
  rw [behindStandard, Signature.standard]
  cases Signature.paramsAtLeast method least with
  | error cause => rfl
  | ok done =>
      rcases cases_of_takes (Signature.takes_twoReturns method)
          (rfl : returnsExactly method 2 = _) with
        ⟨refused, refusedToo⟩ | ⟨⟨result, failure⟩, returns, counted, looked⟩
      · rw [refused, refusedToo]
        rfl
      · simp only [counted, looked, returnIs_second returns, returns, except_ok_bind]
        cases Signature.paramIs method 0 config.contextType with
        | error cause => rfl
        | ok done => cases Signature.returnIs 1 failure config.errorType <;> rfl

/-- A method with two parameters has a second one. -/
theorem insertMode_eq :
    insertMode method config = some ((Signature.insert method config).map Prod.fst) := by
  rw [insertMode, Signature.insert]
  rcases cases_of_takes (Signature.takes_twoParams method)
      (rfl : paramsExactly method 2 = _) with
    ⟨refused, refusedToo⟩ | ⟨⟨context, document⟩, params, counted, looked⟩
  · rw [refused, refusedToo]
    rfl
  · rw [counted, looked, params]
    rcases cases_of_takes (Signature.takes_twoReturns method)
        (rfl : returnsExactly method 2 = _) with
      ⟨refused, refusedToo⟩ | ⟨⟨result, failure⟩, returns, counted, looked⟩
    · rw [refused, refusedToo]
      rfl
    · simp only [counted, looked, returnIs_second returns, returns, except_ok_bind]
      cases Signature.paramIs method 0 config.contextType with
      | error cause => rfl
      | ok done =>
          cases Signature.returnIs 1 failure config.errorType with
          | error cause => rfl
          | ok done =>
              simp only [except_ok_bind, behindCheck, List.getElem?_cons_succ,
                List.getElem?_cons_zero, Option.bind_eq_bind, Option.bind_some]
              split
              · split <;> rfl
              · split
                · split <;> rfl
                · rfl

/-! ## Inserts -/

/-- A written mode must agree with the mode of the signature. -/
def checkWritten (method : Method) (mode : Mode) (run : List Word) :
    Option Mode -> Checked Unit
  | none => pure ()
  | some written =>
      if written = mode then
        pure ()
      else do
        let document ← lookUp method.params[1]?
        lift (Binding.refuse (.insertModeType written document.type) run)

/-- Read the words behind `Insert`. -/
def insert (scope : Scope) (run : List Word) : Invocation -> Checked Insert
  | .standalone => do
      let checked ← lookUp (insertMode scope.method scope.config)
      let mode ← lift (Binding.ofCheck checked)
      let written? ← lift (Binding.ofResult (Insert.writtenMode? run))
      checkWritten scope.method mode run written?
      let context ← lift Binding.takeContext
      let document ← lift (Binding.takeParam run)
      lift Binding.ensureExhausted
      return ⟨scope.method.name, mode, some context, document.name⟩
  | .nested => lift (Insert.readNested scope run)

theorem checkWritten_eq
    {mode : Mode}
    {type : TypeExpr}
    (checked : Signature.insert method config = .ok (mode, type))
    (run : List Word)
    (written? : Option Mode) :
    checkWritten method mode run written? =
      lift (Insert.checkWritten mode type run written?) := by
  obtain ⟨context, document, params, -, rfl, -⟩ := Signature.insert_eq_ok_iff.mp checked
  cases written? with
  | none => rfl
  | some written =>
      rw [checkWritten, Insert.checkWritten, params]
      split <;> rfl

theorem insert_eq
    (scope : Scope)
    (run : List Word)
    (invocation : Invocation) :
    insert scope run invocation = lift (Insert.read scope run invocation) := by
  cases invocation with
  | standalone =>
      rw [insert, insertMode_eq, lookUp_some_bind, Insert.read, Insert.readStandalone]
      cases checked : Signature.insert scope.method scope.config with
      | error cause => rfl
      | ok parts =>
          obtain ⟨mode, type⟩ := parts
          simp only [Except.map, Binding.ofCheck, lift_pure, pure_bind]
          refine bind_eq_lift rfl fun written? _ => ?_
          refine bind_eq_lift (checkWritten_eq checked run written?) fun _ _ => ?_
          refine bind_eq_lift rfl fun context _ => ?_
          refine bind_eq_lift rfl fun document _ => ?_
          exact then_pure_eq_lift rfl _
  | nested => rfl

/-! ## Updates and Deletes -/

/-- The opening of an Update or Delete. -/
def openWrite
    (operation : Keyword)
    (signature : Option (Except Cause Mode))
    (run : List Word) :
    Invocation -> Checked (Mode × Option String × List Word)
  | .standalone => do
      let checked ← lookUp signature
      let mode ← lift (Binding.ofCheck checked)
      let context ← lift Binding.takeContext
      return (mode, some context, run)
  | .nested => do
      let (mode, rest) ← lift (Binding.ofResult (Scope.nestedMode run operation))
      if rest.isEmpty then
        lift (Binding.refuse (.emptyStep operation mode) run)
      else
        return (mode, none, rest)

theorem openWrite_eq
    (operation : Keyword)
    (signature : Except Cause Mode)
    (run : List Word)
    (invocation : Invocation) :
    openWrite operation (some signature) run invocation =
      lift (Scope.openWrite operation signature run invocation) := by
  cases invocation with
  | standalone => exact bind_eq_lift rfl fun mode _ => then_pure_eq_lift rfl _
  | nested =>
      refine bind_eq_lift rfl ?_
      rintro ⟨mode, rest⟩ -
      dsimp only
      split <;> rfl

/-- Divide a run at the position of its first `By` or `All`. -/
def splitAtQuery (run : List Word) : Option (Except Fault (List Word × List Word)) :=
  match run.findIdx? Scope.startsQuery with
  | none => some (.error (Fault.on .missingQuery run))
  | some index => do
      let front ← slice? run 0 index
      let query ← slice? run index run.length
      return .ok (front, query)

theorem splitAtQuery_eq (run : List Word) :
    splitAtQuery run = some (Scope.splitAtQuery run) := by
  rw [splitAtQuery, Scope.splitAtQuery, takeWhile_eq_take_findIdx, dropWhile_eq_drop_findIdx]
  cases found : run.findIdx? Scope.startsQuery with
  | none => rw [List.findIdx?_eq_none_iff_findIdx_eq.mp found, List.drop_length]
  | some index =>
      obtain ⟨within, index_eq⟩ := List.findIdx?_eq_some_iff_findIdx_eq.mp found
      simp only [index_eq, slice?_upTo within.le, slice?_from within.le, Option.bind_eq_bind,
        Option.bind_some, List.drop_eq_getElem_cons within]
      rfl

/-- Bind one parameter for each field path, each of the type of its field. -/
def bindFields (run : List Word) : List FieldPath -> Checked (List FieldBinding)
  | [] => pure []
  | path :: rest => do
      let names ← lift (Binding.takeNames path.type 1 run)
      let name ← lookUp names[0]?
      let others ← bindFields run rest
      return ⟨path.key, name⟩ :: others

theorem bindFields_eq
    (run : List Word)
    (paths : List FieldPath) :
    bindFields run paths = lift (Payload.bindFields run paths) := by
  induction paths with
  | nil => rfl
  | cons path rest hypothesis =>
      refine bind_eq_lift rfl ?_
      rintro names ⟨params, _, yields⟩
      obtain ⟨taken, -, one, rfl, -⟩ := Binding.yields_takeNames.mp yields
      obtain ⟨param, rfl⟩ := List.length_eq_one_iff.mp one
      exact then_pure_eq_lift hypothesis _

/-- Read what an Update with the words `body` writes. -/
def payload (scope : Scope) (body fields : List Word) : Checked Payload :=
  if fields.isEmpty then
    lift (Payload.readEntity scope body)
  else do
    let resolved ← lookUp (resolveAll scope.schema fields)
    let paths ← lift (Binding.ofResult (resolved.mapError ResolveError.fault))
    let bindings ← bindFields fields paths
    return .fields bindings

theorem payload_eq
    (scope : Scope)
    (body fields : List Word) :
    payload scope body fields = lift (Payload.read scope body fields) := by
  rw [payload, Payload.read]
  split
  · rfl
  · rw [resolveAll_eq, lookUp_some_bind]
    exact bind_eq_lift rfl fun paths _ => then_pure_eq_lift (bindFields_eq fields paths) _

/-- Read the words behind `Update`. -/
def update (scope : Scope) (run : List Word) (invocation : Invocation) : Checked Update := do
  let (mode, context, body) ← openWrite .update
    (behindStandard scope.method scope.config 2 (Signature.writeMode scope.config)) run invocation
  let divided ← lookUp (splitAtQuery body)
  let (front, queryRun) ← lift (Binding.ofResult divided)
  let (upsert, fields) := Update.splitUpsert front
  let written ← payload scope body fields
  let matched ← query scope queryRun
  lift (Scope.closeWrite invocation)
  return ⟨scope.method.name, mode, context, upsert, written, matched⟩

theorem update_eq
    (scope : Scope)
    (run : List Word)
    (invocation : Invocation) :
    update scope run invocation = lift (Update.read scope run invocation) := by
  rw [update, behindStandard_eq]
  refine bind_eq_lift (openWrite_eq _ _ run invocation) ?_
  rintro ⟨mode, context, body⟩ -
  simp only [splitAtQuery_eq, lookUp_some_bind]
  refine bind_eq_lift rfl ?_
  rintro ⟨front, queryRun⟩ -
  refine bind_eq_lift (payload_eq scope body _) fun written _ => ?_
  refine bind_eq_lift (query_eq scope queryRun) fun matched _ => ?_
  exact then_pure_eq_lift rfl _

/-- Read a query with nothing in front of it. -/
def bareQuery (scope : Scope) (run : List Word) : Checked Query := do
  let divided ← lookUp (splitAtQuery run)
  let (front, queryRun) ← lift (Binding.ofResult divided)
  if front.isEmpty then
    query scope queryRun
  else
    lift (throw (Scope.unexpected front "before By or All"))

theorem bareQuery_eq
    (scope : Scope)
    (run : List Word) :
    bareQuery scope run = lift (Scope.readBareQuery scope run) := by
  rw [bareQuery, splitAtQuery_eq, lookUp_some_bind]
  refine bind_eq_lift rfl ?_
  rintro ⟨front, queryRun⟩ -
  dsimp only
  split
  · exact query_eq scope queryRun
  · rfl

/-- Read the words behind `Delete`. -/
def delete (scope : Scope) (run : List Word) (invocation : Invocation) : Checked Delete := do
  let (mode, context, body) ← openWrite .delete
    (behindStandard scope.method scope.config 1 (Signature.writeMode scope.config)) run invocation
  let matched ← bareQuery scope body
  lift (Scope.closeWrite invocation)
  return ⟨scope.method.name, mode, context, matched⟩

theorem delete_eq
    (scope : Scope)
    (run : List Word)
    (invocation : Invocation) :
    delete scope run invocation = lift (Delete.read scope run invocation) := by
  rw [delete, behindStandard_eq]
  refine bind_eq_lift (openWrite_eq _ _ run invocation) ?_
  rintro ⟨mode, context, body⟩ -
  refine bind_eq_lift (bareQuery_eq scope body) fun matched _ => ?_
  exact then_pure_eq_lift rfl _

end Positions
end DerivedQuery
