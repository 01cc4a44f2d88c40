import DerivedQuery.Proofs.RecordOrigin
import DerivedQuery.Proofs.Slots.Batch
import DerivedQuery.Proofs.Slots.Search

/-!
# Readers move forward

Whether a reader succeeds or fails, it has bound a row of parameters at the
front and has left the others as they were. When it succeeds, the slots of what
it returns hold that row, from whatever parameter it started at.
-/

namespace DerivedQuery

/-! ## What is left -/

namespace Binding

variable {α β : Type}

/-- A reader leaves the end of its parameters, whether it succeeds or fails. -/
def Advances (binding : Binding α) : Prop :=
  ∀ params, (binding.start params).2 <:+ params

theorem advances_pure (value : α) : Advances (pure value) :=
  fun _ => List.suffix_rfl

theorem advances_throw (fault : Fault) : Advances (throw fault : Binding α) :=
  fun _ => List.suffix_rfl

theorem advances_refuse (cause : Cause) (run : List Word) :
    Advances (refuse cause run : Binding α) :=
  advances_throw _

theorem Advances.bind
    {binding : Binding α}
    {next : α -> Binding β}
    (advances : binding.Advances)
    (further : ∀ value, (next value).Advances) :
    (binding >>= next).Advances := by
  intro params
  have first := advances params
  rw [start_bind]
  generalize binding.start params = outcome at first ⊢
  rcases outcome with ⟨fault | value, middle⟩
  · exact first
  · exact (further value middle).trans first

theorem Advances.then_pure
    {binding : Binding α}
    (advances : binding.Advances)
    (image : α -> β) :
    (binding >>= fun value => pure (image value)).Advances :=
  advances.bind fun _ => advances_pure _

theorem advances_ofResult (outcome : Except Fault α) : Advances (ofResult outcome) := by
  cases outcome with
  | error fault => exact advances_throw fault
  | ok value => exact advances_pure value

theorem advances_ofCheck (outcome : Except Cause α) : Advances (ofCheck outcome) := by
  cases outcome with
  | error cause => exact advances_throw _
  | ok value => exact advances_pure value

theorem advances_takeContext : Advances takeContext := by
  intro params
  cases params with
  | nil => exact List.suffix_rfl
  | cons param others => exact List.suffix_cons param others

theorem advances_takeParam (run : List Word) : Advances (takeParam run) := by
  intro params
  cases params with
  | nil => exact List.suffix_rfl
  | cons param others => exact List.suffix_cons param others

/-- Parameters are bound also when one of them has another type. -/
theorem advances_takeNames
    (required : TypeExpr)
    (count : Nat)
    (run : List Word) :
    Advances (takeNames required count run) := by
  intro params
  rw [start_takeNames]
  split
  · exact List.drop_suffix count params
  · exact List.suffix_rfl

theorem advances_ensureExhausted : Advances ensureExhausted := by
  intro params
  cases params with
  | nil => exact List.suffix_rfl
  | cons param others => exact List.suffix_rfl

theorem advances_takeWhileType (type : TypeExpr) : Advances (takeWhileType type) :=
  fun _ => List.dropWhile_suffix _

end Binding

theorem Condition.advances_read
    (scope : Scope)
    (run : List Word) :
    (Condition.read scope run).Advances := by
  unfold Condition.read
  split
  · exact Binding.advances_refuse _ _
  · split
    · exact Binding.advances_refuse _ _
    · dsimp only
      split
      · exact Binding.advances_refuse _ _
      · apply (Binding.advances_ofResult _).bind
        intro path
        exact (Binding.advances_takeNames _ _ _).then_pure _

theorem QueryExpr.advances_read
    (scope : Scope)
    (outline : Outline) :
    (QueryExpr.read scope outline).Advances := by
  induction outline with
  | leaf run => exact (Condition.advances_read scope run).then_pure _
  | node connective left right leftHypothesis rightHypothesis =>
      apply leftHypothesis.bind
      intro leftExpr
      exact rightHypothesis.then_pure _
  | broken error => exact Binding.advances_throw _

theorem Query.advances_read
    (scope : Scope)
    (run : List Word) :
    (Query.read scope run).Advances := by
  unfold Query.read
  split
  · exact Binding.advances_throw _
  · split
    · split
      · exact Binding.advances_pure _
      · exact Binding.advances_refuse _ _
    · split
      · exact Binding.advances_refuse _ _
      · apply (Binding.advances_ofResult _).bind
        intro _
        exact (QueryExpr.advances_read scope _).then_pure _
    · exact Binding.advances_refuse _ _

theorem Insert.advances_read
    (scope : Scope)
    (run : List Word)
    (invocation : Invocation) :
    (Insert.read scope run invocation).Advances := by
  cases invocation with
  | standalone =>
      apply (Binding.advances_ofCheck _).bind
      rintro ⟨mode, documentType⟩
      apply (Binding.advances_ofResult _).bind
      intro written?
      apply Binding.Advances.bind
      · unfold checkWritten
        split
        · exact Binding.advances_pure _
        · split
          · exact Binding.advances_pure _
          · exact Binding.advances_refuse _ _
      · intro _
        apply Binding.advances_takeContext.bind
        intro context
        apply (Binding.advances_takeParam run).bind
        intro document
        exact Binding.advances_ensureExhausted.then_pure _
  | nested =>
      apply (Binding.advances_ofResult _).bind
      rintro ⟨mode, rest⟩
      dsimp only
      split
      · apply (Binding.advances_takeParam run).bind
        intro document
        split
        · exact Binding.advances_pure _
        · exact Binding.advances_refuse _ _
      · exact Binding.advances_throw _

namespace Payload

theorem advances_readEntity
    (scope : Scope)
    (run : List Word) :
    (readEntity scope run).Advances := by
  apply (Binding.advances_takeParam run).bind
  intro param
  split
  · split
    · exact Binding.advances_pure _
    · exact Binding.advances_refuse _ _
  · exact Binding.advances_refuse _ _
  · exact Binding.advances_refuse _ _

theorem advances_bindFields
    (run : List Word)
    (paths : List FieldPath) :
    (bindFields run paths).Advances := by
  induction paths with
  | nil => exact Binding.advances_pure _
  | cons path paths hypothesis =>
      apply (Binding.advances_takeNames _ _ _).bind
      intro names
      exact hypothesis.then_pure _

theorem advances_read
    (scope : Scope)
    (body fields : List Word) :
    (read scope body fields).Advances := by
  unfold read
  split
  · exact advances_readEntity scope body
  · apply (Binding.advances_ofResult _).bind
    intro paths
    exact (advances_bindFields fields paths).then_pure _

end Payload

namespace Scope

theorem advances_openWrite
    (operation : Keyword)
    (signature : Except Cause Mode)
    (run : List Word)
    (invocation : Invocation) :
    (openWrite operation signature run invocation).Advances := by
  cases invocation with
  | standalone =>
      apply (Binding.advances_ofCheck _).bind
      intro mode
      exact Binding.advances_takeContext.then_pure _
  | nested =>
      apply (Binding.advances_ofResult _).bind
      rintro ⟨mode, rest⟩
      dsimp only
      split
      · exact Binding.advances_refuse _ _
      · exact Binding.advances_pure _

theorem advances_closeWrite (invocation : Invocation) : (closeWrite invocation).Advances := by
  cases invocation with
  | standalone => exact Binding.advances_ensureExhausted
  | nested => exact Binding.advances_pure _

theorem advances_readBareQuery
    (scope : Scope)
    (run : List Word) :
    (readBareQuery scope run).Advances := by
  apply (Binding.advances_ofResult _).bind
  rintro ⟨front, queryRun⟩
  dsimp only
  split
  · exact Query.advances_read scope queryRun
  · exact Binding.advances_throw _

end Scope

theorem Update.advances_read
    (scope : Scope)
    (run : List Word)
    (invocation : Invocation) :
    (Update.read scope run invocation).Advances := by
  apply (Scope.advances_openWrite _ _ run invocation).bind
  rintro ⟨mode, context, body⟩
  apply (Binding.advances_ofResult _).bind
  rintro ⟨front, queryRun⟩
  apply (Payload.advances_read scope _ _).bind
  intro payload
  apply (Query.advances_read scope queryRun).bind
  intro query
  exact (Scope.advances_closeWrite invocation).then_pure _

theorem Delete.advances_read
    (scope : Scope)
    (run : List Word)
    (invocation : Invocation) :
    (Delete.read scope run invocation).Advances := by
  apply (Scope.advances_openWrite _ _ run invocation).bind
  rintro ⟨mode, context, body⟩
  apply (Scope.advances_readBareQuery scope body).bind
  intro query
  exact (Scope.advances_closeWrite invocation).then_pure _

theorem Count.advances_read
    (scope : Scope)
    (run : List Word) :
    (Count.read scope run).Advances := by
  apply (Binding.advances_ofCheck _).bind
  intro _
  apply Binding.advances_takeContext.bind
  intro context
  apply (Scope.advances_readBareQuery scope run).bind
  intro query
  exact Binding.advances_ensureExhausted.then_pure _

namespace Find

theorem advances_readPaging
    (scope : Scope)
    (option : Keyword)
    (clause : Clause) :
    (readPaging scope option clause).Advances := by
  unfold readPaging
  split
  · apply (Binding.advances_takeParam _).bind
    intro param
    split
    · exact Binding.advances_pure _
    · exact Binding.advances_refuse _ _
  · exact Binding.advances_throw _

theorem advances_readClause
    (scope : Scope)
    (mode : Mode)
    (settled : Clauses)
    (clause : Clause) :
    (readClause scope mode settled clause).Advances := by
  unfold readClause
  split
  · split
    · exact Binding.advances_refuse _ _
    · split
      · exact Binding.advances_refuse _ _
      · exact (Binding.advances_ofResult _).then_pure _
  · split
    · exact Binding.advances_refuse _ _
    · exact (advances_readPaging scope .skip clause).then_pure _
  · split
    · exact Binding.advances_refuse _ _
    · split
      · exact Binding.advances_refuse _ _
      · exact (advances_readPaging scope .limit clause).then_pure _
  · split
    · exact Binding.advances_refuse _ _
    · exact (Query.advances_read scope clause.run).then_pure _

theorem advances_readClauses
    (scope : Scope)
    (mode : Mode)
    (settled : Clauses)
    (clauses : List Clause) :
    (readClauses scope mode settled clauses).Advances := by
  induction clauses generalizing settled with
  | nil => exact Binding.advances_pure _
  | cons clause clauses hypothesis =>
      apply (advances_readClause scope mode settled clause).bind
      intro next
      exact hypothesis next

theorem advances_read
    (scope : Scope)
    (run : List Word) :
    (Find.read scope run).Advances := by
  apply (Binding.advances_ofCheck _).bind
  rintro ⟨mode, returnType⟩
  apply Binding.advances_takeContext.bind
  intro context
  apply (Binding.advances_ofResult _).bind
  intro _
  apply (Binding.advances_ofResult _).bind
  intro projection
  apply (advances_readClauses scope mode _ _).bind
  intro settled
  split
  · exact Binding.advances_throw _
  · exact Binding.advances_ensureExhausted.then_pure _

end Find

namespace Bulk

theorem advances_stepRead
    (scope : Scope)
    (body : List Word)
    (kind : StepKind) :
    (kind.read scope body).Advances := by
  cases kind with
  | insert => exact (Insert.advances_read scope body .nested).then_pure _
  | update => exact (Update.advances_read scope body .nested).then_pure _
  | delete => exact (Delete.advances_read scope body .nested).then_pure _

theorem advances_readSteps
    (scope : Scope)
    (run : List Word) :
    (readSteps scope run).Advances := by
  fun_induction readSteps scope run with
  | case1 => exact Binding.advances_pure _
  | case2 word rest fault parts => exact Binding.advances_throw _
  | case3 word rest kind body after parts hypothesis =>
      apply (advances_stepRead scope body kind).bind
      intro step
      exact hypothesis.then_pure _

theorem advances_read
    (scope : Scope)
    (run : List Word)
    (invocation : Invocation) :
    (Bulk.read scope run invocation).Advances := by
  apply Binding.Advances.bind
  · cases invocation with
    | standalone =>
        apply (Binding.advances_ofCheck _).bind
        intro _
        exact Binding.advances_takeContext.then_pure _
    | nested => exact Binding.advances_pure _
  · intro context
    apply (advances_readSteps scope run).bind
    intro steps
    split
    · exact Binding.advances_refuse _ _
    · exact (Scope.advances_closeWrite invocation).then_pure _

end Bulk

namespace Transaction

theorem advances_stepRead
    (scope : Scope)
    (body : List Word)
    (kind : StepKind) :
    (kind.read scope body).Advances := by
  cases kind with
  | insert => exact (Insert.advances_read scope body .nested).then_pure _
  | update => exact (Update.advances_read scope body .nested).then_pure _
  | delete => exact (Delete.advances_read scope body .nested).then_pure _
  | bulk => exact (Bulk.advances_read scope body .nested).then_pure _

theorem advances_readSteps
    (scope : Scope)
    (handles : List CollectionHandle)
    (run : List Word) :
    (readSteps scope handles run).Advances := by
  fun_induction readSteps scope handles run with
  | case1 => exact Binding.advances_pure _
  | case2 word rest fault parts => exact Binding.advances_throw _
  | case3 word rest start body after parts hypothesis =>
      apply (advances_stepRead scope body start.kind).bind
      intro action
      exact hypothesis.then_pure _

theorem advances_read
    (scope : Scope)
    (run : List Word) :
    (Transaction.read scope run).Advances := by
  apply (Binding.advances_ofCheck _).bind
  intro _
  apply Binding.advances_takeContext.bind
  intro context
  apply (Binding.advances_takeParam run).bind
  intro client
  apply (Binding.advances_takeWhileType _).bind
  intro collections
  apply (advances_readSteps scope _ run).bind
  intro steps
  split
  · exact Binding.advances_refuse _ _
  · exact Binding.advances_ensureExhausted.then_pure _

end Transaction

/-! ## What is bound -/

namespace Slot

variable {slots others : List Slot}
variable {params middle rest : List Param}

/-- Slots that hold the parameters from `params` up to `rest` by name, whatever
their types are. -/
def Names
    (slots : List Slot)
    (params rest : List Param) : Prop :=
  params.map Param.name = slots.flatMap names ++ rest.map Param.name

theorem Names.append
    (front : Names slots params middle)
    (back : Names others middle rest) :
    Names (slots ++ others) params rest := by
  unfold Names at front back ⊢
  rw [front, back, List.flatMap_append, List.append_assoc]

/-- The parameters that were bound are those the slots name. -/
theorem Names.of_append
    {taken : List Param}
    (named : Names slots (taken ++ rest) rest) :
    slots.flatMap names = taken.map Param.name := by
  unfold Names at named
  rw [List.map_append] at named
  exact (List.append_cancel_right named).symm

end Slot

variable {scope : Scope}
variable {params rest : List Param}
variable {run : List Word}
variable {invocation : Invocation}

theorem Scope.names_of_yields_openWrite
    {operation : Keyword}
    {signature : Except Cause Mode}
    {mode : Mode}
    {context : Option String}
    {body : List Word}
    (yields : (openWrite operation signature run invocation).Yields params
      (mode, context, body) rest) :
    Slot.Names (Slot.ofContext context) params rest := by
  rcases yields_openWrite_iff.mp yields with
    ⟨-, -, -, param, rfl, rfl⟩ | ⟨-, -, -, rfl, rfl⟩
  · rfl
  · rfl

theorem Insert.names_of_yields_read
    {insert : Insert}
    (yields : (Insert.read scope run invocation).Yields params insert rest) :
    Slot.Names insert.slots params rest := by
  cases invocation with
  | standalone =>
      obtain ⟨context, document, _, -, -, rfl, -, context_eq, document_eq, rfl⟩ :=
        yields_readStandalone_iff.mp yields
      simp [Slot.Names, Insert.slots, Slot.ofContext, Slot.names, context_eq, document_eq]
  | nested => exact (fills_of_yields_readNested yields).names_eq

theorem Update.names_of_yields_read
    {update : Update}
    (yields : (Update.read scope run invocation).Yields params update rest) :
    Slot.Names update.slots params rest := by
  obtain ⟨_, _, _, _, _, opens, -, -, readsPayload, readsQuery, -⟩ := yields_read_iff.mp yields
  have payloadNames := (Payload.fills_of_yields_read readsPayload).names_eq
  have queryNames := (Query.fills_of_yields_read readsQuery).names_eq
  exact ((Scope.names_of_yields_openWrite opens).append payloadNames).append queryNames

theorem Delete.names_of_yields_read
    {delete : Delete}
    (yields : (Delete.read scope run invocation).Yields params delete rest) :
    Slot.Names delete.slots params rest := by
  obtain ⟨_, _, opens, -, readsQuery, -⟩ := yields_read_iff.mp yields
  have queryNames := (Query.fills_of_yields_read readsQuery).names_eq
  exact (Scope.names_of_yields_openWrite opens).append queryNames

theorem Count.names_of_yields_read
    {count : Count}
    (yields : (Count.read scope run).Yields params count rest) :
    Slot.Names count.slots params rest := by
  obtain ⟨context, opened, -, rfl, -, readsQuery, -, context_eq, rfl⟩ := yields_read_iff.mp yields
  have contextNames : Slot.Names [.context count.context] (context :: opened) opened := by
    rw [context_eq]
    rfl
  exact contextNames.append (Query.fills_of_yields_read readsQuery).names_eq

/-- The clauses of a Find bind in the order in which they are written. -/
theorem Find.names_of_yields_read
    {find : Find}
    (yields : (Find.read scope run).Yields params find rest) :
    Slot.Names (find.slots run) params rest := by
  obtain ⟨context, others, settled, -, rfl, -, -, readsClauses, settles, -, context_eq, -, skip_eq,
    limit_eq, rfl⟩ := yields_read_iff.mp yields
  have keeps : find.Keeps settled := by
    refine ⟨fun name found => skip_eq.trans found, fun name found => limit_eq.trans found, ?_⟩
    intro query found
    exact Option.some.inj (settles.symm.trans found)
  have contextNames : Slot.Names [.context find.context] (context :: others) others := by
    rw [context_eq]
    rfl
  obtain ⟨-, fillsClauses⟩ := fills_of_yields_readClauses readsClauses keeps
  rw [flatMap_clauseSlots_ofRun, flatMap_clauseSlots_dropWhile] at fillsClauses
  exact contextNames.append fillsClauses.names_eq

theorem Bulk.names_of_yields_read
    {bulk : Bulk}
    (yields : (Bulk.read scope run invocation).Yields params bulk rest) :
    Slot.Names bulk.slots params rest := by
  obtain ⟨opened, readsContext, readsSteps, -⟩ := yields_read_iff.mp yields
  have contextNames : Slot.Names (Slot.ofContext bulk.context) params opened := by
    rcases yields_readContext_iff.mp readsContext with
      ⟨-, -, param, context_eq, rfl⟩ | ⟨-, context_eq, rfl⟩
    · rw [context_eq]
      rfl
    · rw [context_eq]
      rfl
  exact contextNames.append (fills_of_yields_readSteps readsSteps).names_eq

theorem Transaction.names_of_yields_read
    {transaction : Transaction}
    (yields : (Transaction.read scope run).Yields params transaction rest) :
    Slot.Names transaction.slots params rest := by
  obtain ⟨context, client, row, tail, steps, -, rfl, -, -, readsSteps, -, rfl, rfl⟩ :=
    yields_read_iff.mp yields
  have handleNames : Slot.Names
      ((row.map CollectionHandle.ofParam).map fun handle => .collection handle.param)
      (row ++ tail) tail := by
    rw [Slot.Names, List.map_append, List.flatMap_map, List.flatMap_map, List.map_eq_flatMap]
    rfl
  have openingNames : Slot.Names [.context context.name, .client client.name]
      (context :: client :: (row ++ tail)) (row ++ tail) := rfl
  exact openingNames.append (handleNames.append (fills_of_yields_readSteps readsSteps).names_eq)

end DerivedQuery
