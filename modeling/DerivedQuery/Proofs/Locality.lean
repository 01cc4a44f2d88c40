import DerivedQuery.Proofs.OperationReader

/-!
# Readers bind from the front

A local reader binds a share at the front of the parameters and does not look
at what is behind it. Everything that a step or a clause is read by is local,
so a step or clause that was read once is read in the same way wherever its
share is the next one. Nor does it matter which method a step belongs to, apart
from the name of the method.
-/

namespace DerivedQuery

namespace Binding

variable {α β : Type}
variable {params share rest : List Param}

/-- What the reader succeeds with is read from a share in front, whatever is
left behind it. -/
def Local (binding : Binding α) : Prop :=
  ∀ params value rest, binding.Yields params value rest ->
    ∃ share, params = share ++ rest ∧
      ∀ others, binding.Yields (share ++ others) value others

/-- A share is read in the same way in front of other parameters. -/
theorem Local.yields_of_share
    {binding : Binding α}
    {value : α}
    (isLocal : binding.Local)
    (yields : binding.Yields (share ++ rest) value rest)
    (others : List Param) :
    binding.Yields (share ++ others) value others := by
  obtain ⟨front, share_eq, further⟩ := isLocal _ _ _ yields
  rw [List.append_cancel_right share_eq]
  exact further others

/-- Parameters behind those left over stay where they are. -/
theorem Local.yields_append
    {binding : Binding α}
    {value : α}
    (isLocal : binding.Local)
    (yields : binding.Yields params value rest)
    (others : List Param) :
    binding.Yields (params ++ others) value (rest ++ others) := by
  obtain ⟨front, rfl, further⟩ := isLocal _ _ _ yields
  rw [List.append_assoc]
  exact further (rest ++ others)

theorem local_pure (value : α) : Local (pure value) := by
  intro params result rest yields
  obtain ⟨rfl, rfl⟩ := yields_pure.mp yields
  exact ⟨[], rfl, fun others => yields_pure.mpr ⟨rfl, rfl⟩⟩

theorem local_throw (fault : Fault) : Local (throw fault : Binding α) := by
  intro params result rest yields
  simp at yields

theorem local_refuse (cause : Cause) (run : List Word) : Local (refuse cause run : Binding α) :=
  local_throw _

/-- Shares of composed readers stand one behind the other. -/
theorem Local.bind
    {binding : Binding α}
    {next : α -> Binding β}
    (isLocal : binding.Local)
    (further : ∀ value, (next value).Local) :
    (binding >>= next).Local := by
  intro params result rest yields
  obtain ⟨value, middle, yieldsFirst, yieldsNext⟩ := yields_bind.mp yields
  obtain ⟨front, rfl, frontReads⟩ := isLocal _ _ _ yieldsFirst
  obtain ⟨back, rfl, backReads⟩ := further value _ _ _ yieldsNext
  refine ⟨front ++ back, (List.append_assoc front back rest).symm, ?_⟩
  intro others
  rw [List.append_assoc]
  exact yields_bind.mpr ⟨value, back ++ others, frontReads _, backReads _⟩

theorem Local.then_pure
    {binding : Binding α}
    (isLocal : binding.Local)
    (image : α -> β) :
    (binding >>= fun value => pure (image value)).Local :=
  isLocal.bind fun _ => local_pure _

theorem local_ofResult (outcome : Except Fault α) : Local (ofResult outcome) := by
  cases outcome with
  | error fault => exact local_throw fault
  | ok value => exact local_pure value

theorem local_takeParam (run : List Word) : Local (takeParam run) := by
  intro params param rest yields
  obtain rfl := yields_takeParam.mp yields
  exact ⟨[param], rfl, fun others => yields_takeParam.mpr rfl⟩

theorem local_takeNames
    (required : TypeExpr)
    (count : Nat)
    (run : List Word) :
    Local (takeNames required count run) := by
  intro params names rest yields
  obtain ⟨taken, rfl, length_eq, names_eq, typed⟩ := yields_takeNames.mp yields
  refine ⟨taken, rfl, fun others => ?_⟩
  exact yields_takeNames.mpr ⟨taken, rfl, length_eq, names_eq, typed⟩

end Binding

/-! ## Local readers -/

theorem Condition.local_read
    (scope : Scope)
    (run : List Word) :
    (Condition.read scope run).Local := by
  unfold Condition.read
  split
  · exact Binding.local_refuse _ _
  · split
    · exact Binding.local_refuse _ _
    · dsimp only
      split
      · exact Binding.local_refuse _ _
      · apply (Binding.local_ofResult _).bind
        intro path
        exact (Binding.local_takeNames _ _ _).then_pure _

theorem QueryExpr.local_read
    (scope : Scope)
    (outline : Outline) :
    (QueryExpr.read scope outline).Local := by
  induction outline with
  | leaf run => exact (Condition.local_read scope run).then_pure _
  | node connective left right leftHypothesis rightHypothesis =>
      apply leftHypothesis.bind
      intro leftExpr
      exact rightHypothesis.then_pure _
  | broken error => exact Binding.local_throw _

theorem Query.local_read
    (scope : Scope)
    (run : List Word) :
    (Query.read scope run).Local := by
  unfold Query.read
  split
  · exact Binding.local_throw _
  · split
    · split
      · exact Binding.local_pure _
      · exact Binding.local_refuse _ _
    · split
      · exact Binding.local_refuse _ _
      · apply (Binding.local_ofResult _).bind
        intro _
        exact (QueryExpr.local_read scope _).then_pure _
    · exact Binding.local_refuse _ _

theorem Insert.local_readNested
    (scope : Scope)
    (run : List Word) :
    (Insert.readNested scope run).Local := by
  apply (Binding.local_ofResult _).bind
  rintro ⟨mode, rest⟩
  dsimp only
  split
  · apply (Binding.local_takeParam run).bind
    intro document
    split
    · exact Binding.local_pure _
    · exact Binding.local_refuse _ _
  · exact Binding.local_throw _

namespace Payload

theorem local_readEntity
    (scope : Scope)
    (run : List Word) :
    (readEntity scope run).Local := by
  apply (Binding.local_takeParam run).bind
  intro param
  split
  · split
    · exact Binding.local_pure _
    · exact Binding.local_refuse _ _
  · exact Binding.local_refuse _ _
  · exact Binding.local_refuse _ _

theorem local_bindFields
    (run : List Word)
    (paths : List FieldPath) :
    (bindFields run paths).Local := by
  induction paths with
  | nil => exact Binding.local_pure _
  | cons path paths hypothesis =>
      apply (Binding.local_takeNames _ _ _).bind
      intro names
      exact hypothesis.then_pure _

theorem local_read
    (scope : Scope)
    (body fields : List Word) :
    (read scope body fields).Local := by
  unfold read
  split
  · exact local_readEntity scope body
  · apply (Binding.local_ofResult _).bind
    intro paths
    exact (local_bindFields fields paths).then_pure _

end Payload

namespace Scope

/-- As a step, a write takes nothing but its mode off its words to open. -/
theorem local_openWrite_nested
    (operation : Keyword)
    (signature : Except Cause Mode)
    (run : List Word) :
    (openWrite operation signature run .nested).Local := by
  apply (Binding.local_ofResult _).bind
  rintro ⟨mode, rest⟩
  dsimp only
  split
  · exact Binding.local_refuse _ _
  · exact Binding.local_pure _

theorem local_readBareQuery
    (scope : Scope)
    (run : List Word) :
    (readBareQuery scope run).Local := by
  apply (Binding.local_ofResult _).bind
  rintro ⟨front, queryRun⟩
  dsimp only
  split
  · exact Query.local_read scope queryRun
  · exact Binding.local_throw _

end Scope

theorem Update.local_read_nested
    (scope : Scope)
    (run : List Word) :
    (Update.read scope run .nested).Local := by
  apply (Scope.local_openWrite_nested _ _ run).bind
  rintro ⟨mode, context, body⟩
  apply (Binding.local_ofResult _).bind
  rintro ⟨front, queryRun⟩
  apply (Payload.local_read scope _ _).bind
  intro payload
  apply (Query.local_read scope queryRun).bind
  intro query
  exact Binding.local_pure _

theorem Delete.local_read_nested
    (scope : Scope)
    (run : List Word) :
    (Delete.read scope run .nested).Local := by
  apply (Scope.local_openWrite_nested _ _ run).bind
  rintro ⟨mode, context, body⟩
  apply (Scope.local_readBareQuery scope body).bind
  intro query
  exact Binding.local_pure _

namespace Bulk

theorem local_stepRead
    (scope : Scope)
    (body : List Word)
    (kind : StepKind) :
    (kind.read scope body).Local := by
  cases kind with
  | insert => exact (Insert.local_readNested scope body).then_pure _
  | update => exact (Update.local_read_nested scope body).then_pure _
  | delete => exact (Delete.local_read_nested scope body).then_pure _

theorem local_readSteps
    (scope : Scope)
    (run : List Word) :
    (readSteps scope run).Local := by
  fun_induction readSteps scope run with
  | case1 => exact Binding.local_pure _
  | case2 word rest fault parts => exact Binding.local_throw _
  | case3 word rest kind body after parts hypothesis =>
      apply (local_stepRead scope body kind).bind
      intro step
      exact hypothesis.then_pure _

theorem local_read_nested
    (scope : Scope)
    (run : List Word) :
    (Bulk.read scope run .nested).Local := by
  apply (Binding.local_pure _).bind
  intro context
  apply (local_readSteps scope run).bind
  intro steps
  split
  · exact Binding.local_refuse _ _
  · exact Binding.local_pure _

end Bulk

namespace Transaction

theorem local_stepRead
    (scope : Scope)
    (body : List Word)
    (kind : StepKind) :
    (kind.read scope body).Local := by
  cases kind with
  | insert => exact (Insert.local_readNested scope body).then_pure _
  | update => exact (Update.local_read_nested scope body).then_pure _
  | delete => exact (Delete.local_read_nested scope body).then_pure _
  | bulk => exact (Bulk.local_read_nested scope body).then_pure _

theorem local_readSteps
    (scope : Scope)
    (handles : List CollectionHandle)
    (run : List Word) :
    (readSteps scope handles run).Local := by
  fun_induction readSteps scope handles run with
  | case1 => exact Binding.local_pure _
  | case2 word rest fault parts => exact Binding.local_throw _
  | case3 word rest start body after parts hypothesis =>
      apply (local_stepRead scope body start.kind).bind
      intro action
      exact hypothesis.then_pure _

end Transaction

/-! ## Other methods of the same name -/

namespace Scope

/-- The same scope for a method with another descriptor and other parameters. -/
def withParams
    (scope : Scope)
    (descriptor : String)
    (params : List Param) : Scope :=
  { scope with method := { scope.method with descriptor := descriptor, params := params } }

end Scope

section OtherScope

variable {scope other : Scope}

theorem QueryExpr.read_congr
    (schemas : other.schema = scope.schema)
    (outline : Outline) :
    QueryExpr.read other outline = QueryExpr.read scope outline := by
  induction outline with
  | leaf run => simp only [QueryExpr.read, Condition.read, schemas]
  | node connective left right leftHypothesis rightHypothesis =>
      simp only [QueryExpr.read, leftHypothesis, rightHypothesis]
  | broken error => rfl

/-- A query sees the schema and the configuration and nothing of the method. -/
theorem Query.read_congr
    (schemas : other.schema = scope.schema)
    (configs : other.config = scope.config) :
    Query.read other = Query.read scope := by
  funext run
  unfold Query.read
  simp only [QueryExpr.read_congr schemas, configs]

end OtherScope

section OtherMethod

variable (scope : Scope)
variable (descriptor : String)
variable (params : List Param)

theorem Query.read_withParams :
    Query.read (scope.withParams descriptor params) = Query.read scope :=
  Query.read_congr rfl rfl

theorem Update.read_nested_withParams (run : List Word) :
    Update.read (scope.withParams descriptor params) run .nested =
      Update.read scope run .nested := by
  unfold Update.read
  rw [Query.read_withParams]
  rfl

theorem Delete.read_nested_withParams (run : List Word) :
    Delete.read (scope.withParams descriptor params) run .nested =
      Delete.read scope run .nested := by
  unfold Delete.read Scope.readBareQuery
  rw [Query.read_withParams]
  rfl

theorem Bulk.stepRead_withParams
    (body : List Word)
    (kind : Bulk.StepKind) :
    kind.read (scope.withParams descriptor params) body = kind.read scope body := by
  cases kind with
  | insert => rfl
  | update => simp only [Bulk.StepKind.read, Update.read_nested_withParams]
  | delete => simp only [Bulk.StepKind.read, Delete.read_nested_withParams]

theorem Bulk.readSteps_withParams (run : List Word) :
    Bulk.readSteps (scope.withParams descriptor params) run = Bulk.readSteps scope run := by
  fun_induction Bulk.readSteps scope run with
  | case1 => rw [Bulk.readSteps]
  | case2 word rest fault parts => rw [Bulk.readSteps_cons, parts]
  | case3 word rest kind body after parts hypothesis =>
      rw [Bulk.readSteps_cons, parts]
      simp only [Bulk.stepRead_withParams, hypothesis]

theorem Bulk.read_nested_withParams (run : List Word) :
    Bulk.read (scope.withParams descriptor params) run .nested = Bulk.read scope run .nested := by
  unfold Bulk.read
  rw [Bulk.readSteps_withParams]
  rfl

theorem Transaction.stepRead_withParams
    (body : List Word)
    (kind : Transaction.StepKind) :
    kind.read (scope.withParams descriptor params) body = kind.read scope body := by
  cases kind with
  | insert => rfl
  | update => simp only [Transaction.StepKind.read, Update.read_nested_withParams]
  | delete => simp only [Transaction.StepKind.read, Delete.read_nested_withParams]
  | bulk => simp only [Transaction.StepKind.read, Bulk.read_nested_withParams]

/-- The steps of a Transaction see the name of the method and nothing else of
it. -/
theorem Transaction.readSteps_withParams
    (handles : List CollectionHandle)
    (run : List Word) :
    Transaction.readSteps (scope.withParams descriptor params) handles run =
      Transaction.readSteps scope handles run := by
  fun_induction Transaction.readSteps scope handles run with
  | case1 => rw [Transaction.readSteps]
  | case2 word rest fault parts => rw [Transaction.readSteps_cons, parts]
  | case3 word rest start body after parts hypothesis =>
      rw [Transaction.readSteps_cons, parts]
      simp only [Transaction.stepRead_withParams, hypothesis]

end OtherMethod

end DerivedQuery
