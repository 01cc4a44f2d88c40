import DerivedQuery.Proofs.Slots.Write

/-!
# Slots of batches

The steps of a batch bind one behind the other, each the parameters of its own
slots, and a Bulk inside a Transaction binds those of its steps.
-/

namespace DerivedQuery

variable {scope : Scope}
variable {params rest : List Param}
variable {run : List Word}

namespace Bulk

variable {invocation : Invocation}

theorem fills_of_yields_stepRead
    {kind : Bulk.StepKind}
    {step : BulkStep}
    (yields : (kind.read scope run).Yields params step rest) :
    Slot.Fills scope.schema scope.config step.slots params rest := by
  cases kind with
  | insert =>
      obtain ⟨record, rfl, reads⟩ := Binding.yields_then_pure.mp yields
      exact (Insert.fills_of_yields_read reads nofun).1
  | update =>
      obtain ⟨record, rfl, reads⟩ := Binding.yields_then_pure.mp yields
      exact (Update.fills_of_yields_read reads nofun).1
  | delete =>
      obtain ⟨record, rfl, reads⟩ := Binding.yields_then_pure.mp yields
      exact (Delete.fills_of_yields_read reads nofun).1

/-- The induction is on the words that the steps before have left over. -/
theorem fills_of_yields_readSteps
    {steps : List BulkStep}
    (yields : (Bulk.readSteps scope run).Yields params steps rest) :
    Slot.Fills scope.schema scope.config (steps.flatMap BulkStep.slots) params rest := by
  fun_induction Bulk.readSteps scope run generalizing params steps rest with
  | case1 =>
      obtain ⟨rfl, rfl⟩ := Binding.yields_pure.mp yields
      exact .nil
  | case2 word after fault parts => simp at yields
  | case3 word after kind body others parts hypothesis =>
      simp only [Binding.yields_bind, Binding.yields_pure] at yields
      obtain ⟨step, _, readsStep, steps, _, readsSteps, rfl, rfl⟩ := yields
      exact (Bulk.fills_of_yields_stepRead readsStep).append (hypothesis readsSteps)

/-- Only a Bulk that is the operation of a method has a context. -/
theorem fills_of_yields_readContext
    {context : Option String}
    (yields : (Bulk.readContext scope invocation).Yields params context rest)
    (starts : invocation = .standalone -> params = scope.method.params) :
    Slot.Fills scope.schema scope.config (Slot.ofContext context) params rest := by
  rcases yields_readContext_iff.mp yields with
    ⟨rfl, signed, param, rfl, params_eq⟩ | ⟨-, rfl, rfl⟩
  · obtain rfl := starts rfl
    exact (Signature.opensWithContext_of_standard signed).fills params_eq
  · exact .nil

theorem fills_of_yields_read
    {bulk : Bulk}
    (yields : (Bulk.read scope run invocation).Yields params bulk rest)
    (starts : invocation = .standalone -> params = scope.method.params) :
    Slot.Fills scope.schema scope.config bulk.slots params rest ∧
      (invocation = .standalone -> rest = []) := by
  obtain ⟨opened, readsContext, readsSteps, -, -, ends⟩ := yields_read_iff.mp yields
  have fillsContext := Bulk.fills_of_yields_readContext readsContext starts
  exact ⟨fillsContext.append (Bulk.fills_of_yields_readSteps readsSteps), ends⟩

end Bulk

namespace Transaction

theorem fills_of_yields_stepRead
    {kind : Transaction.StepKind}
    {run : List Word}
    {action : TransactionAction}
    (yields : (kind.read scope run).Yields params action rest) :
    Slot.Fills scope.schema scope.config action.slots params rest := by
  cases kind with
  | insert =>
      obtain ⟨record, rfl, reads⟩ := Binding.yields_then_pure.mp yields
      exact (Insert.fills_of_yields_read reads nofun).1
  | update =>
      obtain ⟨record, rfl, reads⟩ := Binding.yields_then_pure.mp yields
      exact (Update.fills_of_yields_read reads nofun).1
  | delete =>
      obtain ⟨record, rfl, reads⟩ := Binding.yields_then_pure.mp yields
      exact (Delete.fills_of_yields_read reads nofun).1
  | bulk =>
      obtain ⟨record, rfl, reads⟩ := Binding.yields_then_pure.mp yields
      exact (Bulk.fills_of_yields_read reads nofun).1

theorem fills_of_yields_readSteps
    {handles : List CollectionHandle}
    {run : List Word}
    {steps : List TransactionStep}
    (yields : (Transaction.readSteps scope handles run).Yields params steps rest) :
    Slot.Fills scope.schema scope.config (steps.flatMap fun step => step.action.slots)
      params rest := by
  fun_induction Transaction.readSteps scope handles run generalizing params steps rest with
  | case1 =>
      obtain ⟨rfl, rfl⟩ := Binding.yields_pure.mp yields
      exact .nil
  | case2 word after fault parts => simp at yields
  | case3 word after start body others parts hypothesis =>
      simp only [Binding.yields_bind, Binding.yields_pure] at yields
      obtain ⟨action, _, readsStep, steps, _, readsSteps, rfl, rfl⟩ := yields
      exact (Transaction.fills_of_yields_stepRead readsStep).append (hypothesis readsSteps)

theorem fills_of_yields_read
    {run : List Word}
    {transaction : Transaction}
    (yields : (Transaction.read scope run).Yields scope.method.params transaction rest) :
    Slot.Fills scope.schema scope.config transaction.slots scope.method.params rest ∧
      rest = [] := by
  obtain ⟨context, client, row, tail, steps, signed, params_eq, rowTyped, -, readsSteps, -, rfl,
    rfl⟩ := yields_read_iff.mp yields
  obtain ⟨first, second, others, signed_eq, contextTyped, clientTyped, -⟩ :=
    Signature.transaction_eq_ok_iff.mp signed
  have opens : Signature.OpensWithContext scope.method scope.config :=
    ⟨first, second :: others, signed_eq, contextTyped⟩
  obtain ⟨-, behind_eq⟩ := List.cons.inj (params_eq.symm.trans signed_eq)
  obtain ⟨rfl, -⟩ := List.cons.inj behind_eq
  have fillsClient : Slot.Fills scope.schema scope.config [.client client.name]
      (client :: (row ++ tail)) (row ++ tail) :=
    .param rfl (by rw [Slot.Accepts, clientTyped])
  have fillsCollections : Slot.Fills scope.schema scope.config
      (row.map fun param => .collection param.name) (row ++ tail) tail := by
    apply Slot.Fills.ofParams
    intro param member
    exact ⟨rfl, by rw [List.map_singleton, Slot.Accepts, rowTyped param member]⟩
  have fillsSteps := Transaction.fills_of_yields_readSteps readsSteps
  refine ⟨?_, rfl⟩
  rw [Transaction.slots, List.map_map]
  exact (opens.fills params_eq).append (fillsClient.append (fillsCollections.append fillsSteps))

end Transaction

end DerivedQuery
