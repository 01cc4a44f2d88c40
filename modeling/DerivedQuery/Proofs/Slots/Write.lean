import DerivedQuery.Proofs.QueryReader
import DerivedQuery.Proofs.RecordReader
import DerivedQuery.Proofs.Signature
import DerivedQuery.Proofs.Slots

/-!
# Slots of queries and single writes

Whatever a reader succeeds with, its slots hold the parameters it has bound. As
the operation of a method a write starts with all parameters and leaves none;
as a step it takes the next ones.
-/

namespace DerivedQuery

variable {scope : Scope}
variable {params rest : List Param}

namespace Condition

/-- The chain that names the field of a condition also gives the type of its
parameters. -/
theorem fills_of_yields_read
    {run : List Word}
    {condition : Condition}
    (yields : (Condition.read scope run).Yields params condition rest) :
    Slot.Fills scope.schema scope.config [.condition condition] params rest := by
  obtain ⟨front, back, path, taken, -, -, -, -, resolved, field_eq, rfl, count, names_eq, typed⟩ :=
    Condition.exists_of_yields_read yields
  obtain ⟨-, chain, through⟩ := FieldPath.through_of_resolve resolved
  apply Slot.Fills.single
  refine ⟨names_eq, path.type, field_eq ▸ through.hasPath, ?_⟩
  rw [List.eq_replicate_iff, List.length_map]
  exact ⟨count, by simpa using typed⟩

end Condition

namespace QueryExpr

/-- Conditions bind from left to right, at any depth of the tree. -/
theorem fills_of_yields_read
    {outline : Outline}
    {expr : QueryExpr}
    (yields : (QueryExpr.read scope outline).Yields params expr rest) :
    Slot.Fills scope.schema scope.config (expr.conditions.map Slot.condition) params rest := by
  induction outline generalizing params expr rest with
  | leaf run =>
      obtain ⟨condition, rfl, reads⟩ := QueryExpr.yields_read_leaf_iff.mp yields
      exact Condition.fills_of_yields_read reads
  | node connective left right leftHypothesis rightHypothesis =>
      obtain ⟨leftExpr, rightExpr, middle, rfl, readsLeft, readsRight⟩ :=
        QueryExpr.yields_read_node_iff.mp yields
      rw [QueryExpr.conditions, List.map_append]
      exact (leftHypothesis readsLeft).append (rightHypothesis readsRight)
  | broken error => exact absurd yields QueryExpr.not_yields_read_broken

end QueryExpr

namespace Query

theorem fills_of_yields_read
    {run : List Word}
    {query : Query}
    (yields : (Query.read scope run).Yields params query rest) :
    Slot.Fills scope.schema scope.config query.slots params rest := by
  rcases Query.yields_read_cases yields with
    ⟨first, rfl, isAll, rfl, rfl⟩ | ⟨first, body, rfl, isBy⟩
  · exact .nil
  · obtain ⟨-, -, expr, rfl, reads⟩ := (Query.yields_read_by_iff isBy).mp yields
    exact QueryExpr.fills_of_yields_read reads

end Query

namespace Payload

/-- Every field takes one parameter of the type its path has. -/
theorem fills_of_yields_bindFields
    {run : List Word}
    {paths : List FieldPath}
    (resolved : ∀ path ∈ paths, scope.schema.HasPath path.key path.type)
    {bindings : List FieldBinding}
    (yields : (Payload.bindFields run paths).Yields params bindings rest) :
    Slot.Fills scope.schema scope.config (bindings.map Slot.field) params rest := by
  induction paths generalizing params bindings with
  | nil =>
      obtain ⟨rfl, rfl⟩ := Binding.yields_pure.mp yields
      exact .nil
  | cons path paths hypothesis =>
      obtain ⟨param, middle, others, rfl, typed, binds, rfl⟩ :=
        yields_bindFields_cons_iff.mp yields
      rw [List.forall_mem_cons] at resolved
      have first : Slot.Fills scope.schema scope.config [.field ⟨path.key, param.name⟩]
          (param :: middle) middle :=
        .param rfl ⟨path.type, resolved.1, by rw [typed]⟩
      exact first.append (hypothesis resolved.2 binds)

/-- An entity is passed by a pointer to the type the schema names. -/
theorem fills_of_yields_read
    {body fields : List Word}
    {payload : Payload}
    (yields : (Payload.read scope body fields).Yields params payload rest) :
    Slot.Fills scope.schema scope.config payload.slots params rest := by
  rcases yields_read_iff.mp yields with
    ⟨-, param, package, rfl, type_eq, rfl⟩ | ⟨-, paths, bindings, resolved, binds, rfl⟩
  · exact .param rfl ⟨package, by rw [type_eq]⟩
  · exact fills_of_yields_bindFields (FieldPath.covers_of_resolveAll resolved).hasPath binds

end Payload

/-- The context of a whole operation is the first parameter, which its
signature has checked. -/
theorem Signature.OpensWithContext.fills
    (opens : Signature.OpensWithContext scope.method scope.config)
    {context : Param}
    (params_eq : scope.method.params = context :: rest) :
    Slot.Fills scope.schema scope.config [.context context.name] scope.method.params rest := by
  obtain ⟨first, others, first_eq, typed⟩ := opens
  obtain ⟨rfl, -⟩ := List.cons.inj (params_eq.symm.trans first_eq)
  rw [params_eq]
  exact .param rfl (by rw [Slot.Accepts, typed])

variable {run : List Word}
variable {invocation : Invocation}

namespace Insert

/-- A document that fits a mode is accepted by the slot of that mode. -/
theorem accepts_of_fitsMode
    {mode : Mode}
    {document : Param}
    (fits : Insert.fitsMode mode document.type) :
    (Slot.document mode document.name).Accepts scope.schema scope.config [document.type] := by
  cases mode with
  | one =>
      obtain ⟨target, type_eq⟩ := TypeExpr.isPointer_iff.mp fits
      exact ⟨target, by rw [type_eq]⟩
  | many =>
      obtain ⟨element, type_eq⟩ := TypeExpr.isSlice_iff.mp fits
      exact ⟨element, by rw [type_eq]⟩

/-- As the operation of a method an Insert binds two parameters, which its
signature has checked. -/
theorem fills_of_yields_readStandalone
    {insert : Insert}
    (yields : (Insert.readStandalone scope run).Yields scope.method.params insert rest) :
    Slot.Fills scope.schema scope.config insert.slots scope.method.params rest ∧ rest = [] := by
  obtain ⟨context, document, type, signed, -, params_eq, -, context_eq, document_eq, rfl⟩ :=
    yields_readStandalone_iff.mp yields
  obtain ⟨first, second, signed_eq, typed, type_eq, shape⟩ := Signature.insert_eq_ok_iff.mp signed
  have opens : Signature.OpensWithContext scope.method scope.config :=
    ⟨first, [second], signed_eq, typed⟩
  -- The document is the second parameter, the one the signature took the mode from.
  have fits : Insert.fitsMode insert.mode document.type := by
    rw [params_eq] at signed_eq
    grind [Insert.fitsMode]
  rw [Insert.slots, context_eq, document_eq]
  exact ⟨(opens.fills params_eq).append (.param rfl (accepts_of_fitsMode fits)), rfl⟩

/-- As a step an Insert binds a document that fits its mode. -/
theorem fills_of_yields_readNested
    {insert : Insert}
    (yields : (Insert.readNested scope run).Yields params insert rest) :
    Slot.Fills scope.schema scope.config insert.slots params rest := by
  obtain ⟨-, document, rfl, fits, -, context_eq, document_eq⟩ := yields_readNested_iff.mp yields
  rw [Insert.slots, context_eq, document_eq]
  exact .param rfl (accepts_of_fitsMode fits)

theorem fills_of_yields_read
    {insert : Insert}
    (yields : (Insert.read scope run invocation).Yields params insert rest)
    (starts : invocation = .standalone -> params = scope.method.params) :
    Slot.Fills scope.schema scope.config insert.slots params rest ∧
      (invocation = .standalone -> rest = []) := by
  cases invocation with
  | standalone =>
      obtain rfl := starts rfl
      obtain ⟨fills, ends⟩ := fills_of_yields_readStandalone yields
      exact ⟨fills, fun _ => ends⟩
  | nested => exact ⟨fills_of_yields_readNested yields, by simp⟩

end Insert

namespace Scope

/-- An Update or Delete opens with its context, unless it is a step. -/
theorem fills_of_yields_openWrite
    {operation : Keyword}
    {signature : Except Cause Mode}
    {mode : Mode}
    {context : Option String}
    {body : List Word}
    (signed : ∀ mode, signature = .ok mode ->
      Signature.OpensWithContext scope.method scope.config)
    (yields : (Scope.openWrite operation signature run invocation).Yields params
      (mode, context, body) rest)
    (starts : invocation = .standalone -> params = scope.method.params) :
    Slot.Fills scope.schema scope.config (Slot.ofContext context) params rest := by
  rcases yields_openWrite_iff.mp yields with
    ⟨rfl, accepted, -, param, rfl, params_eq⟩ | ⟨-, -, -, rfl, rfl⟩
  · obtain rfl := starts rfl
    exact (signed _ accepted).fills params_eq
  · exact .nil

end Scope

namespace Update

/-- An Update binds its context, what it writes and its query. -/
theorem fills_of_yields_read
    {update : Update}
    (yields : (Update.read scope run invocation).Yields params update rest)
    (starts : invocation = .standalone -> params = scope.method.params) :
    Slot.Fills scope.schema scope.config update.slots params rest ∧
      (invocation = .standalone -> rest = []) := by
  obtain ⟨_, _, _, _, _, opens, -, -, readsPayload, readsQuery, -, ends⟩ :=
    yields_read_iff.mp yields
  have signed : ∀ mode, Signature.update scope.method scope.config = .ok mode ->
      Signature.OpensWithContext scope.method scope.config := by
    intro mode accepted
    exact Signature.opensWithContext_of_standard accepted
  have fillsContext := Scope.fills_of_yields_openWrite signed opens starts
  have fillsPayload := Payload.fills_of_yields_read readsPayload
  have fillsQuery := Query.fills_of_yields_read readsQuery
  exact ⟨(fillsContext.append fillsPayload).append fillsQuery, ends⟩

end Update

namespace Delete

/-- A Delete binds its context and its query. -/
theorem fills_of_yields_read
    {delete : Delete}
    (yields : (Delete.read scope run invocation).Yields params delete rest)
    (starts : invocation = .standalone -> params = scope.method.params) :
    Slot.Fills scope.schema scope.config delete.slots params rest ∧
      (invocation = .standalone -> rest = []) := by
  obtain ⟨_, _, opens, -, readsQuery, -, ends⟩ := yields_read_iff.mp yields
  have signed : ∀ mode, Signature.delete scope.method scope.config = .ok mode ->
      Signature.OpensWithContext scope.method scope.config := by
    intro mode accepted
    exact Signature.opensWithContext_of_standard accepted
  have fillsContext := Scope.fills_of_yields_openWrite signed opens starts
  exact ⟨fillsContext.append (Query.fills_of_yields_read readsQuery), ends⟩

end Delete

end DerivedQuery
