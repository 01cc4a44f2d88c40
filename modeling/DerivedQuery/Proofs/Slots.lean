import DerivedQuery.Config
import DerivedQuery.Method
import DerivedQuery.Operation
import DerivedQuery.Proofs.FieldChain

/-!
# Parameter slots

The places of an operation that hold method parameters, listed in the order in
which they are bound. A slot says which types its parameters may have; a row of
slots is filled when the parameters divide into consecutive shares, one for
each slot, and every share has the names and the types of its slot.
-/

namespace DerivedQuery

/-- A place of an operation that holds parameters. -/
inductive Slot
  | context (name : String)
  | client (name : String)
  | collection (name : String)
  /-- The parameter of a `Skip` or `Limit`. -/
  | paging (name : String)
  /-- What an Insert in a given mode inserts. -/
  | document (mode : Mode) (name : String)
  /-- The whole entity that an Update writes. -/
  | entity (name : String)
  | field (record : FieldBinding)
  | condition (record : Condition)
  deriving DecidableEq, Repr

namespace Slot

/-- The names of the parameters of a slot, in order. -/
def names : Slot -> List String
  | .context name | .client name | .collection name | .paging name => [name]
  | .document _ name | .entity name => [name]
  | .field record => [record.param]
  | .condition record => record.params

/-- The types that the parameters of a slot may have. All parameters of a
condition have the type of the field it is about. -/
def Accepts
    (schema : Schema)
    (config : Config)
    (types : List TypeExpr) :
    Slot -> Prop
  | .context _ => types = [config.contextType]
  | .client _ => types = [config.clientType]
  | .collection _ => types = [config.collectionType]
  | .paging _ => types = [config.pagingType]
  | .document .one _ => ∃ target, types = [.pointer target]
  | .document .many _ => ∃ element, types = [.slice element]
  | .entity _ => ∃ package, types = [.pointer (.selector package schema.name)]
  | .field record => ∃ type, schema.HasPath record.field type ∧ types = [type]
  | .condition record =>
      ∃ type, schema.HasPath record.field type ∧
        types = List.replicate record.comparator.arity type

/-- Parameters with the names of a slot and with types it accepts. -/
structure Holds
    (schema : Schema)
    (config : Config)
    (slot : Slot)
    (share : List Param) : Prop where
  names_eq : share.map Param.name = slot.names
  accepts : slot.Accepts schema config (share.map Param.type)

/-- Slots that hold the parameters from `params` up to `rest`, each slot its
share. -/
inductive Fills (schema : Schema) (config : Config) :
    List Slot -> List Param -> List Param -> Prop
  | nil
      {params : List Param} :
      Fills schema config [] params params
  | cons
      {slot : Slot}
      {slots : List Slot}
      {share params rest : List Param}
      (holds : slot.Holds schema config share)
      (further : Fills schema config slots params rest) :
      Fills schema config (slot :: slots) (share ++ params) rest

variable {schema : Schema}
variable {config : Config}
variable {slot : Slot}
variable {slots others : List Slot}
variable {params middle rest : List Param}

theorem Fills.single
    {share : List Param}
    (holds : slot.Holds schema config share) :
    Fills schema config [slot] (share ++ rest) rest :=
  .cons holds .nil

/-- A slot for one parameter holds the next one. -/
theorem Fills.param
    {param : Param}
    (names_eq : [param.name] = slot.names)
    (accepts : slot.Accepts schema config [param.type]) :
    Fills schema config [slot] (param :: rest) rest := by
  have holds : slot.Holds schema config [param] := ⟨names_eq, accepts⟩
  exact .single holds

/-- Slots filled one row behind the other. -/
theorem Fills.append
    (front : Fills schema config slots params middle)
    (back : Fills schema config others middle rest) :
    Fills schema config (slots ++ others) params rest := by
  induction front with
  | nil => exact back
  | cons holds further hypothesis => exact .cons holds (hypothesis back)

/-- A row of parameters, each in a slot of its own. -/
theorem Fills.ofParams
    {slotOf : Param -> Slot}
    {taken : List Param}
    (holds : ∀ param ∈ taken, (slotOf param).Holds schema config [param]) :
    Fills schema config (taken.map slotOf) (taken ++ rest) rest := by
  induction taken with
  | nil => exact .nil
  | cons param others hypothesis =>
      rw [List.forall_mem_cons] at holds
      exact (Fills.single holds.1).append (hypothesis holds.2)

/-- Slots bind every parameter once and in order. -/
theorem Fills.names_eq
    (fills : Fills schema config slots params rest) :
    params.map Param.name = slots.flatMap names ++ rest.map Param.name := by
  induction fills with
  | nil => simp
  | cons holds further hypothesis =>
      rw [List.map_append, holds.names_eq, hypothesis, List.flatMap_cons, List.append_assoc]

theorem Fills.exists_holds
    (fills : Fills schema config slots params rest)
    (member : slot ∈ slots) :
    ∃ share, slot.Holds schema config share := by
  induction fills with
  | nil => simp at member
  | cons holds further hypothesis =>
      rcases List.mem_cons.mp member with rfl | later
      · exact ⟨_, holds⟩
      · exact hypothesis later

/-- A condition holds as many parameters as its comparator takes. -/
theorem Holds.length_params_eq
    {record : Condition}
    {share : List Param}
    (holds : (Slot.condition record).Holds schema config share) :
    record.params.length = record.comparator.arity := by
  obtain ⟨type, -, types_eq⟩ := holds.accepts
  calc
    record.params.length = (share.map Param.name).length := by rw [holds.names_eq, names]
    _ = (share.map Param.type).length := by rw [List.length_map, List.length_map]
    _ = record.comparator.arity := by rw [types_eq, List.length_replicate]

end Slot

/-! ## The slots of an operation -/

/-- The conditions of a query from left to right. -/
def Query.slots : Query -> List Slot
  | .all => []
  | .matching expr => expr.conditions.map Slot.condition

/-- The slot of the context, which the steps of a batch do not have. -/
def Slot.ofContext (context : Option String) : List Slot :=
  context.toList.map Slot.context

/-- An Insert binds its context and what it inserts. -/
def Insert.slots (insert : Insert) : List Slot :=
  Slot.ofContext insert.context ++ [.document insert.mode insert.document]

/-- An Update writes one entity, or each field from a parameter of its own. -/
def Payload.slots : Payload -> List Slot
  | .document param => [.entity param]
  | .fields bindings => bindings.map Slot.field

/-- An Update binds what it writes in front of its query. -/
def Update.slots (update : Update) : List Slot :=
  Slot.ofContext update.context ++ update.payload.slots ++ update.query.slots

/-- A Delete binds the conditions of its query. -/
def Delete.slots (delete : Delete) : List Slot :=
  Slot.ofContext delete.context ++ delete.query.slots

/-- A Count binds the conditions of its query. -/
def Count.slots (count : Count) : List Slot :=
  .context count.context :: count.query.slots

namespace Find

/-- The slots of the clause that a word starts. Sort fields hold no
parameters, and most words start no clause. -/
def clauseSlots (find : Find) (word : Word) : List Slot :=
  match word.keyword? with
  | some .skip => find.skip.toList.map Slot.paging
  | some .limit => find.limit.toList.map Slot.paging
  | some .byQuery => find.query.slots
  | _ => []

/-- The clauses of a Find bind in the order of the words that start them. -/
def slots (find : Find) (words : List Word) : List Slot :=
  .context find.context :: words.flatMap find.clauseSlots

end Find

/-- A write inside a Bulk binds as it does alone. -/
def BulkStep.slots : BulkStep -> List Slot
  | .insert record => record.slots
  | .update record => record.slots
  | .delete record => record.slots

/-- The steps of a Bulk bind in order. -/
def Bulk.slots (bulk : Bulk) : List Slot :=
  Slot.ofContext bulk.context ++ bulk.steps.flatMap BulkStep.slots

/-- A Bulk inside a Transaction binds the slots of its steps. -/
def TransactionAction.slots : TransactionAction -> List Slot
  | .insert record => record.slots
  | .update record => record.slots
  | .delete record => record.slots
  | .bulk record => record.slots

/-- A Transaction binds the client and the collections in front of its steps. -/
def Transaction.slots (transaction : Transaction) : List Slot :=
  .context transaction.context :: .client transaction.client ::
    (transaction.collections.map fun handle => Slot.collection handle.param) ++
      transaction.steps.flatMap fun step => step.action.slots

/-- The slots of an operation in binding order. Where the clauses of a Find
stand is told by the words of its descriptor. -/
def Operation.slots (words : List Word) : Operation -> List Slot
  | .insert record => record.slots
  | .find record => record.slots words
  | .update record => record.slots
  | .delete record => record.slots
  | .count record => record.slots
  | .transaction record => record.slots
  | .bulk record => record.slots

end DerivedQuery
