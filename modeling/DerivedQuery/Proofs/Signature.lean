import DerivedQuery.Proofs.Binding
import DerivedQuery.Signature
import Mathlib.Data.List.Basic

/-!
# What a signature check accepts

Each check accepts exactly the methods whose parameters and results it asks
for, and tells their mode. The checks of most kinds share the context in front
and the error at the end. No check looks at the names of parameters.
-/

namespace DerivedQuery

namespace TypeExpr

theorem isPointer_iff {type : TypeExpr} :
    type.isPointer ↔ ∃ target, type = .pointer target := by
  cases type <;> simp [isPointer]

theorem isSlice_iff {type : TypeExpr} :
    type.isSlice ↔ ∃ element, type = .slice element := by
  cases type <;> simp [isSlice]

end TypeExpr

namespace Signature

variable {method : Method}
variable {config : Config}

@[simp] theorem paramsAtLeast_eq_ok_iff
    {least : Nat}
    {done : Unit} :
    paramsAtLeast method least = .ok done ↔ least ≤ method.params.length := by
  unfold paramsAtLeast
  split <;> simp <;> omega

@[simp] theorem twoParams_eq_ok_iff
    {first second : Param} :
    twoParams method = .ok (first, second) ↔ method.params = [first, second] := by
  unfold twoParams
  split <;> simp_all

@[simp] theorem twoReturns_eq_ok_iff
    {first second : TypeExpr} :
    twoReturns method = .ok (first, second) ↔ method.returns = [first, second] := by
  unfold twoReturns
  split <;> simp_all

@[simp] theorem oneReturn_eq_ok_iff
    {only : TypeExpr} :
    oneReturn method = .ok only ↔ method.returns = [only] := by
  unfold oneReturn
  split <;> simp_all

section Counting

variable {α β : Type}

/-- A check that takes a list of a certain length apart, and has one complaint
about all other lists. -/
structure Takes
    (list : List α)
    (count : Nat)
    (complaint : Cause)
    (elements : β -> List α)
    (check : Except Cause β) : Prop where
  eq_ok_iff : ∀ value, check = .ok value ↔ list = elements value
  length_eq_iff : list.length = count ↔ ∃ value, list = elements value
  complains : ∀ cause, check = .error cause -> cause = complaint

/-- The list has the right length and is taken apart, or neither. -/
theorem Takes.cases
    {list : List α}
    {count : Nat}
    {complaint : Cause}
    {elements : β -> List α}
    {check : Except Cause β}
    (takes : Takes list count complaint elements check) :
    (list.length ≠ count ∧ check = .error complaint) ∨
      ∃ value, list.length = count ∧ list = elements value ∧ check = .ok value := by
  cases checked : check with
  | error cause =>
      obtain rfl := takes.complains cause checked
      refine .inl ⟨?_, rfl⟩
      intro counted
      obtain ⟨value, list_eq⟩ := takes.length_eq_iff.mp counted
      cases checked.symm.trans ((takes.eq_ok_iff value).mpr list_eq)
  | ok value =>
      have list_eq := (takes.eq_ok_iff value).mp checked
      exact .inr ⟨value, takes.length_eq_iff.mpr ⟨value, list_eq⟩, list_eq, rfl⟩

theorem takes_twoParams (method : Method) :
    Takes method.params 2 (.paramCount 2) (fun pair => [pair.1, pair.2]) (twoParams method) where
  eq_ok_iff _ := twoParams_eq_ok_iff
  length_eq_iff := by simp [List.length_eq_two]
  complains := by
    unfold twoParams
    split <;> simp

theorem takes_twoReturns (method : Method) :
    Takes method.returns 2 (.returnCount 2) (fun pair => [pair.1, pair.2]) (twoReturns method) where
  eq_ok_iff _ := twoReturns_eq_ok_iff
  length_eq_iff := by simp [List.length_eq_two]
  complains := by
    unfold twoReturns
    split <;> simp

theorem takes_oneReturn (method : Method) :
    Takes method.returns 1 (.returnCount 1) (fun only => [only]) (oneReturn method) where
  eq_ok_iff _ := oneReturn_eq_ok_iff
  length_eq_iff := List.length_eq_one_iff
  complains := by
    unfold oneReturn
    split <;> simp

end Counting

@[simp] theorem paramIs_eq_ok_iff
    {index : Nat}
    {required : TypeExpr}
    {done : Unit} :
    paramIs method index required = .ok done ↔
      ∃ param, method.params[index]? = some param ∧ param.type = required := by
  unfold paramIs
  split <;> simp_all [Option.map_eq_some_iff]

@[simp] theorem returnIs_eq_ok_iff
    {index : Nat}
    {actual required : TypeExpr}
    {done : Unit} :
    returnIs index actual required = .ok done ↔ actual = required := by
  unfold returnIs
  split <;> simp_all

/-- The first parameter of a method has the type of the context. -/
def OpensWithContext
    (method : Method)
    (config : Config) : Prop :=
  ∃ context others, method.params = context :: others ∧ context.type = config.contextType

theorem paramIs_context_eq_ok_iff
    {done : Unit} :
    paramIs method 0 config.contextType = .ok done ↔ OpensWithContext method config := by
  rw [paramIs_eq_ok_iff, OpensWithContext]
  cases method.params with
  | nil => simp
  | cons first others => simp

/-- The common part asks for the context first and for an error behind the
result. -/
theorem standard_eq_ok_iff
    {least : Nat}
    {result : TypeExpr} :
    standard method config least = .ok result ↔
      least ≤ method.params.length ∧ method.returns = [result, config.errorType] ∧
        OpensWithContext method config := by
  simp only [standard, except_bind_eq_ok_iff, paramsAtLeast_eq_ok_iff, twoReturns_eq_ok_iff,
    paramIs_context_eq_ok_iff, returnIs_eq_ok_iff, Prod.exists]
  constructor
  · rintro ⟨-, enough, first, failure, returns, -, opens, -, rfl, same⟩
    obtain rfl := Except.ok.inj same
    exact ⟨enough, returns, opens⟩
  · rintro ⟨enough, returns, opens⟩
    exact ⟨(), enough, result, _, returns, (), opens, (), rfl, rfl⟩

/-- A check that starts with the common part accepts only methods that open
with the context. -/
theorem opensWithContext_of_standard
    {α : Type}
    {least : Nat}
    {next : TypeExpr -> Except Cause α}
    {value : α}
    (checked : (standard method config least >>= next) = .ok value) :
    OpensWithContext method config := by
  obtain ⟨result, accepted, -⟩ := except_bind_eq_ok_iff.mp checked
  exact (standard_eq_ok_iff.mp accepted).2.2

/-- An Insert has a context and a document: a pointer is one document, a slice
many. -/
theorem insert_eq_ok_iff
    {mode : Mode}
    {type : TypeExpr} :
    insert method config = .ok (mode, type) ↔
      ∃ context document, method.params = [context, document] ∧
        context.type = config.contextType ∧ document.type = type ∧
        ((mode = .one ∧ type.isPointer ∧
            method.returns = [config.insertOneResult, config.errorType]) ∨
          (mode = .many ∧ type.isSlice ∧
            method.returns = [config.insertManyResult, config.errorType])) := by
  simp only [insert, except_bind_eq_ok_iff, twoParams_eq_ok_iff, twoReturns_eq_ok_iff,
    paramIs_context_eq_ok_iff, returnIs_eq_ok_iff, Prod.exists]
  constructor
  · rintro ⟨context, document, params, result, failure, returns, -, opens, -, rfl, shape⟩
    obtain ⟨_, _, same, typed⟩ := opens
    rw [params] at same
    obtain ⟨rfl, -⟩ := List.cons.inj same
    refine ⟨context, document, params, typed, ?_⟩
    split at shape
    · rename_i isPointer
      split at shape
      · rename_i isOne
        obtain ⟨rfl, rfl⟩ := Prod.mk.inj (Except.ok.inj shape)
        exact ⟨rfl, .inl ⟨rfl, isPointer, isOne ▸ returns⟩⟩
      · exact absurd shape nofun
    · split at shape
      · rename_i isSlice
        split at shape
        · rename_i isMany
          obtain ⟨rfl, rfl⟩ := Prod.mk.inj (Except.ok.inj shape)
          exact ⟨rfl, .inr ⟨rfl, isSlice, isMany ▸ returns⟩⟩
        · exact absurd shape nofun
      · exact absurd shape nofun
  · rintro ⟨context, document, params, typed, rfl, cases⟩
    have opens : OpensWithContext method config := ⟨context, [document], params, typed⟩
    rcases cases with ⟨rfl, isPointer, returns⟩ | ⟨rfl, isSlice, returns⟩
    · refine ⟨context, document, params, _, _, returns, (), opens, (), rfl, ?_⟩
      rw [if_pos isPointer, if_pos rfl]
      rfl
    · refine ⟨context, document, params, _, _, returns, (), opens, (), rfl, ?_⟩
      obtain ⟨element, type_eq⟩ := TypeExpr.isSlice_iff.mp isSlice
      rw [type_eq, if_neg nofun, if_pos rfl]
      rfl

/-- A Find opens with the context: a pointer is one document that is found, a
slice many. -/
theorem find_eq_ok_iff
    {mode : Mode}
    {type : TypeExpr} :
    find method config = .ok (mode, type) ↔
      OpensWithContext method config ∧ method.returns = [type, config.errorType] ∧
        ((mode = .one ∧ type.isPointer) ∨ (mode = .many ∧ type.isSlice)) := by
  simp only [find, except_bind_eq_ok_iff, standard_eq_ok_iff]
  constructor
  · rintro ⟨result, ⟨-, returns, opens⟩, shape⟩
    split at shape
    · rename_i isPointer
      obtain ⟨rfl, rfl⟩ := Prod.mk.inj (Except.ok.inj shape)
      exact ⟨opens, returns, .inl ⟨rfl, isPointer⟩⟩
    · split at shape
      · rename_i isSlice
        obtain ⟨rfl, rfl⟩ := Prod.mk.inj (Except.ok.inj shape)
        exact ⟨opens, returns, .inr ⟨rfl, isSlice⟩⟩
      · exact absurd shape nofun
  · rintro ⟨opens, returns, cases⟩
    have enough : 1 ≤ method.params.length := by
      obtain ⟨context, others, params, -⟩ := opens
      simp [params]
    refine ⟨type, ⟨enough, returns, opens⟩, ?_⟩
    rcases cases with ⟨rfl, isPointer⟩ | ⟨rfl, isSlice⟩
    · rw [if_pos isPointer]
      rfl
    · obtain ⟨element, rfl⟩ := TypeExpr.isSlice_iff.mp isSlice
      rfl

/-- A Transaction has the context and the client in front and returns nothing
but an error. -/
theorem transaction_eq_ok_iff
    {done : Unit} :
    transaction method config = .ok done ↔
      ∃ context client others, method.params = context :: client :: others ∧
        context.type = config.contextType ∧ client.type = config.clientType ∧
        method.returns = [config.errorType] := by
  simp only [transaction, except_bind_eq_ok_iff, paramsAtLeast_eq_ok_iff, oneReturn_eq_ok_iff,
    paramIs_eq_ok_iff]
  constructor
  · rintro ⟨-, -, only, returns, -, ⟨context, first, contextTyped⟩, -,
      ⟨client, second, clientTyped⟩, shape⟩
    split at shape
    · rename_i isError
      subst isError
      cases params : method.params with
      | nil => simp [params] at first
      | cons head tail =>
          cases tail with
          | nil => simp [params] at second
          | cons next others =>
              simp only [params, List.getElem?_cons_zero, List.getElem?_cons_succ,
                Option.some.injEq] at first second
              subst first second
              exact ⟨head, next, others, rfl, contextTyped, clientTyped, returns⟩
    · exact absurd shape nofun
  · rintro ⟨context, client, others, params, contextTyped, clientTyped, returns⟩
    refine ⟨(), by simp [params], _, returns, (), ⟨context, by simp [params], contextTyped⟩, (),
      ⟨client, by simp [params], clientTyped⟩, ?_⟩
    rw [if_pos rfl]
    rfl

/-! ## What a check looks at -/

/-- Methods whose parameters and results have the same types. -/
structure Agree (method other : Method) : Prop where
  types_eq : other.params.map Param.type = method.params.map Param.type
  returns_eq : other.returns = method.returns

namespace Agree

variable {other : Method}

theorem paramsAtLeast_eq (agree : Agree method other) (least : Nat) :
    paramsAtLeast other least = paramsAtLeast method least := by
  have lengths := congrArg List.length agree.types_eq
  rw [List.length_map, List.length_map] at lengths
  rw [paramsAtLeast, lengths, paramsAtLeast]

theorem paramIs_eq (agree : Agree method other) (index : Nat) (required : TypeExpr) :
    paramIs other index required = paramIs method index required := by
  rw [paramIs, ← List.getElem?_map, agree.types_eq, List.getElem?_map, paramIs]

theorem twoReturns_eq (agree : Agree method other) : twoReturns other = twoReturns method := by
  unfold twoReturns
  rw [agree.returns_eq]

/-- A check may go on with two parameters by their types. -/
theorem twoParams_bind_eq
    {α : Type}
    {next : Param × Param -> Except Cause α}
    (agree : Agree method other)
    (blind : ∀ first second twin twinned,
      twinned.type = second.type -> next (twin, twinned) = next (first, second)) :
    (twoParams other >>= next) = (twoParams method >>= next) := by
  have types_eq := agree.types_eq
  unfold twoParams
  generalize method.params = params at types_eq ⊢
  generalize other.params = twins at types_eq ⊢
  rcases params with _ | ⟨first, _ | ⟨second, _ | ⟨third, rest⟩⟩⟩ <;>
    rcases twins with _ | ⟨twin, _ | ⟨twinned, _ | ⟨more, others⟩⟩⟩ <;>
    simp only [List.map_cons, List.map_nil, List.cons.injEq, reduceCtorEq, and_false] at types_eq
  · rfl
  · rfl
  · exact blind first second twin twinned types_eq.2.1
  · rfl

theorem standard_eq (agree : Agree method other) (least : Nat) :
    standard other config least = standard method config least := by
  simp only [standard, agree.paramsAtLeast_eq, agree.twoReturns_eq, agree.paramIs_eq]

theorem insert_eq (agree : Agree method other) : insert other config = insert method config := by
  simp only [insert, agree.twoReturns_eq, agree.paramIs_eq]
  apply agree.twoParams_bind_eq
  intro first second twin twinned type_eq
  simp only [type_eq]

theorem transaction_eq (agree : Agree method other) :
    transaction other config = transaction method config := by
  simp only [transaction, oneReturn, agree.paramsAtLeast_eq, agree.returns_eq, agree.paramIs_eq]

end Agree

end Signature
end DerivedQuery
