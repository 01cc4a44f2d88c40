import DerivedQuery.Binding

/-!
# What a reader that succeeds has bound

A reader succeeds with a value and leaves the parameters it has not bound. The
equivalences of this module take a reader that was composed by the monad apart
into its steps, and say for each primitive step what it binds, so that no later
proof unfolds the monad.
-/

namespace DerivedQuery

section Except

variable {ε δ α β : Type}

theorem except_map_eq_ok_iff
    {outcome : Except ε α}
    {image : α -> β}
    {result : β} :
    outcome.map image = .ok result ↔ ∃ value, outcome = .ok value ∧ image value = result := by
  cases outcome with
  | error fault => simp [Except.map]
  | ok value => simp [Except.map]

@[simp] theorem except_mapError_eq_ok_iff
    {outcome : Except ε α}
    {rename : ε -> δ}
    {result : α} :
    outcome.mapError rename = .ok result ↔ outcome = .ok result := by
  cases outcome with
  | error fault => exact ⟨nofun, nofun⟩
  | ok value =>
      change Except.ok value = .ok result ↔ _
      simp only [Except.ok.injEq]

theorem except_map_eq_error_iff
    {outcome : Except ε α}
    {image : α -> β}
    {error : ε} :
    outcome.map image = .error error ↔ outcome = .error error := by
  cases outcome <;> simp [Except.map]

theorem except_mapError_eq_error_iff
    {outcome : Except ε α}
    {rename : ε -> δ}
    {error : δ} :
    outcome.mapError rename = .error error ↔
      ∃ cause, outcome = .error cause ∧ rename cause = error := by
  cases outcome with
  | error fault =>
      change Except.error (rename fault) = .error error ↔ _
      simp
  | ok value =>
      constructor
      · rintro ⟨⟩
      · rintro ⟨_, ⟨⟩, _⟩

theorem except_bind_eq_ok_iff
    {outcome : Except ε α}
    {next : α -> Except ε β}
    {result : β} :
    (outcome >>= next) = .ok result ↔
      ∃ value, outcome = .ok value ∧ next value = .ok result := by
  cases outcome with
  | error fault => simp [bind, Except.bind]
  | ok value => simp [bind, Except.bind]

theorem except_toOption_eq_some_iff
    {outcome : Except ε α}
    {result : α} :
    outcome.toOption = some result ↔ outcome = .ok result := by
  cases outcome with
  | error fault => simp [Except.toOption]
  | ok value => simp [Except.toOption]

/-- Success with something left over, in a form that can be evaluated. -/
theorem toOption_pair_eq_iff
    {outcome : Except ε α × β}
    {result : α}
    {rest : β} :
    (outcome.1.toOption, outcome.2) = (some result, rest) ↔ outcome = (.ok result, rest) := by
  rw [Prod.mk.injEq, except_toOption_eq_some_iff, Prod.ext_iff]

end Except

namespace Binding

variable {α β : Type}
variable {params rest : List Param}

/-- Started on `params`, a reader succeeds with `value` and leaves `rest`. -/
def Yields
    (binding : Binding α)
    (params : List Param)
    (value : α)
    (rest : List Param) : Prop :=
  binding.start params = (.ok value, rest)

theorem exists_yields_iff
    {binding : Binding α}
    {value : α} :
    (∃ rest, binding.Yields params value rest) ↔ (binding.start params).1 = .ok value := by
  constructor
  · rintro ⟨rest, yields⟩
    exact congrArg Prod.fst yields
  · intro succeeds
    exact ⟨(binding.start params).2, Prod.ext succeeds rfl⟩

@[simp] theorem yields_pure
    {value result : α} :
    Yields (pure value) params result rest ↔ value = result ∧ params = rest := by
  change (Except.ok value, params) = (Except.ok result, rest) ↔ _
  simp

@[simp] theorem yields_throw
    {fault : Fault}
    {result : α} :
    Yields (throw fault) params result rest ↔ False := by
  change (Except.error fault, params) = (Except.ok result, rest) ↔ _
  simp

/-- The second part of a composed reader goes on from where the first part
succeeded. A fault of the first part is the fault of the whole, and what it has
bound stays bound. -/
theorem start_bind
    (binding : Binding α)
    (next : α -> Binding β)
    (params : List Param) :
    (binding >>= next).start params =
      match binding.start params with
      | (.ok value, middle) => (next value).start middle
      | (.error fault, middle) => (.error fault, middle) := by
  change ExceptT.bindCont next (binding.start params).1 (binding.start params).2 = _
  rcases binding.start params with ⟨_ | _, _⟩ <;> rfl

/-- A composed reader succeeds when its first part does and its second part
goes on from there. -/
@[simp] theorem yields_bind
    {binding : Binding α}
    {next : α -> Binding β}
    {result : β} :
    Yields (binding >>= next) params result rest ↔
      ∃ value middle,
        Yields binding params value middle ∧ Yields (next value) middle result rest := by
  unfold Yields
  rw [start_bind]
  rcases binding.start params with ⟨fault | value, middle⟩
  · simp
  · simp only [Prod.mk.injEq, Except.ok.injEq]
    constructor
    · intro continued
      exact ⟨value, middle, ⟨rfl, rfl⟩, continued⟩
    · rintro ⟨_, _, ⟨rfl, rfl⟩, continued⟩
      exact continued

theorem yields_then_pure
    {binding : Binding α}
    {image : α -> β}
    {result : β} :
    Yields (binding >>= fun value => pure (image value)) params result rest ↔
      ∃ value, image value = result ∧ Yields binding params value rest := by
  simp only [yields_bind, yields_pure]
  constructor
  · rintro ⟨value, _, yields, rfl, rfl⟩
    exact ⟨value, rfl, yields⟩
  · rintro ⟨value, rfl, yields⟩
    exact ⟨value, rest, yields, rfl, rfl⟩

@[simp] theorem yields_refuse
    {cause : Cause}
    {run : List Word}
    {result : α} :
    Yields (refuse cause run) params result rest ↔ False :=
  yields_throw

@[simp] theorem yields_ofResult
    {outcome : Except Fault α}
    {result : α} :
    Yields (ofResult outcome) params result rest ↔ outcome = .ok result ∧ params = rest := by
  cases outcome with
  | error fault => simp [ofResult]
  | ok value => simp [ofResult]

@[simp] theorem yields_ofCheck
    {outcome : Except Cause α}
    {result : α} :
    Yields (ofCheck outcome) params result rest ↔ outcome = .ok result ∧ params = rest := by
  cases outcome with
  | error cause => simp [ofCheck]
  | ok value => simp [ofCheck]

@[simp] theorem yields_takeContext
    {name : String} :
    Yields takeContext params name rest ↔
      ∃ param, param.name = name ∧ params = param :: rest := by
  cases params with
  | nil =>
      change (Except.error _, []) = (Except.ok name, rest) ↔ _
      simp
  | cons param others =>
      change (Except.ok param.name, others) = (Except.ok name, rest) ↔ _
      grind

@[simp] theorem yields_takeParam
    {run : List Word}
    {param : Param} :
    Yields (takeParam run) params param rest ↔ params = param :: rest := by
  cases params with
  | nil =>
      change (Except.error _, []) = (Except.ok param, rest) ↔ _
      simp
  | cons first others =>
      change (Except.ok first, others) = (Except.ok param, rest) ↔ _
      simp

@[simp] theorem yields_ensureExhausted
    {done : Unit} :
    Yields ensureExhausted params done rest ↔ params = [] ∧ rest = [] := by
  cases params with
  | nil =>
      change (Except.ok (), []) = (Except.ok done, rest) ↔ _
      simp [eq_comm]
  | cons first others =>
      change (Except.error _, first :: others) = (Except.ok done, rest) ↔ _
      simp

theorem namesOfType_eq_ok_iff
    {required : TypeExpr}
    {run : List Word}
    {taken : List Param}
    {names : List String} :
    namesOfType required run taken = .ok names ↔
      taken.map Param.name = names ∧ ∀ param ∈ taken, param.type = required := by
  induction taken generalizing names with
  | nil => simp [namesOfType]
  | cons param others hypothesis =>
      unfold namesOfType
      by_cases same : param.type = required
      · rw [if_pos same, except_map_eq_ok_iff]
        simp only [hypothesis, List.map_cons, List.forall_mem_cons, same, true_and]
        constructor
        · rintro ⟨otherNames, ⟨rfl, typed⟩, rfl⟩
          exact ⟨rfl, typed⟩
        · rintro ⟨rfl, typed⟩
          exact ⟨_, ⟨rfl, typed⟩, rfl⟩
      · simp [same]

theorem start_takeNames
    (required : TypeExpr)
    (count : Nat)
    (run : List Word)
    (params : List Param) :
    (takeNames required count run).start params =
      if count ≤ params.length then
        (namesOfType required run (params.take count), params.drop count)
      else
        (.error (Fault.on .missingParams run), params) := by
  simp only [takeNames, start, ExceptT.run_mk, StateT.run]
  by_cases enough : count ≤ params.length
  · simp only [takeParams, if_pos enough]
  · simp only [takeParams, if_neg enough]

/-- Parameters bound for one type are consecutive, as many as asked for, and
all of that type. -/
@[simp] theorem yields_takeNames
    {required : TypeExpr}
    {count : Nat}
    {run : List Word}
    {names : List String} :
    Yields (takeNames required count run) params names rest ↔
      ∃ taken, params = taken ++ rest ∧ taken.length = count ∧
        taken.map Param.name = names ∧ ∀ param ∈ taken, param.type = required := by
  unfold Yields
  rw [start_takeNames]
  by_cases enough : count ≤ params.length
  · rw [if_pos enough, Prod.mk.injEq, namesOfType_eq_ok_iff]
    constructor
    · rintro ⟨⟨names_eq, typed⟩, rfl⟩
      refine ⟨params.take count, ?_, ?_, names_eq, typed⟩
      · exact (List.take_append_drop count params).symm
      · exact List.length_take_of_le enough
    · rintro ⟨taken, rfl, rfl, names_eq, typed⟩
      rw [List.take_left, List.drop_left]
      exact ⟨⟨names_eq, typed⟩, rfl⟩
  · rw [if_neg enough]
    constructor
    · simp
    · rintro ⟨taken, rfl, rfl, -⟩
      simp at enough

/-- A row of parameters of one type ends in front of the first parameter of
another. -/
@[simp] theorem yields_takeWhileType
    {type : TypeExpr}
    {taken : List Param} :
    Yields (takeWhileType type) params taken rest ↔
      params.takeWhile (·.type == type) = taken ∧
        params.dropWhile (·.type == type) = rest := by
  change (Except.ok (params.takeWhile _), params.dropWhile _) = (Except.ok taken, rest) ↔ _
  simp

end Binding
end DerivedQuery
