import DerivedQuery.Proofs.QueryDependence

/-!
# Looking words up by position

Readers can go through a run by position instead of taking it apart as a list.
Then they look up words, cut out parts between two positions and subtract
positions, and each of these can go out of range. A checked reader makes that
visible: it returns nothing as soon as a look-up fails. Lifting a reader to a
checked one respects sequencing, so a reader by position never fails to look
something up once each of its parts is shown to be a lifted reader.
-/

namespace DerivedQuery
namespace Positions

/-! ## Look-ups -/

section LookUps

variable {α : Type}

/-- The items from `start` up to `stop`, unless the positions are out of range
or out of order. -/
def slice? (items : List α) (start stop : Nat) : Option (List α) :=
  if start ≤ stop ∧ stop ≤ items.length then
    some ((items.drop start).take (stop - start))
  else
    none

/-- The difference of two numbers, unless it is negative. -/
def minus? (first second : Nat) : Option Nat :=
  if second ≤ first then some (first - second) else none

theorem minus?_of_le
    {first second : Nat}
    (enough : second ≤ first) :
    minus? first second = some (first - second) :=
  if_pos enough

theorem slice?_of_le
    {items : List α}
    {start stop : Nat}
    (ordered : start ≤ stop)
    (within : stop ≤ items.length) :
    slice? items start stop = some ((items.drop start).take (stop - start)) :=
  if_pos ⟨ordered, within⟩

/-- A part is cut out between the positions at its ends. -/
theorem slice?_append
    {items front middle back : List α}
    {start stop : Nat}
    (items_eq : items = front ++ (middle ++ back))
    (start_eq : start = front.length)
    (stop_eq : stop = front.length + middle.length) :
    slice? items start stop = some middle := by
  subst items_eq start_eq stop_eq
  rw [slice?_of_le (by omega) (by simp only [List.length_append]; omega), List.drop_left,
    Nat.add_sub_cancel_left, List.take_left]

theorem slice?_from
    {items : List α}
    {start : Nat}
    (within : start ≤ items.length) :
    slice? items start items.length = some (items.drop start) := by
  rw [slice?_of_le within (Nat.le_refl _), List.take_of_length_le]
  exact Nat.le_of_eq List.length_drop

theorem slice?_upTo
    {items : List α}
    {stop : Nat}
    (within : stop ≤ items.length) :
    slice? items 0 stop = some (items.take stop) := by
  rw [slice?_of_le (Nat.zero_le _) within, List.drop_zero, Nat.sub_zero]

theorem takeWhile_eq_take_findIdx
    (marked : α -> Bool)
    (items : List α) :
    items.takeWhile (!marked ·) = items.take (items.findIdx marked) := by
  rw [List.takeWhile_eq_take_findIdx_not]
  simp only [Bool.not_not]

theorem dropWhile_eq_drop_findIdx
    (marked : α -> Bool)
    (items : List α) :
    items.dropWhile (!marked ·) = items.drop (items.findIdx marked) := by
  rw [List.dropWhile_eq_drop_findIdx_not]
  simp only [Bool.not_not]

end LookUps

/-! ## Checked readers -/

/-- A reader that binds parameters, may fail, and returns nothing if it looks
something up that is not there. -/
abbrev Checked := ExceptT Fault (StateT (List Param) Option)

namespace Checked

variable {α β : Type}

/-- Run a checked reader on the parameters not bound yet. -/
def start (reader : Checked α) (params : List Param) : Option (Except Fault α × List Param) :=
  reader.run.run params

/-- A reader that looks nothing up. -/
def lift (binding : Binding α) : Checked α :=
  ExceptT.mk fun params => some (binding.start params)

/-- The outcome of a look-up. -/
def lookUp : Option α -> Checked α
  | some value => pure value
  | none => ExceptT.mk fun _ => none

theorem start_lift (binding : Binding α) (params : List Param) :
    (lift binding).start params = some (binding.start params) :=
  rfl

theorem lift_pure (value : α) : lift (pure value) = pure value :=
  rfl

/-- Lifting respects sequencing. What comes second matters for the values that
the first reader succeeds with only. -/
theorem bind_eq_lift
    {reader : Checked α}
    {binding : Binding α}
    {next : α -> Checked β}
    {other : α -> Binding β}
    (first : reader = lift binding)
    (further : ∀ value, binding.Reaches value -> next value = lift (other value)) :
    (reader >>= next) = lift (binding >>= other) := by
  subst first
  funext params
  change ((binding.start params).1 |> fun outcome =>
      (ExceptT.bindCont next outcome).run (binding.start params).2) =
    some ((binding >>= other).start params)
  rw [Binding.start_bind]
  cases result : binding.start params with
  | mk outcome rest =>
      cases outcome with
      | error fault => rfl
      | ok value =>
          change (next value).start rest = some ((other value).start rest)
          rw [further value ⟨params, rest, result⟩]
          rfl

/-- A look-up that succeeds is no step of its own. -/
@[simp] theorem lookUp_some_bind
    (value : α)
    (next : α -> Checked β) :
    (lookUp (some value) >>= next) = next value :=
  rfl

-- A part whose ends are out of order stops its reader.
example : (lookUp (slice? [true] 1 0) >>= fun part => pure part.length).start [] = none :=
  rfl

theorem then_pure_eq_lift
    {reader : Checked α}
    {binding : Binding α}
    (first : reader = lift binding)
    (image : α -> β) :
    (reader >>= fun value => pure (image value)) =
      lift (binding >>= fun value => pure (image value)) :=
  bind_eq_lift first fun _ _ => rfl

end Checked
end Positions
end DerivedQuery
