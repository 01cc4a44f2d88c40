import DerivedQuery.Proofs.Progress

/-!
# Sessions

A session calls readers one after the other on one row of parameters. A reader
that fails does not end it; the next one goes on from where that reader stopped.
The position in the row never moves back, so no parameter is bound by two
readers, and a reader that succeeds has bound just the parameters it moved over.
-/

namespace DerivedQuery
namespace Session

/-- A reader together with its words. -/
inductive Call
  | insert (run : List Word) (invocation : Invocation)
  | update (run : List Word) (invocation : Invocation)
  | delete (run : List Word) (invocation : Invocation)
  | bulk (run : List Word) (invocation : Invocation)
  | find (run : List Word)
  | count (run : List Word)
  | transaction (run : List Word)
  | query (run : List Word)
  | condition (run : List Word)
  /-- Bind so many parameters of one type. -/
  | names (type : TypeExpr) (number : Nat) (run : List Word)
  | context
  | param (run : List Word)
  deriving DecidableEq, Repr

/-- What a reader returns. -/
inductive Value
  | operation (record : Operation)
  | query (record : Query)
  | condition (record : Condition)
  | names (names : List String)
  | param (param : Param)
  deriving DecidableEq, Repr

namespace Call

/-- The words of a call. -/
def run : Call -> List Word
  | .insert run _ | .update run _ | .delete run _ | .bulk run _ => run
  | .find run | .count run | .transaction run | .query run | .condition run => run
  | .names _ _ run | .param run => run
  | .context => []

/-- The reader that is called. -/
def read (scope : Scope) : Call -> Binding Value
  | .insert run invocation => return .operation (.insert (← Insert.read scope run invocation))
  | .update run invocation => return .operation (.update (← Update.read scope run invocation))
  | .delete run invocation => return .operation (.delete (← Delete.read scope run invocation))
  | .bulk run invocation => return .operation (.bulk (← Bulk.read scope run invocation))
  | .find run => return .operation (.find (← Find.read scope run))
  | .count run => return .operation (.count (← Count.read scope run))
  | .transaction run => return .operation (.transaction (← Transaction.read scope run))
  | .query run => return .query (← Query.read scope run)
  | .condition run => return .condition (← Condition.read scope run)
  | .names type number run => return .names (← Binding.takeNames type number run)
  | .context => return .names [← Binding.takeContext]
  | .param run => return .param (← Binding.takeParam run)

/-- How many parameters a call asks for that does nothing but bind, and the
fault it fails with when fewer are left. -/
def demand? : Call -> Option (Nat × Fault)
  | .names _ number run => some (number, Fault.on .missingParams run)
  | .context => some (1, Fault.overall (.fewParams 1))
  | .param run => some (1, Fault.on .missingParams run)
  | _ => none

end Call

/-- The names of the parameters that a value holds, in the order in which they
are bound. Where the clauses of a Find stand is told by its words. -/
def Value.boundNames (words : List Word) : Value -> List String
  | .operation record => (record.slots words).flatMap Slot.names
  | .query record => record.slots.flatMap Slot.names
  | .condition record => record.params
  | .names bound => bound
  | .param bound => [bound.name]

/-- One call of a session: the parameters left before and after it, and how it
ended. -/
structure Entry where
  call : Call
  before : List Param
  outcome : Except Fault Value
  after : List Param

/-- Call readers one after the other, each on what the one before has left. -/
def entries (scope : Scope) : List Param -> List Call -> List Entry
  | _, [] => []
  | params, call :: calls =>
      let (outcome, left) := (call.read scope).start params
      ⟨call, params, outcome, left⟩ :: entries scope left calls

/-! ## One call -/

theorem Call.advances_read
    (scope : Scope)
    (call : Call) :
    (call.read scope).Advances := by
  cases call with
  | insert run invocation => exact (Insert.advances_read scope run invocation).then_pure _
  | update run invocation => exact (Update.advances_read scope run invocation).then_pure _
  | delete run invocation => exact (Delete.advances_read scope run invocation).then_pure _
  | bulk run invocation => exact (Bulk.advances_read scope run invocation).then_pure _
  | find run => exact (Find.advances_read scope run).then_pure _
  | count run => exact (Count.advances_read scope run).then_pure _
  | transaction run => exact (Transaction.advances_read scope run).then_pure _
  | query run => exact (Query.advances_read scope run).then_pure _
  | condition run => exact (Condition.advances_read scope run).then_pure _
  | names type count run => exact (Binding.advances_takeNames type count run).then_pure _
  | context => exact Binding.advances_takeContext.then_pure _
  | param run => exact (Binding.advances_takeParam run).then_pure _

/-- A call that succeeds has bound the parameters that its value holds. -/
theorem Call.boundNames_eq
    {scope : Scope}
    {call : Call}
    {value : Value}
    {taken rest : List Param}
    (yields : (call.read scope).Yields (taken ++ rest) value rest) :
    value.boundNames call.run = taken.map Param.name := by
  cases call with
  | insert run invocation =>
      obtain ⟨record, rfl, reads⟩ := Binding.yields_then_pure.mp yields
      exact (Insert.names_of_yields_read reads).of_append
  | update run invocation =>
      obtain ⟨record, rfl, reads⟩ := Binding.yields_then_pure.mp yields
      exact (Update.names_of_yields_read reads).of_append
  | delete run invocation =>
      obtain ⟨record, rfl, reads⟩ := Binding.yields_then_pure.mp yields
      exact (Delete.names_of_yields_read reads).of_append
  | bulk run invocation =>
      obtain ⟨record, rfl, reads⟩ := Binding.yields_then_pure.mp yields
      exact (Bulk.names_of_yields_read reads).of_append
  | find run =>
      obtain ⟨record, rfl, reads⟩ := Binding.yields_then_pure.mp yields
      exact (Find.names_of_yields_read reads).of_append
  | count run =>
      obtain ⟨record, rfl, reads⟩ := Binding.yields_then_pure.mp yields
      exact (Count.names_of_yields_read reads).of_append
  | transaction run =>
      obtain ⟨record, rfl, reads⟩ := Binding.yields_then_pure.mp yields
      exact (Transaction.names_of_yields_read reads).of_append
  | query run =>
      obtain ⟨record, rfl, reads⟩ := Binding.yields_then_pure.mp yields
      exact Slot.Names.of_append (Query.fills_of_yields_read reads).names_eq
  | condition run =>
      obtain ⟨record, rfl, reads⟩ := Binding.yields_then_pure.mp yields
      have names_eq := Slot.Names.of_append (Condition.fills_of_yields_read reads).names_eq
      simpa [Value.boundNames, Slot.names] using names_eq
  | names type count run =>
      obtain ⟨names, rfl, reads⟩ := Binding.yields_then_pure.mp yields
      obtain ⟨bound, params_eq, -, rfl, -⟩ := Binding.yields_takeNames.mp reads
      rw [List.append_cancel_right params_eq]
      rfl
  | context =>
      obtain ⟨name, rfl, reads⟩ := Binding.yields_then_pure.mp yields
      obtain ⟨param, rfl, params_eq⟩ := Binding.yields_takeContext.mp reads
      rw [← List.singleton_append, List.append_cancel_right_eq] at params_eq
      rw [params_eq]
      rfl
  | param run =>
      obtain ⟨param, rfl, reads⟩ := Binding.yields_then_pure.mp yields
      have params_eq := Binding.yields_takeParam.mp reads
      rw [← List.singleton_append, List.append_cancel_right_eq] at params_eq
      rw [params_eq]
      rfl

/-- A call that only binds and finds too few parameters takes none of them. -/
theorem Call.start_of_demand?
    {scope : Scope}
    {call : Call}
    {count : Nat}
    {fault : Fault}
    {params : List Param}
    (demands : call.demand? = some (count, fault))
    (few : params.length < count) :
    (call.read scope).start params = (.error fault, params) := by
  cases call with
  | names type wanted run =>
      simp only [demand?, Option.some.injEq, Prod.mk.injEq] at demands
      obtain ⟨rfl, rfl⟩ := demands
      rw [read, Binding.start_bind, Binding.start_takeNames, if_neg (Nat.not_le.mpr few)]
  | context =>
      simp only [demand?, Option.some.injEq, Prod.mk.injEq] at demands
      obtain ⟨rfl, rfl⟩ := demands
      obtain rfl := List.length_eq_zero_iff.mp (Nat.lt_one_iff.mp few)
      rfl
  | param run =>
      simp only [demand?, Option.some.injEq, Prod.mk.injEq] at demands
      obtain ⟨rfl, rfl⟩ := demands
      obtain rfl := List.length_eq_zero_iff.mp (Nat.lt_one_iff.mp few)
      rfl
  | _ => simp [demand?] at demands

/-! ## Positions -/

/-- How many parameters of a row have been taken when some are left. -/
def position (params left : List Param) : Nat :=
  params.length - left.length

namespace Entry

/-- The position in front of a call. -/
def start (params : List Param) (entry : Entry) : Nat :=
  position params entry.before

/-- The position behind a call. -/
def stop (params : List Param) (entry : Entry) : Nat :=
  position params entry.after

/-- The positions a call has moved over. -/
def positions (params : List Param) (entry : Entry) : List Nat :=
  List.range' (entry.start params) (entry.stop params - entry.start params)

/-- A call that goes on in a row of parameters and binds what it moves over. -/
structure Steady (params : List Param) (entry : Entry) : Prop where
  before_eq : entry.before = params.drop (entry.start params)
  after_eq : entry.after = params.drop (entry.stop params)
  start_le_stop : entry.start params ≤ entry.stop params
  stop_le_length : entry.stop params ≤ params.length
  /-- A call that succeeds holds each parameter it has moved over once, in order. -/
  boundNames_eq : ∀ value, entry.outcome = .ok value ->
    value.boundNames entry.call.run =
      ((params.drop (entry.start params)).take (entry.stop params - entry.start params)).map
        Param.name
  /-- A call that only binds does not move when too few parameters are left. -/
  unmoved : ∀ count fault, entry.call.demand? = some (count, fault) ->
    entry.before.length < count ->
      entry.outcome = .error fault ∧ entry.stop params = entry.start params

end Entry

/-- Parameters left at the end of a row are those from their position on. -/
theorem drop_position
    {params left : List Param}
    (suffix : left <:+ params) :
    params.drop (position params left) = left :=
  (List.suffix_iff_eq_drop.mp suffix).symm

/-- A call on the end of a row is steady and leaves an end of the row. -/
theorem steady_of_start
    {scope : Scope}
    {params before after : List Param}
    {call : Call}
    {outcome : Except Fault Value}
    (suffix : before <:+ params)
    (result : (call.read scope).start before = (outcome, after)) :
    after <:+ params ∧ Entry.Steady params ⟨call, before, outcome, after⟩ := by
  have moved : after <:+ before := by
    have advances := call.advances_read scope before
    rwa [result] at advances
  obtain ⟨taken, rfl⟩ := moved
  have further : after <:+ params := (List.suffix_append taken after).trans suffix
  have before_length := suffix.length_le
  rw [List.length_append] at before_length
  refine ⟨further, (drop_position suffix).symm, (drop_position further).symm, ?_, ?_, ?_, ?_⟩
  · simp only [Entry.start, Entry.stop, position, List.length_append]
    omega
  · exact Nat.sub_le _ _
  · rintro value rfl
    have count_eq : position params after - position params (taken ++ after) = taken.length := by
      simp only [position, List.length_append]
      omega
    simp only [Entry.start, Entry.stop]
    rw [drop_position suffix, count_eq, List.take_left]
    exact Call.boundNames_eq result
  · intro count fault demands few
    have stopped := result.symm.trans (Call.start_of_demand? demands few)
    obtain ⟨rfl, after_eq⟩ := Prod.mk.inj stopped
    refine ⟨rfl, ?_⟩
    simp only [Entry.start, Entry.stop]
    exact congrArg (position params) after_eq

/-- Every call of a session is steady. -/
theorem steady_of_mem_entries
    {scope : Scope}
    {params left : List Param}
    {calls : List Call}
    (suffix : left <:+ params)
    {entry : Entry}
    (member : entry ∈ entries scope left calls) :
    entry.Steady params ∧ position params left ≤ entry.start params := by
  induction calls generalizing left with
  | nil => simp [entries] at member
  | cons call calls hypothesis =>
      simp only [entries] at member
      generalize result : (call.read scope).start left = ended at member
      obtain ⟨further, steady⟩ := steady_of_start suffix result
      rcases List.mem_cons.mp member with rfl | later
      · exact ⟨steady, Nat.le_refl _⟩
      · obtain ⟨steadyLater, behind⟩ := hypothesis further later
        exact ⟨steadyLater, Nat.le_trans steady.start_le_stop behind⟩

/-- A call starts behind every call before it. -/
theorem pairwise_entries
    (scope : Scope)
    (calls : List Call)
    {params left : List Param}
    (suffix : left <:+ params) :
    (entries scope left calls).Pairwise fun earlier later =>
      earlier.stop params ≤ later.start params := by
  induction calls generalizing left with
  | nil => exact .nil
  | cons call calls hypothesis =>
      simp only [entries]
      generalize result : (call.read scope).start left = ended
      obtain ⟨further, -⟩ := steady_of_start suffix result
      refine .cons ?_ (hypothesis further)
      intro later member
      exact (steady_of_mem_entries further member).2

end Session

/-- Over a whole session every call goes on where the one before has stopped,
and no position is moved over twice. -/
theorem session_binds_once
    (scope : Scope)
    (params : List Param)
    (first : Nat)
    (calls : List Session.Call) :
    (∀ entry ∈ Session.entries scope (params.drop first) calls, entry.Steady params) ∧
    ((Session.entries scope (params.drop first) calls).Pairwise fun earlier later =>
      earlier.stop params ≤ later.start params) ∧
    ((Session.entries scope (params.drop first) calls).flatMap fun entry =>
      entry.positions params).Pairwise (· < ·) := by
  have suffix := List.drop_suffix first params
  have ordered := Session.pairwise_entries scope calls suffix
  refine ⟨fun entry member => (Session.steady_of_mem_entries suffix member).1, ordered, ?_⟩
  rw [List.pairwise_flatMap]
  refine ⟨fun entry _ => List.pairwise_lt_range', ?_⟩
  apply ordered.imp_of_mem
  intro earlier later earlierMember laterMember behind position inEarlier other inLater
  have steady := (Session.steady_of_mem_entries suffix earlierMember).1.start_le_stop
  simp only [Session.Entry.positions, List.mem_range'_1] at inEarlier inLater
  omega

/-- The second call finds too few parameters and takes none; the last takes one
that has another type. -/
example :
    let scope : Scope := ⟨⟨"Probe", "", [], []⟩,
      ⟨"User", [⟨"Age", "age", .ident "int", none⟩]⟩, Config.standard⟩
    let params : List Param := [⟨"ctx", .selector "context" "Context"⟩,
      ⟨"low", .ident "int"⟩, ⟨"high", .ident "int"⟩, ⟨"name", .ident "string"⟩]
    (Session.entries scope params [.context, .names (.ident "int") 4 [],
        .condition (Word.segment "AgeBetween"), .names (.ident "int") 1 []]).map
      (fun entry => (entry.start params, entry.stop params, entry.outcome.isOk)) =
        [(0, 1, true), (1, 1, false), (1, 3, true), (3, 4, false)] := by
  decide +kernel

end DerivedQuery
