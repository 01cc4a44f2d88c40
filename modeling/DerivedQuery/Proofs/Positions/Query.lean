import DerivedQuery.Proofs.Positions.FieldPath
import DerivedQuery.Proofs.QueryReader

/-!
# Reading queries by position

A query run is divided at the position of a connective. Where one bracket is
open at the connective, the words at both ends of the run are left out, and
there is one in front of the connective because brackets open to its left. A
comparator phrase is never longer than the run that it ends.
-/

namespace DerivedQuery
namespace Positions

open Checked

/-! ## Dividing a run -/

/-- Divide a run at a connective that stands at a position with some brackets
open. -/
def divideAt (words : List Word) (connective : Connective) (span : Span) (index depth : Nat) :
    Option (Except SplitError Split) := do
  let last ← minus? words.length 1
  if index = last then
    return .error (.dangling span)
  else if depth = 1 then
    let left ← slice? words 1 index
    let right ← slice? words (index + 1) last
    return .ok (.divided connective left right)
  else
    let left ← slice? words 0 index
    let right ← slice? words (index + 1) words.length
    return .ok (.divided connective left right)

/-- Divide a run at the first connective with at most `limit` brackets open,
from a position on in front of which `depth` brackets are open. -/
def divideFrom (limit : Nat) (words : List Word) (index depth : Nat) :
    List Word -> Option (Except SplitError Split)
  | [] => some (.ok (.leaf words))
  | word :: rest =>
      if word.is .leftBracket then
        divideFrom limit words (index + 1) (depth + 1) rest
      else if word.is .rightBracket then
        match depth with
        | 0 => some (.error (.unbalanced word.span))
        | depth + 1 => divideFrom limit words (index + 1) depth rest
      else
        match word.connective? with
        | none => divideFrom limit words (index + 1) depth rest
        | some connective =>
            if limit < depth then
              divideFrom limit words (index + 1) depth rest
            else
              divideAt words connective word.span index depth

/-- The division of a run of which the search has left `front` behind. -/
def ofSearch (words front : List Word) :
    Except SplitError (Option Split.Found) -> Except SplitError Split
  | .error error => .error error
  | .ok none => .ok (.leaf words)
  | .ok (some found) =>
      if found.after.isEmpty then
        .error (.dangling found.span)
      else if found.depth = 1 then
        .ok (.divided found.connective ((front ++ found.before).drop 1) found.after.dropLast)
      else
        .ok (.divided found.connective (front ++ found.before) found.after)

theorem ofSearch_behind
    (words front : List Word)
    (word : Word)
    (result : Except SplitError (Option Split.Found)) :
    ofSearch words front (Split.behind word result) = ofSearch words (front ++ [word]) result := by
  rcases result with error | found?
  · rfl
  · cases found? with
    | none => rfl
    | some found =>
        simp only [Split.behind, Except.map, Option.map_some, ofSearch, List.append_assoc,
          List.singleton_append]

theorem legacy_eq_ofSearch (run : List Word) :
    Split.legacy run = ofSearch run [] (Split.findConnective 1 0 run) := by
  unfold Split.legacy
  cases Split.findConnective 1 0 run with
  | error error => rfl
  | ok found? => cases found? <;> rfl

theorem nested_eq_ofSearch (run : List Word) :
    Split.nested run =
      ofSearch (Brackets.unwrap run) [] (Split.findConnective 0 0 (Brackets.unwrap run)) := by
  simp only [Split.nested]
  generalize Brackets.unwrap run = inner
  cases search : Split.findConnective 0 0 inner with
  | error error => rfl
  | ok found? =>
      cases found? with
      | none => rfl
      | some found =>
          obtain ⟨_, -, -, -, -, shallow, -⟩ := Split.foundIn_of_findConnective search
          have outside : found.depth ≠ 1 := by omega
          simp only [ofSearch, if_neg outside, List.nil_append]

/-- At a connective there is a word to its left for each open bracket. -/
theorem divideAt_eq
    {words front rest : List Word}
    {word : Word}
    {depth : Nat}
    (words_eq : words = front ++ word :: rest)
    (opened : depth ≤ front.length)
    (connective : Connective) :
    divideAt words connective word.span front.length depth =
      some (ofSearch words front (.ok (some ⟨[], connective, word.span, rest, depth⟩))) := by
  have length_eq : words.length = front.length + (rest.length + 1) := by
    rw [words_eq, List.length_append, List.length_cons]
  have last_eq : minus? words.length 1 = some (front.length + rest.length) := by
    rw [minus?_of_le (by omega), length_eq]
    rfl
  rw [divideAt, last_eq]
  simp only [Option.bind_eq_bind, Option.bind_some, ofSearch, List.append_nil]
  rcases rest.eq_nil_or_concat' with rfl | ⟨init, final, rfl⟩
  · rw [if_pos (by simp), if_pos (by simp)]
    rfl
  · have notLast : front.length ≠ front.length + (init ++ [final]).length := by
      rw [List.length_append, List.length_singleton]
      omega
    have nonempty : ¬ (init ++ [final]).isEmpty := by simp
    rw [if_neg notLast, if_neg nonempty]
    by_cases isOne : depth = 1
    · subst isOne
      cases front with
      | nil => exact absurd opened (by simp)
      | cons first others =>
          have left_eq : slice? words 1 (first :: others).length = some others :=
            slice?_append
              (show words = [first] ++ (others ++ word :: (init ++ [final])) from words_eq) rfl
              (by rw [List.length_cons, List.length_singleton, Nat.add_comm])
          have right_eq : slice? words ((first :: others).length + 1)
              ((first :: others).length + (init ++ [final]).length) = some init :=
            slice?_append
              (show words = (first :: others ++ [word]) ++ (init ++ [final]) by simp [words_eq])
              (by simp) (by simp; omega)
          rw [if_pos rfl, if_pos rfl, left_eq, right_eq, List.drop_one, List.tail_cons,
            List.dropLast_concat]
          rfl
    · have left_eq : slice? words 0 front.length = some front :=
        slice?_append (show words = [] ++ (front ++ word :: (init ++ [final])) from words_eq)
          rfl (Nat.zero_add _).symm
      have right_eq : slice? words (front.length + 1) words.length = some (init ++ [final]) :=
        slice?_append
          (show words = (front ++ [word]) ++ ((init ++ [final]) ++ []) by simp [words_eq])
          (by simp) (by simp [words_eq]; omega)
      rw [if_neg isOne, if_neg isOne, left_eq, right_eq]
      rfl

/-- The loop over positions divides where the search for a connective ends. -/
theorem divideFrom_eq
    {limit depth : Nat}
    {words front rest : List Word}
    (words_eq : words = front ++ rest)
    (opened : depth ≤ front.length) :
    divideFrom limit words front.length depth rest =
      some (ofSearch words front (Split.findConnective limit depth rest)) := by
  induction rest generalizing front depth with
  | nil => rfl
  | cons word rest hypothesis =>
      have passed (further : Nat) (fewer : further ≤ front.length + 1) :
          divideFrom limit words (front.length + 1) further rest =
            some (ofSearch words front
              (Split.behind word (Split.findConnective limit further rest))) := by
        have next : divideFrom limit words (front ++ [word]).length further rest =
            some (ofSearch words (front ++ [word]) (Split.findConnective limit further rest)) :=
          hypothesis (by rw [words_eq, List.append_assoc, List.singleton_append])
            (by simpa using fewer)
        rwa [List.length_append, List.length_singleton, ← ofSearch_behind] at next
      unfold divideFrom
      rcases word.bracket_cases with opens | closes | other
      · rw [if_pos opens, Split.findConnective_opens opens]
        exact passed _ (Nat.succ_le_succ opened)
      · rw [if_neg (by simp [Word.not_opens_of_closes closes]), if_pos closes]
        cases depth with
        | zero =>
            rw [Split.findConnective_closes_zero closes]
            rfl
        | succ depth =>
            rw [Split.findConnective_closes_succ closes]
            exact passed _ (by omega)
      · obtain ⟨notOpening, notClosing⟩ := Word.isBracket_eq_false_iff.mp other
        rw [if_neg (by simp [notOpening]), if_neg (by simp [notClosing]),
          Split.findConnective_other other]
        cases word.connective? with
        | none => exact passed _ (Nat.le_succ_of_le opened)
        | some connective =>
            by_cases deep : limit < depth
            · simp only [if_pos deep, if_neg (Nat.not_le.mpr deep)]
              exact passed _ (Nat.le_succ_of_le opened)
            · simp only [if_neg deep, if_pos (Nat.not_lt.mp deep)]
              exact divideAt_eq words_eq opened connective

/-! ## Brackets around a run -/

/-- The position of the bracket that closes the one opened first, from a
position on in front of which `depth` brackets are open. -/
def closingFrom (index depth : Nat) : List Word -> Option (Option Nat)
  | [] => some none
  | word :: rest =>
      if word.is .leftBracket then
        closingFrom (index + 1) (depth + 1) rest
      else if word.is .rightBracket then do
        let outer ← minus? depth 1
        if outer = 0 then
          return some index
        else
          closingFrom (index + 1) outer rest
      else
        closingFrom (index + 1) depth rest

/-- As long as the search goes on, a bracket is open. -/
theorem closingFrom_eq
    (index depth : Nat)
    (run : List Word) :
    closingFrom index (depth + 1) run =
      some ((Brackets.splitClosing depth run).map fun parts => index + parts.1.length) := by
  induction run generalizing index depth with
  | nil => rfl
  | cons word rest hypothesis =>
      have passed (further : Nat) :
          closingFrom (index + 1) (further + 1) rest =
            some (((Brackets.splitClosing further rest).map fun parts =>
              (word :: parts.1, parts.2)).map fun parts => index + parts.1.length) := by
        rw [hypothesis, Option.map_map]
        congr 2
        funext parts
        simp only [Function.comp_apply, List.length_cons]
        omega
      unfold closingFrom Brackets.splitClosing
      rcases word.bracket_cases with opens | closes | other
      · rw [if_pos opens, if_pos opens]
        exact passed _
      · have notOpening : ¬ word.is .leftBracket := by simp [Word.not_opens_of_closes closes]
        rw [if_neg notOpening, if_pos closes, if_neg notOpening, if_pos closes]
        cases depth with
        | zero => rfl
        | succ depth => exact passed _
      · have notOpening : ¬ word.is .leftBracket := by
          simp [(Word.isBracket_eq_false_iff.mp other).1]
        have notClosing : ¬ word.is .rightBracket := by
          simp [(Word.isBracket_eq_false_iff.mp other).2]
        rw [if_neg notOpening, if_neg notClosing, if_neg notOpening, if_neg notClosing]
        exact passed _

/-- Whether the first word of a run opens a bracket that the last one closes. -/
def isWrapped (words : List Word) : Option Bool :=
  if words.length < 2 then
    some false
  else do
    let first ← words[0]?
    let last ← minus? words.length 1
    let final ← words[last]?
    if first.is .leftBracket && final.is .rightBracket then
      let close? ← closingFrom 0 0 words
      return close? == some last
    else
      return false

/-- A run is wrapped exactly if it has an inside. -/
theorem isWrapped_eq (words : List Word) :
    isWrapped words = some (Brackets.inside? words).isSome := by
  rcases words with _ | ⟨first, others⟩
  · rfl
  rcases others.eq_nil_or_concat' with rfl | ⟨init, final, rfl⟩
  · simp [isWrapped, Brackets.inside?, Brackets.splitClosing]
  · have last_eq : minus? (first :: (init ++ [final])).length 1 = some (init.length + 1) := by
      simp [minus?]
    have final_eq : (first :: (init ++ [final]))[init.length + 1]? = some final := by
      simp
    rw [isWrapped, if_neg (by simp), last_eq]
    simp only [List.getElem?_cons_zero, Option.bind_eq_bind, Option.bind_some, final_eq]
    split
    · rename_i both
      have opens := (Bool.and_eq_true_iff.mp both).1
      rw [closingFrom, if_pos opens, closingFrom_eq, Brackets.inside?, if_pos opens]
      cases divided : Brackets.splitClosing 0 (init ++ [final]) with
      | none => rfl
      | some parts =>
          obtain ⟨inside, after⟩ := parts
          have total := Brackets.length_of_splitClosing divided
          rw [List.length_append, List.length_singleton] at total
          cases after with
          | nil =>
              have close_eq : 0 + 1 + inside.length = init.length + 1 := by
                rw [List.length_nil] at total
                omega
              simp [close_eq]
          | cons word rest =>
              have close_ne : 0 + 1 + inside.length ≠ init.length + 1 := by
                rw [List.length_cons] at total
                omega
              simp [close_ne]
    · rename_i notBoth
      cases wrapped : Brackets.inside? (first :: (init ++ [final])) with
      | none => rfl
      | some inside =>
          obtain ⟨opening, closing, opens, closes, run_eq, -⟩ :=
            Brackets.inside?_eq_some_iff.mp wrapped
          obtain ⟨rfl, behind⟩ := List.cons.inj run_eq
          obtain ⟨-, same⟩ := List.append_inj' behind rfl
          obtain rfl := List.singleton_inj.mp same
          exact absurd (Bool.and_eq_true_iff.mpr ⟨opens, closes⟩) notBoth

/-- The inside of a run whose first word opens a bracket that its last word
closes. -/
def inside? (run : List Word) : Option (Option (List Word)) := do
  if ← isWrapped run then
    let last ← minus? run.length 1
    let inside ← slice? run 1 last
    return some inside
  else
    return none

theorem inside?_eq (run : List Word) : inside? run = some (Brackets.inside? run) := by
  rw [inside?, isWrapped_eq]
  cases wrapped : Brackets.inside? run with
  | none => rfl
  | some inside =>
      obtain ⟨opening, closing, -, -, run_eq, -⟩ := Brackets.inside?_eq_some_iff.mp wrapped
      have last_eq : minus? run.length 1 = some (inside.length + 1) := by
        rw [minus?_of_le (by simp [run_eq]), run_eq]
        simp
      have inside_eq : slice? run 1 (inside.length + 1) = some inside :=
        slice?_append (show run = [opening] ++ (inside ++ [closing]) from run_eq) rfl
          (Nat.add_comm _ _)
      simp only [Option.isSome_some, Option.bind_eq_bind, Option.bind_some, if_true, last_eq,
        inside_eq]
      rfl

/-- Remove brackets around the whole run. -/
def unwrap (run : List Word) : Option (List Word) :=
  match _wrapped : inside? run with
  | none => none
  | some none => some run
  | some (some inside) => unwrap inside
termination_by run.length
decreasing_by
  rw [inside?_eq, Option.some.injEq] at _wrapped
  exact Brackets.length_lt_of_inside? _wrapped

theorem unwrap_eq (run : List Word) : unwrap run = some (Brackets.unwrap run) := by
  fun_induction unwrap run with
  | case1 run missing =>
      rw [inside?_eq] at missing
      cases missing
  | case2 run notWrapped =>
      rw [inside?_eq, Option.some.injEq] at notWrapped
      rw [Brackets.unwrap_eq_self notWrapped]
  | case3 run inside wrapped hypothesis =>
      rw [inside?_eq, Option.some.injEq] at wrapped
      rw [hypothesis, Brackets.unwrap_of_inside? wrapped]

/-- Take one step in taking a query run apart. -/
def split (strategy : SplitStrategy) (words : List Word) : Option (Except SplitError Split) :=
  match strategy with
  | .legacy => divideFrom 1 words 0 0 words
  | .nested => do
      let run ← unwrap words
      divideFrom 0 run 0 0 run

theorem split_eq
    (strategy : SplitStrategy)
    (words : List Word) :
    split strategy words = some (strategy.split words) := by
  have divided (limit : Nat) (run : List Word) :
      divideFrom limit run 0 0 run =
        some (ofSearch run [] (Split.findConnective limit 0 run)) :=
    divideFrom_eq (List.nil_append run).symm (Nat.le_refl 0)
  cases strategy with
  | legacy =>
      rw [split, divided, SplitStrategy.split, legacy_eq_ofSearch]
  | nested =>
      rw [split, unwrap_eq, SplitStrategy.split, nested_eq_ofSearch]
      exact divided 0 (Brackets.unwrap words)

/-! ## Reading -/

/-- Read one condition. -/
def condition (scope : Scope) (run : List Word) : Checked Condition :=
  if run.length < 2 then
    lift (Binding.refuse (.shortCondition (Word.texts run)) run)
  else
    match Comparator.phrase? run with
    | none => lift (Binding.refuse (.missingComparator (Word.texts run)) run)
    | some (comparator, length) => do
        let stop ← lookUp (minus? run.length length)
        let fieldRun ← lookUp (slice? run 0 stop)
        if fieldRun.isEmpty then
          lift (Binding.refuse (.missingField (Word.texts run) comparator) run)
        else
          let resolved ← lookUp (resolve scope.schema fieldRun)
          let path ← lift (Binding.ofResult (resolved.mapError ResolveError.fault))
          let params ← lift (Binding.takeNames path.type comparator.arity run)
          return ⟨comparator, path.key, params⟩

/-- The phrase of a comparator is no longer than the run it ends. -/
theorem condition_eq
    (scope : Scope)
    (run : List Word) :
    condition scope run = lift (Condition.read scope run) := by
  unfold condition Condition.read
  split
  · rfl
  · cases found : Comparator.phrase? run with
    | none => rfl
    | some phrase =>
        obtain ⟨comparator, length⟩ := phrase
        obtain ⟨front, back, rfl, rfl, -⟩ := Comparator.phrase?_eq_some found
        have fits : back.length ≤ (front ++ back).length := by
          rw [List.length_append]
          exact Nat.le_add_left _ _
        simp only [minus?_of_le fits, slice?_upTo (Nat.sub_le _ _), resolve_eq, lookUp_some_bind]
        split
        · rfl
        · exact bind_eq_lift rfl fun path _ => then_pure_eq_lift rfl _

/-- Read the conditions of a query run from left to right. -/
def queryExpr (scope : Scope) (run : List Word) : Checked QueryExpr :=
  match _divided : split scope.config.splitStrategy run with
  | none => lookUp none
  | some (.error error) => lift (throw error.fault)
  | some (.ok (.leaf inner)) => do
      let leaf ← condition scope inner
      return .leaf leaf
  | some (.ok (.divided connective left right)) => do
      let leftExpr ← queryExpr scope left
      let rightExpr ← queryExpr scope right
      return .node connective leftExpr rightExpr
termination_by run.length
decreasing_by
  all_goals
    rw [split_eq, Option.some.injEq] at _divided
  · exact (SplitStrategy.length_lt_of_split _divided).1
  · exact (SplitStrategy.length_lt_of_split _divided).2

theorem queryExpr_eq
    (scope : Scope)
    (run : List Word) :
    queryExpr scope run =
      lift (QueryExpr.read scope (Outline.ofRun scope.config.splitStrategy run)) := by
  fun_induction queryExpr scope run with
  | case1 run missing =>
      rw [split_eq] at missing
      cases missing
  | case2 run error broken =>
      rw [split_eq, Option.some.injEq] at broken
      rw [Outline.ofRun_eq, broken]
      rfl
  | case3 run inner undivided =>
      rw [split_eq, Option.some.injEq] at undivided
      rw [Outline.ofRun_eq, undivided]
      exact then_pure_eq_lift (condition_eq scope inner) QueryExpr.leaf
  | case4 run connective left right divided leftHypothesis rightHypothesis =>
      rw [split_eq, Option.some.injEq] at divided
      rw [Outline.ofRun_eq, divided]
      refine bind_eq_lift leftHypothesis fun leftExpr _ => ?_
      exact then_pure_eq_lift rightHypothesis (QueryExpr.node connective leftExpr)

/-- Read a query. -/
def query (scope : Scope) (run : List Word) : Checked Query :=
  match run with
  | [] => lift (throw (Fault.overall .missingQuery))
  | first :: body =>
      match first.keyword? with
      | some .allQuery =>
          if body.isEmpty then pure .all else lift (Binding.refuse .wordsAfterAll body)
      | some .byQuery =>
          if body.isEmpty then
            lift (Binding.refuse .emptyQuery [first])
          else do
            lift (Binding.ofResult ((Brackets.check body).mapError SplitError.fault))
            let expr ← queryExpr scope body
            return .matching expr
      | _ => lift (Binding.refuse .missingQuery run)

theorem query_eq
    (scope : Scope)
    (run : List Word) :
    query scope run = lift (Query.read scope run) := by
  cases run with
  | nil => rfl
  | cons first body =>
      simp only [query, Query.read]
      cases first.keyword? with
      | none => rfl
      | some keyword =>
          cases keyword with
          | allQuery => cases body <;> rfl
          | byQuery =>
              cases body with
              | nil => rfl
              | cons word others =>
                  exact bind_eq_lift rfl fun _ _ =>
                    then_pure_eq_lift (queryExpr_eq scope _) Query.matching
          | _ => rfl

end Positions
end DerivedQuery
