import DerivedQuery.Proofs.Brackets
import Mathlib.Combinatorics.Enumerative.DyckWord
import Mathlib.Order.Bounds.Basic

/-!
# Balanced brackets and the bracket to blame

Read as steps up and down, the brackets of a run form a Dyck word exactly if the
run is balanced. In a run that is not balanced, the check names the first
closing bracket without a partner or, if every closing bracket has one, the last
opening bracket without. Brackets are partners if what stands between them is
balanced.
-/

namespace DerivedQuery

namespace Word

/-- The step that a bracket stands for: up where it opens, down where it
closes. -/
def step? (word : Word) : Option DyckStep :=
  if word.is .leftBracket then some .U
  else if word.is .rightBracket then some .D
  else none

theorem step?_of_opens
    {word : Word}
    (opens : word.is .leftBracket) :
    word.step? = some .U := by
  simp [step?, opens]

theorem step?_of_closes
    {word : Word}
    (closes : word.is .rightBracket) :
    word.step? = some .D := by
  simp [step?, closes, not_opens_of_closes closes]

theorem step?_of_other
    {word : Word}
    (other : word.isBracket = false) :
    word.step? = none := by
  obtain ⟨noOpening, noClosing⟩ := isBracket_eq_false_iff.mp other
  simp [step?, noOpening, noClosing]

end Word

namespace Brackets

/-! ## Dyck words -/

/-- The brackets of a run, without its other words. -/
def steps (run : List Word) : List DyckStep :=
  run.filterMap Word.step?

/-- Steps that start at a height and never lead below the ground. -/
def StaysUp (height : Nat) (path : List DyckStep) : Prop :=
  ∀ count, (path.take count).count .D ≤ height + (path.take count).count .U

theorem staysUp_nil (height : Nat) : StaysUp height [] := by
  simp [StaysUp]

/-- A step leads from one height to the next. -/
theorem staysUp_cons_iff
    {height further : Nat}
    {step : DyckStep}
    {path : List DyckStep}
    (leads : height + [step].count .U = further + [step].count .D) :
    StaysUp height (step :: path) ↔ StaysUp further path := by
  have counted (count : Nat) :
      ((step :: path.take count).count .D ≤ height + (step :: path.take count).count .U) ↔
        (path.take count).count .D ≤ further + (path.take count).count .U := by
    rw [List.count_cons, List.count_cons]
    simp only [List.count_singleton] at leads
    omega
  constructor
  · intro staysUp count
    exact (counted count).mp (staysUp (count + 1))
  · intro staysUp count
    cases count with
    | zero => simp
    | succ count => exact (counted count).mpr (staysUp count)

theorem not_staysUp_zero_down {path : List DyckStep} : ¬StaysUp 0 (.D :: path) := by
  intro staysUp
  have bound := staysUp 1
  simp at bound

theorem steps_opens
    {word : Word}
    (opens : word.is .leftBracket)
    (rest : List Word) :
    steps (word :: rest) = .U :: steps rest :=
  List.filterMap_cons_some (Word.step?_of_opens opens)

theorem steps_closes
    {word : Word}
    (closes : word.is .rightBracket)
    (rest : List Word) :
    steps (word :: rest) = .D :: steps rest :=
  List.filterMap_cons_some (Word.step?_of_closes closes)

theorem steps_other
    {word : Word}
    (other : word.isBracket = false)
    (rest : List Word) :
    steps (word :: rest) = steps rest :=
  List.filterMap_cons_none (Word.step?_of_other other)

/-- The depth behind a run is the height at which its steps end. -/
theorem depthBehind_eq_some_iff
    {depth stop : Nat}
    {run : List Word} :
    depthBehind depth run = some stop ↔
      StaysUp depth (steps run) ∧
        depth + (steps run).count .U = stop + (steps run).count .D := by
  induction run generalizing depth with
  | nil => simp [steps, staysUp_nil]
  | cons word rest hypothesis =>
      rcases word.bracket_cases with opens | closes | other
      · have upwards : StaysUp depth (.U :: steps rest) ↔ StaysUp (depth + 1) (steps rest) :=
          staysUp_cons_iff rfl
        rw [depthBehind_opens opens, hypothesis, steps_opens opens, upwards,
          List.count_cons_self, List.count_cons_of_ne (by simp), Nat.add_right_comm,
          Nat.add_assoc]
      · rw [steps_closes closes, List.count_cons_self, List.count_cons_of_ne (by simp)]
        cases depth with
        | zero => simp [depthBehind_closes_zero closes, not_staysUp_zero_down]
        | succ depth =>
            have downwards : StaysUp (depth + 1) (.D :: steps rest) ↔ StaysUp depth (steps rest) :=
              staysUp_cons_iff rfl
            rw [depthBehind_closes_succ closes, hypothesis, downwards, Nat.add_right_comm,
              ← Nat.add_assoc, Nat.add_right_cancel_iff]
      · rw [depthBehind_other other, hypothesis, steps_other other]

theorem balanced_iff_dyckWord
    {run : List Word} :
    Balanced run ↔ ∃ dyckWord : DyckWord, dyckWord.toList = steps run := by
  simp only [Balanced, depthBehind_eq_some_iff, StaysUp, Nat.zero_add]
  constructor
  · rintro ⟨staysUp, returns⟩
    exact ⟨⟨steps run, returns, staysUp⟩, rfl⟩
  · rintro ⟨⟨path, returns, staysUp⟩, rfl⟩
    exact ⟨staysUp, returns⟩

/-! ## Brackets left open -/

/-- The brackets that a run leaves open, the innermost first, with balanced runs
around them. -/
inductive LeavesOpen : List Word -> List Word -> Prop
  | nothing
      {run : List Word}
      (balanced : Balanced run) :
      LeavesOpen run []
  | behind
      {front inside opened : List Word}
      {opening : Word}
      (outer : LeavesOpen front opened)
      (opens : opening.is .leftBracket)
      (balanced : Balanced inside) :
      LeavesOpen (front ++ opening :: inside) (opening :: opened)

namespace LeavesOpen

variable {run opened : List Word}

theorem nil : LeavesOpen [] [] :=
  .nothing (.of_no_brackets (by simp))

theorem append_balanced
    {more : List Word}
    (leaves : LeavesOpen run opened)
    (balanced : Balanced more) :
    LeavesOpen (run ++ more) opened := by
  cases leaves with
  | nothing runBalanced => exact .nothing (runBalanced.append balanced)
  | behind outer opens insideBalanced =>
      rw [List.append_assoc, List.cons_append]
      exact .behind outer opens (insideBalanced.append balanced)

theorem append_opening
    {opening : Word}
    (leaves : LeavesOpen run opened)
    (opens : opening.is .leftBracket) :
    LeavesOpen (run ++ [opening]) (opening :: opened) :=
  .behind leaves opens (.of_no_brackets (by simp))

/-- A closing bracket takes the innermost one. -/
theorem append_closing
    {innermost closing : Word}
    (leaves : LeavesOpen run (innermost :: opened))
    (closes : closing.is .rightBracket) :
    LeavesOpen (run ++ [closing]) opened := by
  cases leaves with
  | behind outer opens balanced =>
      rw [List.append_assoc]
      exact outer.append_balanced (balanced.wrap opens closes)

theorem append_other
    {word : Word}
    (leaves : LeavesOpen run opened)
    (other : word.isBracket = false) :
    LeavesOpen (run ++ [word]) opened :=
  leaves.append_balanced (.of_no_brackets (by simpa using other))

theorem depthBehind_eq
    (leaves : LeavesOpen run opened) :
    depthBehind 0 run = some opened.length := by
  induction leaves with
  | nothing balanced => exact balanced
  | behind outer opens balanced hypothesis =>
      rw [depthBehind_append, hypothesis, Option.bind_some, depthBehind_opens opens,
        balanced.depthBehind_eq, List.length_cons]

end LeavesOpen

/-- As many brackets are left open as the depth says. -/
theorem exists_leavesOpen
    {front opened rest : List Word}
    {stop : Nat}
    (leaves : LeavesOpen front opened)
    (level : depthBehind opened.length rest = some stop) :
    ∃ further, LeavesOpen (front ++ rest) further ∧ further.length = stop := by
  induction rest generalizing front opened with
  | nil =>
      rw [List.append_nil]
      exact ⟨opened, leaves, Option.some.inj level⟩
  | cons word rest hypothesis =>
      rw [List.append_cons]
      rcases word.bracket_cases with opens | closes | other
      · rw [depthBehind_opens opens] at level
        exact hypothesis (leaves.append_opening opens) level
      · cases opened with
        | nil => simp [depthBehind_closes_zero closes] at level
        | cons innermost outer =>
            rw [List.length_cons, depthBehind_closes_succ closes] at level
            exact hypothesis (leaves.append_closing closes) level
      · rw [depthBehind_other other] at level
        exact hypothesis (leaves.append_other other) level

/-- A run that opens more brackets than it closes has an opening bracket with a
balanced run behind it. -/
theorem exists_opening_of_depthBehind
    {run : List Word}
    {stop : Nat}
    (level : depthBehind 0 run = some (stop + 1)) :
    ∃ outer opening inside, run = outer ++ opening :: inside ∧ opening.is .leftBracket ∧
      Balanced inside := by
  obtain ⟨opened, leaves, length_eq⟩ := exists_leavesOpen .nil level
  cases leaves with
  | nothing balanced => simp at length_eq
  | behind outer opens balanced => exact ⟨_, _, _, rfl, opens, balanced⟩

/-! ## Partners -/

/-- The words at two positions are brackets and partners: the run between them
is balanced. -/
def Partners (run : List Word) (start stop : Nat) : Prop :=
  ∃ (outer inside after : List Word) (opening closing : Word),
    run = outer ++ opening :: inside ++ closing :: after ∧
      opening.is .leftBracket ∧ closing.is .rightBracket ∧ Balanced inside ∧
      outer.length = start ∧ (outer ++ opening :: inside).length = stop

/-- A closing bracket that has no partner stands at a position. -/
def Unopened (run : List Word) (position : Nat) : Prop :=
  (∃ word, run[position]? = some word ∧ word.is .rightBracket) ∧
    ∀ start, ¬Partners run start position

/-- An opening bracket that has no partner stands at a position. -/
def Unclosed (run : List Word) (position : Nat) : Prop :=
  (∃ word, run[position]? = some word ∧ word.is .leftBracket) ∧
    ∀ stop, ¬Partners run position stop

/-- The position that is to blame for a run that is not balanced. -/
def Blamed (run : List Word) (position : Nat) : Prop :=
  IsLeast {stop | Unopened run stop} position ∨
    (∀ stop, ¬Unopened run stop) ∧ IsGreatest {start | Unclosed run start} position

theorem Blamed.unique
    {run : List Word}
    {position other : Nat}
    (blamed : Blamed run position)
    (otherBlamed : Blamed run other) :
    position = other := by
  rcases blamed with least | ⟨none, greatest⟩
  · rcases otherBlamed with otherLeast | ⟨none, -⟩
    · exact least.unique otherLeast
    · exact absurd least.1 (none position)
  · rcases otherBlamed with otherLeast | ⟨-, otherGreatest⟩
    · exact absurd otherLeast.1 (none other)
    · exact greatest.unique otherGreatest

/-- A closing bracket behind a balanced run has no partner. -/
theorem unopened_of_balanced
    {front : List Word}
    {closing : Word}
    (balanced : Balanced front)
    (closes : closing.is .rightBracket)
    (after : List Word) :
    Unopened (front ++ closing :: after) front.length := by
  refine ⟨⟨closing, by simp, closes⟩, ?_⟩
  rintro start
    ⟨outer, inside, behind, opening, other, run_eq, opens, -, insideBalanced, -, length_eq⟩
  obtain ⟨rfl, -⟩ := List.append_inj run_eq length_eq.symm
  unfold Balanced at balanced
  rw [depthBehind_append] at balanced
  obtain ⟨depth, -, level⟩ := Option.bind_eq_some_iff.mp balanced
  rw [depthBehind_opens opens, insideBalanced.depthBehind_eq] at level
  simp at level

/-- A closing bracket that leaves the depth defined has a partner. -/
theorem not_unopened_of_depthBehind
    {front : List Word}
    {stop position : Nat}
    (level : depthBehind 0 front = some stop)
    (inFront : position < front.length)
    (after : List Word) :
    ¬Unopened (front ++ after) position := by
  rintro ⟨⟨closing, stands, closes⟩, alone⟩
  rw [List.getElem?_append_left inFront] at stands
  obtain ⟨before, behind, rfl, rfl⟩ := Word.exists_append_of_getElem? stands
  rw [depthBehind_append] at level
  obtain ⟨depth, beforeLevel, level⟩ := Option.bind_eq_some_iff.mp level
  cases depth with
  | zero => simp [depthBehind_closes_zero closes] at level
  | succ depth =>
      obtain ⟨outer, opening, inside, rfl, opens, balanced⟩ :=
        exists_opening_of_depthBehind beforeLevel
      exact alone outer.length
        ⟨outer, inside, behind ++ after, opening, closing, by simp, opens, closes, balanced, rfl,
          rfl⟩

theorem not_unopened
    {run : List Word}
    {stop : Nat}
    (level : depthBehind 0 run = some stop)
    (position : Nat) :
    ¬Unopened run position := by
  intro unopened
  obtain ⟨⟨closing, stands, -⟩, -⟩ := id unopened
  have inside := (List.getElem?_eq_some_iff.mp stands).1
  rw [← List.append_nil run] at unopened
  exact not_unopened_of_depthBehind level inside [] unopened

/-- An opening bracket in front of a balanced run has no partner. -/
theorem unclosed_of_balanced
    {opening : Word}
    {inside : List Word}
    (opens : opening.is .leftBracket)
    (balanced : Balanced inside)
    (outer : List Word) :
    Unclosed (outer ++ opening :: inside) outer.length := by
  refine ⟨⟨opening, by simp, opens⟩, ?_⟩
  rintro stop
    ⟨front, between, after, other, closing, run_eq, -, closes, betweenBalanced, length_eq, -⟩
  rw [List.append_assoc] at run_eq
  obtain ⟨-, inside_eq⟩ := List.append_inj run_eq length_eq.symm
  rw [List.cons_append, List.cons.injEq] at inside_eq
  rw [inside_eq.2, Balanced, depthBehind_append, betweenBalanced, Option.bind_some,
    depthBehind_closes_zero closes] at balanced
  cases balanced

/-- An opening bracket of a balanced run at the end has a partner. -/
theorem not_unclosed_of_balanced
    {back : List Word}
    {position : Nat}
    (balanced : Balanced back)
    (front : List Word)
    (behind : front.length ≤ position) :
    ¬Unclosed (front ++ back) position := by
  rintro ⟨⟨opening, stands, opens⟩, alone⟩
  rw [List.getElem?_append_right behind] at stands
  obtain ⟨before, after, rfl, length_eq⟩ := Word.exists_append_of_getElem? stands
  obtain ⟨inside, others, closing, closes, rfl, insideBalanced⟩ := balanced.exists_closesAfter opens
  refine alone _ ⟨front ++ before, inside, others, opening, closing, by simp, opens, closes,
    insideBalanced, ?_, rfl⟩
  rw [List.length_append]
  omega

/-! ## The check -/

/-- A closing bracket behind a balanced run is to blame. -/
theorem blamed_closing
    {front : List Word}
    {closing : Word}
    (balanced : Balanced front)
    (closes : closing.is .rightBracket)
    (after : List Word) :
    Blamed (front ++ closing :: after) front.length := by
  refine .inl ⟨unopened_of_balanced balanced closes after, ?_⟩
  intro stop unopened
  by_contra earlier
  exact not_unopened_of_depthBehind balanced (Nat.not_le.mp earlier) _ unopened

/-- The innermost of the brackets left open at the end is to blame. -/
theorem blamed_opening
    {front inside opened : List Word}
    {opening : Word}
    (outer : LeavesOpen front opened)
    (opens : opening.is .leftBracket)
    (balanced : Balanced inside) :
    Blamed (front ++ opening :: inside) front.length := by
  have level := (outer.behind opens balanced).depthBehind_eq
  refine .inr ⟨not_unopened level, unclosed_of_balanced opens balanced front, ?_⟩
  intro start unclosed
  by_contra later
  rw [List.append_cons] at unclosed
  refine not_unclosed_of_balanced balanced (front ++ [opening]) ?_ unclosed
  rw [List.length_append, List.length_singleton]
  omega

/-- Behind brackets left open, the check fails at the bracket to blame. -/
theorem exists_blamed_of_checkBehind
    {front opened rest : List Word}
    {error : SplitError}
    (leaves : LeavesOpen front opened)
    (refuses : checkBehind opened rest = .error error) :
    ∃ position word, Blamed (front ++ rest) position ∧ (front ++ rest)[position]? = some word ∧
      error = .unbalanced word.span := by
  induction rest generalizing front opened with
  | nil =>
      rw [List.append_nil]
      cases leaves with
      | nothing balanced => simp [checkBehind] at refuses
      | @behind front inside opened opening outer opens balanced =>
          obtain rfl := Except.error.inj refuses
          exact ⟨front.length, opening, blamed_opening outer opens balanced, by simp, rfl⟩
  | cons word rest hypothesis =>
      rw [checkBehind_cons] at refuses
      rcases word.bracket_cases with opens | closes | other
      · rw [if_pos opens] at refuses
        rw [List.append_cons]
        exact hypothesis (leaves.append_opening opens) refuses
      · rw [if_neg (by simp [Word.not_opens_of_closes closes]), if_pos closes] at refuses
        cases leaves with
        | nothing balanced =>
            obtain rfl := Except.error.inj refuses
            exact ⟨front.length, word, blamed_closing balanced closes rest, by simp, rfl⟩
        | behind outer opens balanced =>
            rw [List.append_cons]
            exact hypothesis ((outer.behind opens balanced).append_closing closes) refuses
      · obtain ⟨noOpening, noClosing⟩ := Word.isBracket_eq_false_iff.mp other
        rw [if_neg (by simp [noOpening]), if_neg (by simp [noClosing])] at refuses
        rw [List.append_cons]
        exact hypothesis (leaves.append_other other) refuses

theorem not_blamed_of_balanced
    {run : List Word}
    {position : Nat}
    (balanced : Balanced run) :
    ¬Blamed run position := by
  rintro (⟨unopened, -⟩ | ⟨-, unclosed, -⟩)
  · exact not_unopened balanced position unopened
  · exact not_unclosed_of_balanced balanced [] (Nat.zero_le position) unclosed

/-- The check fails at the bracket to blame. -/
theorem check_eq_error_iff
    {run : List Word}
    {error : SplitError} :
    check run = .error error ↔
      ∃ position word, Blamed run position ∧ run[position]? = some word ∧
        error = .unbalanced word.span := by
  have blames {error : SplitError} (refuses : check run = .error error) :=
    exists_blamed_of_checkBehind .nil refuses
  constructor
  · exact blames
  · rintro ⟨position, word, blamed, stands, rfl⟩
    cases checked : check run with
    | ok done => exact absurd blamed (not_blamed_of_balanced (check_eq_ok_iff.mp checked))
    | error error =>
        obtain ⟨other, otherWord, otherBlamed, otherStands, rfl⟩ := blames checked
        obtain rfl := blamed.unique otherBlamed
        rw [List.nil_append, stands, Option.some.injEq] at otherStands
        rw [otherStands]

end Brackets
end DerivedQuery
