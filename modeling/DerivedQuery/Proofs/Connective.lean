import DerivedQuery.Proofs.Brackets
import DerivedQuery.Query.Split

/-!
# Where a run is divided

The search for a connective is described by bracket depth: it ends at the
first connective with few enough brackets open, and it goes through a run
exactly when every connective of the run stands deeper and no bracket is
closed that was not opened.
-/

namespace DerivedQuery
namespace Word

/-- The connective a word stands for. -/
def connective? (word : Word) : Option Connective :=
  word.keyword?.bind Keyword.connective?

/-- A word that is neither a connective nor a bracket. -/
def Plain (word : Word) : Prop :=
  word.isBracket = false ∧ word.connective? = none

theorem not_bracket_of_connective
    {word : Word}
    {connective : Connective}
    (stands : word.connective? = some connective) :
    word.isBracket = false := by
  rw [isBracket_eq_false_iff]
  unfold connective? at stands
  constructor
  · by_cases opens : word.is .leftBracket
    · rw [is_iff.mp opens] at stands
      simp [Keyword.connective?] at stands
    · simpa using opens
  · by_cases closes : word.is .rightBracket
    · rw [is_iff.mp closes] at stands
      simp [Keyword.connective?] at stands
    · simpa using closes

end Word

namespace Split

open Brackets

/-- The search goes through the whole run: none of its connectives has at most
`limit` brackets open. -/
def Undivided
    (limit depth : Nat)
    (run : List Word) : Prop :=
  findConnective limit depth run = .ok none

/-! ## One word at a time -/

theorem behind_eq_none_iff
    {word : Word}
    {result : Except SplitError (Option Found)} :
    behind word result = .ok none ↔ result = .ok none := by
  rcases result with error | found?
  · simp [behind, Except.map]
  · simp [behind, Except.map]

theorem behind_eq_some_iff
    {word : Word}
    {result : Except SplitError (Option Found)}
    {found : Found} :
    behind word result = .ok (some found) ↔
      ∃ inner, result = .ok (some inner) ∧
        found = { inner with before := word :: inner.before } := by
  rcases result with error | found?
  · simp [behind, Except.map]
  · simp only [behind, Except.map, Except.ok.injEq, Option.map_eq_some_iff]
    constructor
    · rintro ⟨inner, rfl, rfl⟩
      exact ⟨inner, rfl, rfl⟩
    · rintro ⟨inner, rfl, rfl⟩
      exact ⟨inner, rfl, rfl⟩

theorem findConnective_opens
    {word : Word}
    (opens : word.is .leftBracket)
    (limit depth : Nat)
    (rest : List Word) :
    findConnective limit depth (word :: rest) =
      behind word (findConnective limit (depth + 1) rest) := by
  simp [findConnective, Word.is_iff.mp opens]

theorem findConnective_closes_zero
    {word : Word}
    (closes : word.is .rightBracket)
    (limit : Nat)
    (rest : List Word) :
    findConnective limit 0 (word :: rest) = .error (.unbalanced word.span) := by
  simp [findConnective, Word.is_iff.mp closes]

theorem findConnective_closes_succ
    {word : Word}
    (closes : word.is .rightBracket)
    (limit depth : Nat)
    (rest : List Word) :
    findConnective limit (depth + 1) (word :: rest) =
      behind word (findConnective limit depth rest) := by
  simp [findConnective, Word.is_iff.mp closes]

theorem findConnective_other
    {word : Word}
    (other : word.isBracket = false)
    (limit depth : Nat)
    (rest : List Word) :
    findConnective limit depth (word :: rest) =
      match word.connective? with
      | some connective =>
          if depth ≤ limit then
            .ok (some ⟨[], connective, word.span, rest, depth⟩)
          else
            behind word (findConnective limit depth rest)
      | none => behind word (findConnective limit depth rest) := by
  obtain ⟨noOpening, noClosing⟩ := Word.isBracket_eq_false_iff.mp other
  conv =>
    lhs
    unfold findConnective
  split
  · rename_i keyword_eq
    simp [Word.is, keyword_eq] at noOpening
  · rename_i keyword_eq
    simp [Word.is, keyword_eq] at noClosing
  · rfl

theorem findConnective_connective
    {word : Word}
    {connective : Connective}
    (stands : word.connective? = some connective)
    {limit depth : Nat}
    (shallow : depth ≤ limit)
    (rest : List Word) :
    findConnective limit depth (word :: rest) =
      .ok (some ⟨[], connective, word.span, rest, depth⟩) := by
  rw [findConnective_other (Word.not_bracket_of_connective stands), stands]
  simp [shallow]

theorem findConnective_passed
    {word : Word}
    (other : word.isBracket = false)
    {limit depth : Nat}
    (passed : word.connective?.isSome -> limit < depth)
    (rest : List Word) :
    findConnective limit depth (word :: rest) =
      behind word (findConnective limit depth rest) := by
  rw [findConnective_other other]
  cases stands : word.connective? with
  | none => rfl
  | some connective =>
      have deep : ¬ depth ≤ limit := Nat.not_le.mpr (passed (by simp [stands]))
      simp [deep]

@[simp] theorem undivided_nil (limit depth : Nat) :
    Undivided limit depth [] := rfl

theorem undivided_opens_iff
    {word : Word}
    (opens : word.is .leftBracket)
    {limit depth : Nat}
    {rest : List Word} :
    Undivided limit depth (word :: rest) ↔ Undivided limit (depth + 1) rest := by
  unfold Undivided
  rw [findConnective_opens opens, behind_eq_none_iff]

theorem not_undivided_closes_zero
    {word : Word}
    (closes : word.is .rightBracket)
    {limit : Nat}
    {rest : List Word} :
    ¬ Undivided limit 0 (word :: rest) := by
  unfold Undivided
  rw [findConnective_closes_zero closes]
  simp

theorem undivided_closes_succ_iff
    {word : Word}
    (closes : word.is .rightBracket)
    {limit depth : Nat}
    {rest : List Word} :
    Undivided limit (depth + 1) (word :: rest) ↔ Undivided limit depth rest := by
  unfold Undivided
  rw [findConnective_closes_succ closes, behind_eq_none_iff]

theorem undivided_other_iff
    {word : Word}
    (other : word.isBracket = false)
    {limit depth : Nat}
    {rest : List Word} :
    Undivided limit depth (word :: rest) ↔
      (word.connective?.isSome -> limit < depth) ∧ Undivided limit depth rest := by
  unfold Undivided
  by_cases passed : word.connective?.isSome -> limit < depth
  · rw [findConnective_passed other passed, behind_eq_none_iff]
    exact ⟨fun undivided => ⟨passed, undivided⟩, fun both => both.2⟩
  · obtain ⟨stands, shallow⟩ := Classical.not_imp.mp passed
    obtain ⟨connective, stands⟩ := Option.isSome_iff_exists.mp stands
    rw [findConnective_connective stands (Nat.not_lt.mp shallow)]
    simp [passed]

/-! ## Whole runs -/

/-- A run the search goes through closes no bracket that was not opened. -/
theorem Undivided.exists_depthBehind
    {limit depth : Nat}
    {run : List Word}
    (undivided : Undivided limit depth run) :
    ∃ stop, depthBehind depth run = some stop := by
  induction run generalizing depth with
  | nil => exact ⟨depth, rfl⟩
  | cons word rest hypothesis =>
      rcases word.bracket_cases with opens | closes | other
      · rw [depthBehind_opens opens]
        exact hypothesis ((undivided_opens_iff opens).mp undivided)
      · cases depth with
        | zero => exact absurd undivided (not_undivided_closes_zero closes)
        | succ depth =>
            rw [depthBehind_closes_succ closes]
            exact hypothesis ((undivided_closes_succ_iff closes).mp undivided)
      · rw [depthBehind_other other]
        exact hypothesis ((undivided_other_iff other).mp undivided).2

/-- A found connective in its place: the search went through everything in
front of it. -/
def FoundIn
    (limit depth : Nat)
    (run : List Word)
    (found : Found) : Prop :=
  ∃ word : Word,
    run = found.before ++ word :: found.after ∧
      word.connective? = some found.connective ∧
      word.span = found.span ∧
      depthBehind depth found.before = some found.depth ∧
      found.depth ≤ limit ∧
      Undivided limit depth found.before

theorem FoundIn.behind
    {limit depth further : Nat}
    {word : Word}
    {rest : List Word}
    {inner : Found}
    (counted : ∀ part, depthBehind depth (word :: part) = depthBehind further part)
    (passed : ∀ part, Undivided limit depth (word :: part) ↔ Undivided limit further part)
    (foundIn : FoundIn limit further rest inner) :
    FoundIn limit depth (word :: rest) { inner with before := word :: inner.before } := by
  obtain ⟨place, rfl, stands, span_eq, level, shallow, undivided⟩ := foundIn
  refine ⟨place, rfl, stands, span_eq, ?_, shallow, (passed _).mpr undivided⟩
  rw [counted]
  exact level

/-- The search ends at the first connective that is shallow enough. -/
theorem foundIn_of_findConnective
    {limit depth : Nat}
    {run : List Word}
    {found : Found}
    (search : findConnective limit depth run = .ok (some found)) :
    FoundIn limit depth run found := by
  induction run generalizing depth found with
  | nil => simp [findConnective] at search
  | cons word rest hypothesis =>
      rcases word.bracket_cases with opens | closes | other
      · rw [findConnective_opens opens, behind_eq_some_iff] at search
        obtain ⟨inner, innerSearch, rfl⟩ := search
        exact (hypothesis innerSearch).behind (depthBehind_opens opens depth)
          (fun _ => undivided_opens_iff opens)
      · cases depth with
        | zero => simp [findConnective_closes_zero closes] at search
        | succ depth =>
            rw [findConnective_closes_succ closes, behind_eq_some_iff] at search
            obtain ⟨inner, innerSearch, rfl⟩ := search
            exact (hypothesis innerSearch).behind (depthBehind_closes_succ closes depth)
              (fun _ => undivided_closes_succ_iff closes)
      · by_cases passed : word.connective?.isSome -> limit < depth
        · rw [findConnective_passed other passed, behind_eq_some_iff] at search
          obtain ⟨inner, innerSearch, rfl⟩ := search
          refine (hypothesis innerSearch).behind (depthBehind_other other depth) fun part => ?_
          rw [undivided_other_iff other]
          exact ⟨fun both => both.2, fun undivided => ⟨passed, undivided⟩⟩
        · obtain ⟨stands, shallow⟩ := Classical.not_imp.mp passed
          obtain ⟨connective, stands⟩ := Option.isSome_iff_exists.mp stands
          rw [findConnective_connective stands (Nat.not_lt.mp shallow)] at search
          simp only [Except.ok.injEq, Option.some.injEq] at search
          subst search
          exact ⟨word, rfl, stands, rfl, rfl, Nat.not_lt.mp shallow, rfl⟩

/-- Behind a run the search goes through, it goes on with the brackets the run
leaves open. -/
theorem findConnective_append_connective
    {limit depth stop : Nat}
    {front : List Word}
    {word : Word}
    {connective : Connective}
    (undivided : Undivided limit depth front)
    (level : depthBehind depth front = some stop)
    (stands : word.connective? = some connective)
    (shallow : stop ≤ limit)
    (back : List Word) :
    findConnective limit depth (front ++ word :: back) =
      .ok (some ⟨front, connective, word.span, back, stop⟩) := by
  induction level using depthBehind_induction with
  | nil => exact findConnective_connective stands shallow back
  | opening opens level hypothesis =>
      rw [List.cons_append, findConnective_opens opens,
        hypothesis ((undivided_opens_iff opens).mp undivided)]
      rfl
  | closing closes level hypothesis =>
      rw [List.cons_append, findConnective_closes_succ closes,
        hypothesis ((undivided_closes_succ_iff closes).mp undivided)]
      rfl
  | plain other level hypothesis =>
      obtain ⟨passed, undividedRest⟩ := (undivided_other_iff other).mp undivided
      rw [List.cons_append, findConnective_passed other passed, hypothesis undividedRest]
      rfl

theorem undivided_append_iff
    {limit depth stop : Nat}
    {front back : List Word}
    (level : depthBehind depth front = some stop) :
    Undivided limit depth (front ++ back) ↔
      Undivided limit depth front ∧ Undivided limit stop back := by
  induction level using depthBehind_induction with
  | nil => simp
  | opening opens level hypothesis =>
      rw [List.cons_append, undivided_opens_iff opens, undivided_opens_iff opens, hypothesis]
  | closing closes level hypothesis =>
      rw [List.cons_append, undivided_closes_succ_iff closes, undivided_closes_succ_iff closes,
        hypothesis]
  | plain other level hypothesis =>
      rw [List.cons_append, undivided_other_iff other, undivided_other_iff other, hypothesis,
        and_assoc]

/-- With one bracket more around it, a run is searched as with one more allowed
to be open. -/
theorem undivided_succ_iff
    {limit depth stop : Nat}
    {run : List Word}
    (level : depthBehind depth run = some stop) :
    Undivided (limit + 1) (depth + 1) run ↔ Undivided limit depth run := by
  induction level using depthBehind_induction with
  | nil => simp
  | opening opens level hypothesis =>
      rw [undivided_opens_iff opens, undivided_opens_iff opens, hypothesis]
  | closing closes level hypothesis =>
      rw [undivided_closes_succ_iff closes, undivided_closes_succ_iff closes, hypothesis]
  | plain other level hypothesis =>
      rw [undivided_other_iff other, undivided_other_iff other, hypothesis,
        Nat.add_lt_add_iff_right]

/-- Nothing is divided inside brackets that stay open. -/
theorem undivided_of_deep
    {limit depth stop : Nat}
    {run : List Word}
    (level : depthBehind depth run = some stop) :
    Undivided limit (depth + (limit + 1)) run := by
  induction level using depthBehind_induction with
  | nil => simp
  | opening opens level hypothesis =>
      rw [undivided_opens_iff opens, Nat.add_right_comm]
      exact hypothesis
  | closing closes level hypothesis =>
      rw [Nat.add_right_comm, undivided_closes_succ_iff closes]
      exact hypothesis
  | plain other level hypothesis =>
      rw [undivided_other_iff other]
      exact ⟨fun _ => by omega, hypothesis⟩

/-- Outside brackets a run is undivided exactly when it has no connective. -/
theorem undivided_iff_of_no_brackets
    {limit depth : Nat}
    {run : List Word}
    (noBrackets : ∀ word ∈ run, word.isBracket = false)
    (shallow : depth ≤ limit) :
    Undivided limit depth run ↔ ∀ word ∈ run, word.connective? = none := by
  induction run with
  | nil => simp
  | cons word rest hypothesis =>
      rw [List.forall_mem_cons] at noBrackets
      rw [undivided_other_iff noBrackets.1, hypothesis noBrackets.2, List.forall_mem_cons]
      have notDeep : ¬ limit < depth := Nat.not_lt.mpr shallow
      simp [notDeep]

theorem undivided_of_plain
    {run : List Word}
    (plain : ∀ word ∈ run, word.Plain)
    (limit : Nat) :
    Undivided limit 0 run :=
  (undivided_iff_of_no_brackets (fun word member => (plain word member).1)
    (Nat.zero_le limit)).mpr fun word member => (plain word member).2

end Split
end DerivedQuery
