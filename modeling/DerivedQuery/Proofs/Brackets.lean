import DerivedQuery.Query.Brackets

/-!
# Bracket depth

How many brackets are open behind a run, as long as the run closes none that
was not opened. Balance, the closing partner of a bracket, the brackets around
a whole run and the groups inside it are all described by this one number.
-/

namespace DerivedQuery
namespace Word

theorem is_iff
    {word : Word}
    {keyword : Keyword} :
    word.is keyword ↔ word.keyword? = some keyword := by
  simp [is]

/-- Whether a word is one of the two brackets. -/
def isBracket (word : Word) : Bool :=
  word.is .leftBracket || word.is .rightBracket

theorem isBracket_eq_false_iff
    {word : Word} :
    word.isBracket = false ↔
      word.is .leftBracket = false ∧ word.is .rightBracket = false := by
  simp [isBracket]

theorem not_opens_of_closes
    {word : Word}
    (closes : word.is .rightBracket) :
    word.is .leftBracket = false := by
  rw [is_iff] at closes
  simp [is, closes]

theorem not_closes_of_opens
    {word : Word}
    (opens : word.is .leftBracket) :
    word.is .rightBracket = false := by
  rw [is_iff] at opens
  simp [is, opens]

/-- A word opens a bracket, closes one, or is none. -/
theorem bracket_cases (word : Word) :
    word.is .leftBracket ∨ word.is .rightBracket ∨ word.isBracket = false := by
  simp only [isBracket]
  cases word.is .leftBracket <;> cases word.is .rightBracket <;> simp

/-- A word that stands at a position divides its run. -/
theorem exists_append_of_getElem?
    {run : List Word}
    {position : Nat}
    {word : Word}
    (stands : run[position]? = some word) :
    ∃ front after, run = front ++ word :: after ∧ front.length = position := by
  obtain ⟨inside, rfl⟩ := List.getElem?_eq_some_iff.mp stands
  refine ⟨run.take position, run.drop (position + 1), ?_, List.length_take_of_le (Nat.le_of_lt inside)⟩
  rw [← List.drop_eq_getElem_cons inside, List.take_append_drop]

end Word

namespace Brackets

/-- Number of brackets open behind a run that starts with `depth` of them, or
nothing if the run closes a bracket while none is open. -/
def depthBehind (depth : Nat) : List Word -> Option Nat
  | [] => some depth
  | word :: rest =>
      if word.is .leftBracket then
        depthBehind (depth + 1) rest
      else if word.is .rightBracket then
        match depth with
        | 0 => none
        | depth + 1 => depthBehind depth rest
      else
        depthBehind depth rest

/-- Every bracket of the run has its partner in the run. -/
def Balanced (run : List Word) : Prop :=
  depthBehind 0 run = some 0

@[simp] theorem depthBehind_nil (depth : Nat) :
    depthBehind depth [] = some depth := rfl

theorem depthBehind_opens
    {word : Word}
    (opens : word.is .leftBracket)
    (depth : Nat)
    (rest : List Word) :
    depthBehind depth (word :: rest) = depthBehind (depth + 1) rest := by
  simp [depthBehind, opens]

theorem depthBehind_closes_zero
    {word : Word}
    (closes : word.is .rightBracket)
    (rest : List Word) :
    depthBehind 0 (word :: rest) = none := by
  simp [depthBehind, closes, Word.not_opens_of_closes closes]

theorem depthBehind_closes_succ
    {word : Word}
    (closes : word.is .rightBracket)
    (depth : Nat)
    (rest : List Word) :
    depthBehind (depth + 1) (word :: rest) = depthBehind depth rest := by
  simp [depthBehind, closes, Word.not_opens_of_closes closes]

theorem depthBehind_other
    {word : Word}
    (other : word.isBracket = false)
    (depth : Nat)
    (rest : List Word) :
    depthBehind depth (word :: rest) = depthBehind depth rest := by
  obtain ⟨noOpening, noClosing⟩ := Word.isBracket_eq_false_iff.mp other
  simp [depthBehind, noOpening, noClosing]

/-- Induction along a run that closes no bracket while none is open, by what its first
word does. -/
@[elab_as_elim]
theorem depthBehind_induction
    {stop : Nat}
    {motive : (depth : Nat) -> (run : List Word) -> depthBehind depth run = some stop -> Prop}
    (nil : motive stop [] rfl)
    (opening : ∀ {depth : Nat} {word : Word} {rest : List Word}
      (opens : word.is .leftBracket) (level : depthBehind (depth + 1) rest = some stop),
      motive (depth + 1) rest level ->
        motive depth (word :: rest) ((depthBehind_opens opens depth rest).trans level))
    (closing : ∀ {depth : Nat} {word : Word} {rest : List Word}
      (closes : word.is .rightBracket) (level : depthBehind depth rest = some stop),
      motive depth rest level ->
        motive (depth + 1) (word :: rest) ((depthBehind_closes_succ closes depth rest).trans level))
    (plain : ∀ {depth : Nat} {word : Word} {rest : List Word}
      (other : word.isBracket = false) (level : depthBehind depth rest = some stop),
      motive depth rest level ->
        motive depth (word :: rest) ((depthBehind_other other depth rest).trans level))
    {depth : Nat}
    {run : List Word}
    (level : depthBehind depth run = some stop) :
    motive depth run level := by
  induction run generalizing depth with
  | nil =>
      obtain rfl := Option.some.inj level
      exact nil
  | cons word rest hypothesis =>
      rcases word.bracket_cases with opens | closes | other
      · exact opening opens _ (hypothesis ((depthBehind_opens opens depth rest).symm.trans level))
      · cases depth with
        | zero => simp [depthBehind_closes_zero closes] at level
        | succ depth =>
            exact closing closes _
              (hypothesis ((depthBehind_closes_succ closes depth rest).symm.trans level))
      · exact plain other _ (hypothesis ((depthBehind_other other depth rest).symm.trans level))

/-- The depth behind two runs is counted through the first one. -/
theorem depthBehind_append
    (depth : Nat)
    (left right : List Word) :
    depthBehind depth (left ++ right) =
      (depthBehind depth left).bind fun middle => depthBehind middle right := by
  induction left generalizing depth with
  | nil => rfl
  | cons word rest hypothesis =>
      rcases word.bracket_cases with opens | closes | other
      · simp only [List.cons_append, depthBehind_opens opens, hypothesis]
      · cases depth with
        | zero => simp [depthBehind_closes_zero closes]
        | succ depth => simp only [List.cons_append, depthBehind_closes_succ closes, hypothesis]
      · simp only [List.cons_append, depthBehind_other other, hypothesis]

/-- Brackets opened earlier stay open. -/
theorem depthBehind_add
    {depth stop : Nat}
    {run : List Word}
    (open_eq : depthBehind depth run = some stop)
    (earlier : Nat) :
    depthBehind (depth + earlier) run = some (stop + earlier) := by
  induction open_eq using depthBehind_induction with
  | nil => rfl
  | opening opens level hypothesis =>
      rw [depthBehind_opens opens, Nat.add_right_comm]
      exact hypothesis
  | closing closes level hypothesis =>
      rw [Nat.add_right_comm, depthBehind_closes_succ closes]
      exact hypothesis
  | plain other level hypothesis =>
      rw [depthBehind_other other]
      exact hypothesis

/-- A run that closes one bracket too many does so before its last word if one
bracket less is open in front of it. -/
theorem depthBehind_dropLast_eq_none
    {depth : Nat}
    {run : List Word}
    (tooMany : depthBehind (depth + 1) run = none) :
    depthBehind depth run.dropLast = none := by
  induction run generalizing depth with
  | nil => simp at tooMany
  | cons word rest hypothesis =>
      cases rest with
      | nil =>
          rcases word.bracket_cases with opens | closes | other
          · simp [depthBehind_opens opens] at tooMany
          · simp [depthBehind_closes_succ closes] at tooMany
          · simp [depthBehind_other other] at tooMany
      | cons next others =>
          rw [List.dropLast_cons_cons]
          rcases word.bracket_cases with opens | closes | other
          · rw [depthBehind_opens opens] at tooMany ⊢
            exact hypothesis tooMany
          · cases depth with
            | zero => exact depthBehind_closes_zero closes _
            | succ depth =>
                rw [depthBehind_closes_succ closes] at tooMany ⊢
                exact hypothesis tooMany
          · rw [depthBehind_other other] at tooMany ⊢
            exact hypothesis tooMany

theorem depthBehind_of_no_brackets
    {run : List Word}
    (noBrackets : ∀ word ∈ run, word.isBracket = false)
    (depth : Nat) :
    depthBehind depth run = some depth := by
  induction run with
  | nil => rfl
  | cons word rest hypothesis =>
      rw [List.forall_mem_cons] at noBrackets
      rw [depthBehind_other noBrackets.1]
      exact hypothesis noBrackets.2

/-! ## Balanced runs -/

namespace Balanced

theorem of_no_brackets
    {run : List Word}
    (noBrackets : ∀ word ∈ run, word.isBracket = false) :
    Balanced run :=
  depthBehind_of_no_brackets noBrackets 0

/-- A balanced run leaves the depth as it is. -/
theorem depthBehind_eq
    {run : List Word}
    (balanced : Balanced run)
    (depth : Nat) :
    depthBehind depth run = some depth := by
  have shifted := depthBehind_add balanced depth
  rwa [Nat.zero_add] at shifted

theorem append
    {left right : List Word}
    (leftBalanced : Balanced left)
    (rightBalanced : Balanced right) :
    Balanced (left ++ right) := by
  unfold Balanced
  rw [depthBehind_append, leftBalanced]
  exact rightBalanced

theorem cons
    {word : Word}
    {run : List Word}
    (other : word.isBracket = false)
    (balanced : Balanced run) :
    Balanced (word :: run) := by
  unfold Balanced
  rw [depthBehind_other other]
  exact balanced

/-- Brackets around a balanced run are partners. -/
theorem wrap
    {opening closing : Word}
    {run : List Word}
    (opens : opening.is .leftBracket)
    (closes : closing.is .rightBracket)
    (balanced : Balanced run) :
    Balanced (opening :: run ++ [closing]) := by
  unfold Balanced
  rw [List.cons_append, depthBehind_opens opens, depthBehind_append,
    balanced.depthBehind_eq]
  exact depthBehind_closes_succ closes 0 []

end Balanced

theorem checkBehind_cons
    (opened : List Word)
    (word : Word)
    (rest : List Word) :
    checkBehind opened (word :: rest) =
      if word.is .leftBracket then
        checkBehind (word :: opened) rest
      else if word.is .rightBracket then
        match opened with
        | [] => .error (.unbalanced word.span)
        | _ :: outer => checkBehind outer rest
      else
        checkBehind opened rest := by
  cases opened <;> rfl

theorem checkBehind_eq_ok_iff
    {opened run : List Word} :
    checkBehind opened run = .ok () ↔ depthBehind opened.length run = some 0 := by
  induction run generalizing opened with
  | nil => cases opened <;> simp [checkBehind]
  | cons word rest hypothesis =>
      rcases word.bracket_cases with opens | closes | other
      · rw [depthBehind_opens opens]
        simp [checkBehind_cons, opens, hypothesis]
      · have noOpening := Word.not_opens_of_closes closes
        cases opened with
        | nil => simp [checkBehind_cons, noOpening, closes, depthBehind_closes_zero closes]
        | cons innermost outer =>
            rw [List.length_cons, depthBehind_closes_succ closes]
            simp [checkBehind_cons, noOpening, closes, hypothesis]
      · obtain ⟨noOpening, noClosing⟩ := Word.isBracket_eq_false_iff.mp other
        rw [depthBehind_other other]
        simp [checkBehind_cons, noOpening, noClosing, hypothesis]

/-- The check accepts exactly the balanced runs. -/
theorem check_eq_ok_iff
    {run : List Word} :
    check run = .ok () ↔ Balanced run :=
  checkBehind_eq_ok_iff

/-! ## Partners -/

/-- `closing` stands between the two parts of a run and finds none of the
`depth` brackets open that were opened before it. -/
def ClosesAfter
    (depth : Nat)
    (run inside after : List Word) : Prop :=
  ∃ closing : Word, closing.is .rightBracket ∧ run = inside ++ closing :: after ∧
    depthBehind depth inside = some 0

/-- Unless the first word of a run is the partner itself, it belongs to the
inside. -/
theorem closesAfter_cons_iff
    {depth further : Nat}
    {word : Word}
    {rest inside after : List Word}
    (counted : ∀ part, depthBehind depth (word :: part) = depthBehind further part)
    (notPartner : depth = 0 -> word.is .rightBracket = false) :
    ClosesAfter depth (word :: rest) inside after ↔
      ∃ part, inside = word :: part ∧ ClosesAfter further rest part after := by
  constructor
  · rintro ⟨closing, closes, run_eq, level⟩
    cases inside with
    | nil =>
        obtain ⟨rfl, rfl⟩ := List.cons.inj run_eq
        simp only [depthBehind_nil, Option.some.injEq] at level
        simp [notPartner level] at closes
    | cons first part =>
        obtain ⟨rfl, rfl⟩ := List.cons.inj run_eq
        rw [counted] at level
        exact ⟨part, rfl, closing, closes, rfl, level⟩
  · rintro ⟨part, rfl, closing, closes, rfl, level⟩
    exact ⟨closing, closes, rfl, by rw [counted, level]⟩

theorem map_cons_eq_some_iff
    {word : Word}
    {parts? : Option (List Word × List Word)}
    {inside after : List Word} :
    (parts?.map fun (part, others) => (word :: part, others)) = some (inside, after) ↔
      ∃ part, inside = word :: part ∧ parts? = some (part, after) := by
  cases parts? with
  | none => simp
  | some parts => grind

/-- A run is divided at the first bracket that finds nothing open inside. -/
theorem splitClosing_eq_some_iff
    {depth : Nat}
    {run inside after : List Word} :
    splitClosing depth run = some (inside, after) ↔ ClosesAfter depth run inside after := by
  induction run generalizing depth inside with
  | nil => simp [splitClosing, ClosesAfter]
  | cons word rest hypothesis =>
      unfold splitClosing
      rcases word.bracket_cases with opens | closes | other
      · rw [if_pos opens, map_cons_eq_some_iff,
          closesAfter_cons_iff (depthBehind_opens opens depth)
            (fun _ => Word.not_closes_of_opens opens)]
        simp only [hypothesis]
      · rw [if_neg (by simp [Word.not_opens_of_closes closes]), if_pos closes]
        cases depth with
        | zero =>
            simp only [Option.some.injEq, Prod.mk.injEq]
            constructor
            · rintro ⟨rfl, rfl⟩
              exact ⟨word, closes, rfl, rfl⟩
            · rintro ⟨closing, -, run_eq, level⟩
              cases inside with
              | nil => exact ⟨rfl, (List.cons.inj run_eq).2⟩
              | cons first part =>
                  obtain ⟨rfl, -⟩ := List.cons.inj run_eq
                  simp [depthBehind_closes_zero closes] at level
        | succ depth =>
            simp only
            rw [map_cons_eq_some_iff,
              closesAfter_cons_iff (depthBehind_closes_succ closes depth) (by simp)]
            simp only [hypothesis]
      · obtain ⟨noOpening, noClosing⟩ := Word.isBracket_eq_false_iff.mp other
        rw [if_neg (by simp [noOpening]), if_neg (by simp [noClosing]), map_cons_eq_some_iff,
          closesAfter_cons_iff (depthBehind_other other depth) (fun _ => noClosing)]
        simp only [hypothesis]

theorem ClosesAfter.append
    {depth : Nat}
    {run inside after : List Word}
    (partner : ClosesAfter depth run inside after)
    (more : List Word) :
    ClosesAfter depth (run ++ more) inside (after ++ more) := by
  obtain ⟨closing, closes, rfl, level⟩ := partner
  exact ⟨closing, closes, by simp, level⟩

/-- A bracket has one partner only. -/
theorem ClosesAfter.unique
    {depth : Nat}
    {run inside after otherInside otherAfter : List Word}
    (partner : ClosesAfter depth run inside after)
    (other : ClosesAfter depth run otherInside otherAfter) :
    inside = otherInside ∧ after = otherAfter := by
  rw [← splitClosing_eq_some_iff] at partner other
  rw [partner] at other
  simpa using other

/-- A run that closes more brackets than it opens closes one opened before it. -/
theorem exists_closesAfter
    {depth earlier : Nat}
    {run : List Word}
    (level : depthBehind (depth + earlier + 1) run = some 0) :
    ∃ inside after, ClosesAfter depth run inside after := by
  induction run generalizing depth with
  | nil => simp at level
  | cons word rest hypothesis =>
      rcases word.bracket_cases with opens | closes | other
      · rw [depthBehind_opens opens, Nat.add_right_comm, Nat.add_right_comm depth] at level
        obtain ⟨inside, after, partner⟩ := hypothesis level
        exact ⟨word :: inside, after, (closesAfter_cons_iff (depthBehind_opens opens depth)
          fun _ => Word.not_closes_of_opens opens).mpr ⟨inside, rfl, partner⟩⟩
      · cases depth with
        | zero => exact ⟨[], rest, word, closes, rfl, rfl⟩
        | succ depth =>
            rw [depthBehind_closes_succ closes, Nat.add_right_comm depth] at level
            obtain ⟨inside, after, partner⟩ := hypothesis level
            exact ⟨word :: inside, after, (closesAfter_cons_iff
              (depthBehind_closes_succ closes depth) (by simp)).mpr ⟨inside, rfl, partner⟩⟩
      · rw [depthBehind_other other] at level
        obtain ⟨inside, after, partner⟩ := hypothesis level
        exact ⟨word :: inside, after, (closesAfter_cons_iff (depthBehind_other other depth)
          fun _ => (Word.isBracket_eq_false_iff.mp other).2).mpr ⟨inside, rfl, partner⟩⟩

/-- A bracket of a balanced run is closed inside that run. -/
theorem Balanced.exists_closesAfter
    {front back : List Word}
    {opening : Word}
    (balanced : Balanced (front ++ opening :: back))
    (opens : opening.is .leftBracket) :
    ∃ inside after, ClosesAfter 0 back inside after := by
  unfold Balanced at balanced
  rw [depthBehind_append] at balanced
  obtain ⟨earlier, -, level⟩ := Option.bind_eq_some_iff.mp balanced
  have behind : depthBehind (0 + earlier + 1) back = some 0 := by
    rw [Nat.zero_add, ← depthBehind_opens opens]
    exact level
  exact Brackets.exists_closesAfter behind

/-- The brackets around a whole run are partners with a balanced inside. -/
theorem inside?_eq_some_iff
    {run inside : List Word} :
    inside? run = some inside ↔
      ∃ opening closing, opening.is .leftBracket ∧ closing.is .rightBracket ∧
        run = opening :: inside ++ [closing] ∧ Balanced inside := by
  cases run with
  | nil => simp [inside?]
  | cons first rest =>
      by_cases opens : first.is .leftBracket
      · have partner : inside? (first :: rest) = some inside ↔
            splitClosing 0 rest = some (inside, []) := by
          simp only [inside?, if_pos opens]
          split <;> grind
        rw [partner, splitClosing_eq_some_iff]
        constructor
        · rintro ⟨closing, closes, rfl, balanced⟩
          exact ⟨first, closing, opens, closes, rfl, balanced⟩
        · rintro ⟨_, closing, -, closes, run_eq, balanced⟩
          exact ⟨closing, closes, (List.cons.inj run_eq).2, balanced⟩
      · simp only [inside?, if_neg opens]
        constructor
        · simp
        · rintro ⟨opening, closing, opening_is, -, run_eq, -⟩
          obtain ⟨rfl, -⟩ := List.cons.inj run_eq
          exact absurd opening_is opens

theorem unwrap_of_inside?
    {run inside : List Word}
    (wrapped : inside? run = some inside) :
    unwrap run = unwrap inside := by
  rw [unwrap]
  split
  · rename_i found
    rw [wrapped] at found
    rw [Option.some.inj found]
  · rename_i found
    rw [wrapped] at found
    cases found

/-- Brackets around a balanced run are taken off. -/
theorem unwrap_wrap
    {opening closing : Word}
    {run : List Word}
    (opens : opening.is .leftBracket)
    (closes : closing.is .rightBracket)
    (balanced : Balanced run) :
    unwrap (opening :: run ++ [closing]) = unwrap run :=
  unwrap_of_inside? (inside?_eq_some_iff.mpr ⟨opening, closing, opens, closes, rfl, balanced⟩)

theorem unwrap_eq_self
    {run : List Word}
    (notWrapped : inside? run = none) :
    unwrap run = run := by
  rw [unwrap]
  split
  · rename_i inside found
    rw [notWrapped] at found
    cases found
  · rfl

/-- A run is not wrapped if a word outside all brackets stands inside it. -/
theorem inside?_append_cons_eq_none
    {front : List Word}
    {word : Word}
    (balanced : Balanced front)
    (other : word.isBracket = false)
    (back : List Word) :
    inside? (front ++ word :: back) = none := by
  rw [Option.eq_none_iff_forall_ne_some]
  intro inside wrapped
  obtain ⟨opening, closing, opens, closes, run_eq, insideBalanced⟩ :=
    inside?_eq_some_iff.mp wrapped
  cases front with
  | nil =>
      obtain ⟨rfl, -⟩ := List.cons.inj run_eq
      simp [(Word.isBracket_eq_false_iff.mp other).1] at opens
  | cons first rest =>
      obtain ⟨rfl, rest_eq⟩ := List.cons.inj run_eq
      -- The first bracket is closed in `rest`, but the inside never gets below its own depth.
      have closed : depthBehind 1 rest = some 0 := by
        rw [← balanced, depthBehind_opens opens]
      rcases List.append_eq_append_iff.mp rest_eq with
        ⟨middle, inside_eq, -⟩ | ⟨middle, rest_eq, back_eq⟩
      · rw [inside_eq] at insideBalanced
        unfold Balanced at insideBalanced
        rw [depthBehind_append] at insideBalanced
        cases level : depthBehind 0 rest with
        | none => simp [level] at insideBalanced
        | some stop =>
            have deeper := depthBehind_add level 1
            rw [Nat.zero_add, closed] at deeper
            simp at deeper
      · cases middle with
        | nil =>
            rw [List.append_nil] at rest_eq
            rw [rest_eq, insideBalanced.depthBehind_eq] at closed
            simp at closed
        | cons last others =>
            have length_eq := congrArg List.length back_eq
            simp at length_eq

/-! ## Groups -/

/-- A bracket group stands in a run, between the words in front of it and the
words behind it. -/
def GroupIn (run front after : List Word) : Prop :=
  ∃ (opening : Word) (behind inside : List Word), opening.is .leftBracket ∧
    run = front ++ opening :: behind ∧ ClosesAfter 0 behind inside after

theorem not_groupIn_of_no_brackets
    {run front after : List Word}
    (noBrackets : ∀ word ∈ run, word.isBracket = false) :
    ¬ GroupIn run front after := by
  rintro ⟨opening, behind, inside, opens, rfl, -⟩
  have other := noBrackets opening (by simp)
  simp [(Word.isBracket_eq_false_iff.mp other).1] at opens

/-- A group stands on one side of a word outside all brackets. -/
theorem GroupIn.of_append_cons
    {left right front after : List Word}
    {word : Word}
    (balanced : Balanced left)
    (other : word.isBracket = false)
    (group : GroupIn (left ++ word :: right) front after) :
    (∃ behind, after = behind ++ word :: right ∧ GroupIn left front behind) ∨
      (∃ between, front = left ++ word :: between ∧ GroupIn right between after) := by
  obtain ⟨opening, behind, inside, opens, run_eq, partner⟩ := group
  rcases List.append_eq_append_iff.mp run_eq with
    ⟨middle, front_eq, right_eq⟩ | ⟨middle, left_eq, behind_eq⟩
  · cases middle with
    | nil =>
        obtain ⟨rfl, -⟩ := List.cons.inj right_eq
        simp [(Word.isBracket_eq_false_iff.mp other).1] at opens
    | cons first between =>
        obtain ⟨rfl, rfl⟩ := List.cons.inj right_eq
        exact .inr ⟨between, front_eq, opening, behind, inside, opens, rfl, partner⟩
  · cases middle with
    | nil =>
        obtain ⟨rfl, -⟩ := List.cons.inj behind_eq
        simp [(Word.isBracket_eq_false_iff.mp other).1] at opens
    | cons first part =>
        obtain ⟨rfl, rfl⟩ := List.cons.inj behind_eq
        rw [left_eq] at balanced
        obtain ⟨partInside, partAfter, partPartner⟩ := balanced.exists_closesAfter opens
        obtain ⟨rfl, rfl⟩ := partner.unique (partPartner.append (word :: right))
        exact .inl ⟨partAfter, rfl, opening, part, inside, opens, left_eq, partPartner⟩

/-- A group of a run in brackets is the whole or stands inside. -/
theorem GroupIn.of_wrap
    {run front after : List Word}
    {opening closing : Word}
    (balanced : Balanced run)
    (closes : closing.is .rightBracket)
    (group : GroupIn (opening :: run ++ [closing]) front after) :
    (front = [] ∧ after = []) ∨
      (∃ innerFront innerAfter, front = opening :: innerFront ∧
        after = innerAfter ++ [closing] ∧ GroupIn run innerFront innerAfter) := by
  obtain ⟨first, behind, inside, opens, run_eq, partner⟩ := group
  cases front with
  | nil =>
      obtain ⟨rfl, rfl⟩ := List.cons.inj run_eq
      have whole : ClosesAfter 0 (run ++ [closing]) run [] := ⟨closing, closes, rfl, balanced⟩
      exact .inl ⟨rfl, (partner.unique whole).2⟩
  | cons head innerFront =>
      obtain ⟨rfl, inner_eq⟩ := List.cons.inj run_eq
      rcases List.append_eq_append_iff.mp inner_eq with
        ⟨middle, -, last_eq⟩ | ⟨middle, inside_eq, behind_eq⟩
      · -- The last word closes a bracket, so no group starts with it.
        have noOpening := Word.not_opens_of_closes closes
        cases middle with
        | nil =>
            obtain ⟨rfl, -⟩ := List.cons.inj last_eq
            simp [noOpening] at opens
        | cons next others => simp at last_eq
      · cases middle with
        | nil =>
            obtain ⟨rfl, -⟩ := List.cons.inj behind_eq
            simp [Word.not_opens_of_closes closes] at opens
        | cons next part =>
            obtain ⟨rfl, rfl⟩ := List.cons.inj behind_eq
            rw [inside_eq] at balanced
            obtain ⟨partInside, partAfter, partPartner⟩ := balanced.exists_closesAfter opens
            obtain ⟨rfl, rfl⟩ := partner.unique (partPartner.append [closing])
            exact .inr ⟨innerFront, partAfter, rfl, rfl, first, part, inside, opens, inside_eq,
              partPartner⟩

end Brackets
end DerivedQuery
