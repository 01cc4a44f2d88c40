import DerivedQuery.Keyword

/-!
# Brackets

`Lb` and `Rb` bracket parts of a run. A run can be checked for balance, it can
be divided at the bracket that closes one opened before it, and brackets that
enclose a whole run can be removed.
-/

namespace DerivedQuery

/-- Why a run cannot be divided at a connective. -/
inductive SplitError
  /-- A bracket without a partner. -/
  | unbalanced (span : Span)
  /-- A connective with nothing behind it. -/
  | dangling (span : Span)
  deriving DecidableEq, Repr

namespace Brackets

/-- Check a run behind brackets that are still open, the innermost first. The
error names the first closing bracket without a partner, or else the innermost
bracket that is open at the end. -/
def checkBehind : List Word -> List Word -> Except SplitError Unit
  | [], [] => .ok ()
  | unclosed :: _, [] => .error (.unbalanced unclosed.span)
  | opened, word :: rest =>
      if word.is .leftBracket then
        checkBehind (word :: opened) rest
      else if word.is .rightBracket then
        match opened with
        | [] => .error (.unbalanced word.span)
        | _ :: outer => checkBehind outer rest
      else
        checkBehind opened rest

/-- Check that every bracket of a run has a partner. -/
def check (run : List Word) : Except SplitError Unit :=
  checkBehind [] run

/-- Divide a run at the bracket that closes one opened before it, where
`depth` further brackets are open. -/
def splitClosing (depth : Nat) : List Word -> Option (List Word × List Word)
  | [] => none
  | word :: rest =>
      if word.is .leftBracket then
        (splitClosing (depth + 1) rest).map fun (inside, after) => (word :: inside, after)
      else if word.is .rightBracket then
        match depth with
        | 0 => some ([], rest)
        | depth + 1 =>
            (splitClosing depth rest).map fun (inside, after) => (word :: inside, after)
      else
        (splitClosing depth rest).map fun (inside, after) => (word :: inside, after)

/-- Both parts of a division are, with the bracket between them, as long as
the run. -/
theorem length_of_splitClosing
    {depth : Nat}
    {run inside after : List Word}
    (divided : splitClosing depth run = some (inside, after)) :
    inside.length + after.length + 1 = run.length := by
  induction run generalizing depth inside after with
  | nil => simp [splitClosing] at divided
  | cons word rest hypothesis =>
      unfold splitClosing at divided
      split at divided
      · simp only [Option.map_eq_some_iff, Prod.mk.injEq, Prod.exists] at divided
        obtain ⟨part, others, found, rfl, rfl⟩ := divided
        have shorter := hypothesis found
        simp only [List.length_cons]
        omega
      · split at divided
        · split at divided
          · simp at divided
            simp [divided]
          · simp only [Option.map_eq_some_iff, Prod.mk.injEq, Prod.exists] at divided
            obtain ⟨part, others, found, rfl, rfl⟩ := divided
            have shorter := hypothesis found
            simp only [List.length_cons]
            omega
        · simp only [Option.map_eq_some_iff, Prod.mk.injEq, Prod.exists] at divided
          obtain ⟨part, others, found, rfl, rfl⟩ := divided
          have shorter := hypothesis found
          simp only [List.length_cons]
          omega

/-- The inside of a run whose first word opens a bracket that its last word
closes. -/
def inside? : List Word -> Option (List Word)
  | [] => none
  | first :: rest =>
      if first.is .leftBracket then
        match splitClosing 0 rest with
        | some (inside, []) => some inside
        | _ => none
      else
        none

theorem length_lt_of_inside?
    {run inside : List Word}
    (wrapped : inside? run = some inside) :
    inside.length < run.length := by
  cases run with
  | nil => simp [inside?] at wrapped
  | cons first rest =>
      simp only [inside?] at wrapped
      split at wrapped
      · split at wrapped
        · rename_i found
          have total := length_of_splitClosing found
          simp only [Option.some.injEq] at wrapped
          subst wrapped
          simp only [List.length_nil, List.length_cons] at total ⊢
          omega
        · simp at wrapped
      · simp at wrapped

/-- A run without the brackets that enclose the whole of it. -/
def unwrap (run : List Word) : List Word :=
  match _wrapped : inside? run with
  | some inside => unwrap inside
  | none => run
termination_by run.length
decreasing_by exact length_lt_of_inside? _wrapped

theorem length_unwrap_le (run : List Word) : (unwrap run).length ≤ run.length := by
  fun_induction unwrap run with
  | case1 run inside wrapped hypothesis =>
      have shorter := length_lt_of_inside? wrapped
      omega
  | case2 run notWrapped => exact Nat.le_refl _

end Brackets

end DerivedQuery
