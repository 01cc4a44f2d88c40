import DerivedQuery.Span

/-!
# Words

A descriptor is read as a list of words, each carrying the bytes it was cut
from. Contiguous parts of that list are called runs: diagnostics quote the
texts of a run and point at the span from its first to its last word.
-/

namespace DerivedQuery

/-- One word of a descriptor and where it stands. -/
structure Word where
  text : String
  span : Span
  deriving DecidableEq, Repr

namespace Word

/-- The texts of a run, in order. -/
def texts (run : List Word) : List String :=
  run.map Word.text

/-- The span from the first to the last word of a run, if there is one. -/
def runSpan? : List Word -> Option Span
  | [] => none
  | first :: rest => some (first.span.merge ((first :: rest).getLast (by simp)).span)

/-- A run as diagnostics quote it: `[Name Equal]`. -/
def quote (runTexts : List String) : String :=
  "[" ++ " ".intercalate runTexts ++ "]"

@[simp] theorem texts_nil : texts [] = [] := rfl

@[simp] theorem texts_cons (word : Word) (run : List Word) :
    texts (word :: run) = word.text :: texts run := rfl

@[simp] theorem texts_append (left right : List Word) :
    texts (left ++ right) = texts left ++ texts right := by
  simp [texts]

@[simp] theorem runSpan?_nil : runSpan? [] = none := rfl

end Word

end DerivedQuery
