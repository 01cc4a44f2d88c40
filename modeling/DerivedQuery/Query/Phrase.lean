import DerivedQuery.Query
import DerivedQuery.Word

/-!
# Comparator phrases

A condition ends with the words of its comparator. Longer phrases win over
shorter ones that end the same way, and `Than Equal` alone is no phrase.
-/

namespace DerivedQuery
namespace Comparator

/-- The comparator whose phrase ends a list of words, given from the last word
to the first, and the length of the phrase. -/
def phraseFromEnd? : List String -> Option (Comparator × Nat)
  | "Equal" :: "Than" :: "Less" :: _ => some (.lessThanEqual, 3)
  | "Equal" :: "Than" :: "Greater" :: _ => some (.greaterThanEqual, 3)
  | "Equal" :: "Than" :: _ => none
  | "Equal" :: "Not" :: _ => some (.notEqual, 2)
  | "Equal" :: _ => some (.equal, 1)
  | "Than" :: "Less" :: _ => some (.lessThan, 2)
  | "Than" :: "Greater" :: _ => some (.greaterThan, 2)
  | "Between" :: "Not" :: _ => some (.notBetween, 2)
  | "Between" :: _ => some (.between, 1)
  | "In" :: "Not" :: _ => some (.notWithin, 2)
  | "In" :: _ => some (.within, 1)
  | "True" :: _ => some (.isTrue, 1)
  | "False" :: _ => some (.isFalse, 1)
  | "Exists" :: "Not" :: _ => some (.absent, 2)
  | "Exists" :: _ => some (.present, 1)
  | _ => none

/-- The comparator whose phrase ends a run, and the length of the phrase. -/
def phrase? (run : List Word) : Option (Comparator × Nat) :=
  phraseFromEnd? (Word.texts run).reverse

end Comparator
end DerivedQuery
