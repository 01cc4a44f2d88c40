import DerivedQuery.Proofs.Rendering.Write
import DerivedQuery.Word.Segmentation

/-!
# The comparator at the end of a condition

Several comparators end with the same word: `Equal` ends `NotEqual`,
`LessThanEqual` and `GreaterThanEqual`. The words of a condition are cut in front
of the longest comparator they end with, and what stands in front of the cut is
the field. Words that end with `Than Equal` and name no direction end with no
comparator, though `Equal` alone is one.
-/

namespace DerivedQuery

namespace Comparator

variable {comparator : Comparator}
variable {texts : List String}
variable {run : List Word}
variable {length : Nat}

/-- Words that end with `Than Equal` behind neither `Less` nor `Greater`. -/
def Undirected (texts : List String) : Prop :=
  ∃ front, texts = front ++ ["Than", "Equal"] ∧
    front.getLast? ≠ some "Less" ∧ front.getLast? ≠ some "Greater"

/-- The words of a comparator are those its name is cut into. -/
theorem texts_segment_name (comparator : Comparator) :
    Word.texts (Word.segment comparator.name) = comparator.phrase := by
  cases comparator <;> decide +kernel

theorem length_segment_name (comparator : Comparator) :
    (Word.segment comparator.name).length = comparator.phrase.length := by
  rw [← texts_segment_name, Word.texts, List.length_map]

theorem phrase_length_pos (comparator : Comparator) : 0 < comparator.phrase.length := by
  cases comparator <;> simp [phrase]

/-! ## Words from the last to the first -/

/-- A phrase of several words is found whatever stands in front of it. -/
theorem phraseFromEnd?_of_several
    (several : 1 < comparator.phrase.length)
    (ends : comparator.phrase.reverse <+: texts) :
    phraseFromEnd? texts = some (comparator, comparator.phrase.length) := by
  obtain ⟨others, rfl⟩ := ends
  cases comparator <;> simp [phrase, phraseFromEnd?] at several ⊢

/-- The phrase that is found is the longest one at the end. -/
theorem length_le_of_phraseFromEnd?
    {other : Comparator}
    (found : phraseFromEnd? texts = some (comparator, length))
    (ends : other.phrase.reverse <+: texts) :
    other.phrase.length ≤ length := by
  obtain ⟨length_eq, -⟩ := phraseFromEnd?_eq_some found
  by_contra longer
  have positive := comparator.phrase_length_pos
  rw [phraseFromEnd?_of_several (by omega) ends] at found
  cases found
  exact longer (Nat.le_refl _)

theorem phraseFromEnd?_than_equal
    (notLess : texts.head? ≠ some "Less")
    (notGreater : texts.head? ≠ some "Greater") :
    phraseFromEnd? ("Equal" :: "Than" :: texts) = none := by
  cases texts with
  | nil => rfl
  | cons text others =>
      simp only [List.head?_cons, ne_eq, Option.some.injEq] at notLess notGreater
      simp [phraseFromEnd?, notLess, notGreater]

theorem head?_ne_of_ne_cons
    {text : String}
    (differs : ∀ others, texts ≠ text :: others) :
    texts.head? ≠ some text := by
  intro head_eq
  obtain ⟨others, texts_eq⟩ := List.head?_eq_some_iff.mp head_eq
  exact differs others texts_eq

/-- Only in `Than Equal` without a direction is a phrase not found. -/
theorem than_equal_of_phraseFromEnd?_eq_none
    (unfound : phraseFromEnd? texts = none)
    (ends : comparator.phrase.reverse <+: texts) :
    ∃ rest, texts = "Equal" :: "Than" :: rest ∧
      rest.head? ≠ some "Less" ∧ rest.head? ≠ some "Greater" := by
  obtain ⟨others, texts_eq⟩ := ends
  revert unfound
  fun_cases phraseFromEnd? texts with
  | case3 rest notLess notGreater =>
      intro _
      exact ⟨rest, rfl, head?_ne_of_ne_cons notLess, head?_ne_of_ne_cons notGreater⟩
  | case16 _ _ _ _ _ notEqual notLessThan notGreaterThan _ notBetween _ notIn notTrue notFalse _
      notExists =>
      -- The words end with the last word of no phrase.
      cases comparator with
      | equal | notEqual | lessThanEqual | greaterThanEqual =>
          exact absurd texts_eq.symm (notEqual _)
      | lessThan => exact absurd texts_eq.symm (notLessThan _)
      | greaterThan => exact absurd texts_eq.symm (notGreaterThan _)
      | between | notBetween => exact absurd texts_eq.symm (notBetween _)
      | within | notWithin => exact absurd texts_eq.symm (notIn _)
      | isTrue => exact absurd texts_eq.symm (notTrue _)
      | isFalse => exact absurd texts_eq.symm (notFalse _)
      | present | absent => exact absurd texts_eq.symm (notExists _)
  | _ => simp

/-! ## Runs -/

/-- No phrase that ends a run is longer than the one that is found. -/
theorem length_le_of_phrase?
    {other : Comparator}
    (found : phrase? run = some (comparator, length))
    (ends : other.phrase <:+ Word.texts run) :
    other.phrase.length ≤ length :=
  length_le_of_phraseFromEnd? found (List.reverse_prefix.mpr ends)

theorem phrase?_of_undirected (undirected : Undirected (Word.texts run)) : phrase? run = none := by
  obtain ⟨front, texts_eq, notLess, notGreater⟩ := undirected
  rw [phrase?, texts_eq, List.reverse_append]
  change phraseFromEnd? ("Equal" :: "Than" :: front.reverse) = none
  apply phraseFromEnd?_than_equal
  · rwa [List.head?_reverse]
  · rwa [List.head?_reverse]

theorem undirected_of_phrase?_eq_none
    (unfound : phrase? run = none)
    (ends : comparator.phrase <:+ Word.texts run) :
    Undirected (Word.texts run) := by
  obtain ⟨rest, reverse_eq, notLess, notGreater⟩ :=
    than_equal_of_phraseFromEnd?_eq_none unfound (List.reverse_prefix.mpr ends)
  refine ⟨rest.reverse, ?_, ?_, ?_⟩
  · rw [← List.reverse_reverse (Word.texts run), reverse_eq]
    simp
  · rwa [List.getLast?_reverse]
  · rwa [List.getLast?_reverse]

theorem phrase?_eq_none_iff :
    phrase? run = none ↔
      (∀ comparator : Comparator, ¬ comparator.phrase <:+ Word.texts run) ∨
        Undirected (Word.texts run) := by
  constructor
  · intro unfound
    by_cases ends : ∃ comparator : Comparator, comparator.phrase <:+ Word.texts run
    · obtain ⟨comparator, ends⟩ := ends
      exact .inr (undirected_of_phrase?_eq_none unfound ends)
    · exact .inl (not_exists.mp ends)
  · rintro (noneEnds | undirected)
    · cases found : phrase? run with
      | none => rfl
      | some answer =>
          obtain ⟨front, back, rfl, -, texts_eq⟩ := phrase?_eq_some found
          refine absurd ?_ (noneEnds answer.1)
          rw [Word.texts_append, ← texts_eq]
          exact List.suffix_append _ _
    · exact phrase?_of_undirected undirected

end Comparator

namespace Condition

/-- The words of a condition are those of its field, which resolve to one path with
the key of the condition, and behind them those of its comparator. No comparator
with more words ends the same run. A run ends with no comparator exactly if the
words of none are its last ones, or if these are `Than Equal` without a direction. -/
theorem read_takes_longest_comparator
    (scope : Scope)
    (run : List Word) :
    (∀ params condition rest, (read scope run).Yields params condition rest ->
      ∃ (front back : List Word) (path : FieldPath),
        run = front ++ back ∧
        front ≠ [] ∧
        FieldPath.resolve scope.schema front = .ok path ∧
        path.key = condition.field ∧
        scope.schema.KeyWritten condition.field front ∧
        Word.texts back = Word.texts (Word.segment condition.comparator.name) ∧
        ∀ other : Comparator, back.length < (Word.segment other.name).length ->
          ¬ Word.texts (Word.segment other.name) <:+ Word.texts run) ∧
    (Comparator.phrase? run = none ↔
      (∀ comparator : Comparator,
        ¬ Word.texts (Word.segment comparator.name) <:+ Word.texts run) ∨
      Comparator.Undirected (Word.texts run)) := by
  simp only [Comparator.texts_segment_name, Comparator.length_segment_name]
  refine ⟨?_, Comparator.phrase?_eq_none_iff⟩
  intro params condition rest yields
  obtain ⟨front, back, path, taken, run_eq, nonempty, found, texts_eq, resolved, field_eq, -⟩ :=
    exists_of_yields_read yields
  refine ⟨front, back, path, run_eq, nonempty, resolved, field_eq.symm,
    field_eq ▸ FieldPath.keyWritten_of_resolve resolved, texts_eq, ?_⟩
  intro other longer ends
  exact Nat.not_lt_of_le (Comparator.length_le_of_phrase? found ends) longer

/-- A field whose name ends with `Not` is passed over for the longer comparator,
and `Than Equal` behind a field is refused. -/
theorem read_takes_longest_comparator_not_equal :
    let address : Schema := ⟨"Address", [⟨"CityNot", "city_not", .ident "string", none⟩,
      ⟨"City", "city", .ident "string", none⟩]⟩
    let scope : Scope := {
      method := ⟨"FindElsewhere", "", [], []⟩
      schema := ⟨"User", [⟨"Address", "address", .ident "Address", some address⟩]⟩
      config := Config.standard }
    let run := Word.segment "AddressCityNotEqual"
    (read scope run).Yields [⟨"city", .ident "string"⟩]
        ⟨.notEqual, "address.city", ["city"]⟩ [] ∧
      (∃ front back, run = front ++ back ∧ scope.schema.KeyWritten "address.city" front ∧
        Word.texts back = ["Not", "Equal"]) ∧
      Comparator.phrase? (Word.segment "AddressCityThanEqual") = none := by
  intro address scope run
  have yields : (read scope run).Yields [⟨"city", .ident "string"⟩]
      ⟨.notEqual, "address.city", ["city"]⟩ [] := by
    apply toOption_pair_eq_iff.mp
    decide +kernel
  have undirected : Comparator.Undirected
      (Word.texts (Word.segment "AddressCityThanEqual")) :=
    ⟨["Address", "City"], by decide +kernel, by decide, by decide⟩
  obtain ⟨front, back, path, run_eq, -, -, -, written, texts_eq, -⟩ :=
    (read_takes_longest_comparator scope run).1 _ _ _ yields
  refine ⟨yields, ⟨front, back, run_eq, written, ?_⟩, ?_⟩
  · exact texts_eq.trans (Comparator.texts_segment_name .notEqual)
  · exact (read_takes_longest_comparator scope _).2.mpr (.inr undirected)

end Condition
end DerivedQuery
