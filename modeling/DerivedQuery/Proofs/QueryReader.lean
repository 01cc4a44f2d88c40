import DerivedQuery.Proofs.Binding
import DerivedQuery.Proofs.Connective
import DerivedQuery.Proofs.FieldChain
import DerivedQuery.Query.Reader

/-!
# What queries are read from

The words of a condition end with those of its comparator, the words in front
of them spell one field path, and the parameters it binds have the type of that
path. No bracket takes part in a condition, as long as no field name contains
one. A query behind `By` is a balanced run whose outline is read from the left.
-/

namespace DerivedQuery

namespace Keyword

theorem text_eq_of_ofText?
    {text : String}
    {keyword : Keyword}
    (found : ofText? text = some keyword) :
    text = keyword.text := by
  unfold ofText? at found
  split at found <;>
    first
    | (cases found; rfl)
    | simp at found

end Keyword

namespace Word

theorem is_iff_text
    {word : Word}
    {keyword : Keyword} :
    word.is keyword ↔ word.text = keyword.text := by
  rw [is_iff, keyword?]
  constructor
  · exact Keyword.text_eq_of_ofText?
  · intro spelled
    rw [spelled, Keyword.ofText?_text]

theorem text_of_isBracket
    {word : Word}
    (bracket : word.isBracket) :
    word.text = "Lb" ∨ word.text = "Rb" := by
  simp only [isBracket, Bool.or_eq_true, is_iff] at bracket
  exact bracket.imp Keyword.text_eq_of_ofText? Keyword.text_eq_of_ofText?

end Word

namespace Comparator

/-- The words of a comparator. -/
def phrase : Comparator -> List String
  | .equal => ["Equal"]
  | .notEqual => ["Not", "Equal"]
  | .lessThan => ["Less", "Than"]
  | .lessThanEqual => ["Less", "Than", "Equal"]
  | .greaterThan => ["Greater", "Than"]
  | .greaterThanEqual => ["Greater", "Than", "Equal"]
  | .between => ["Between"]
  | .notBetween => ["Not", "Between"]
  | .within => ["In"]
  | .notWithin => ["Not", "In"]
  | .isTrue => ["True"]
  | .isFalse => ["False"]
  | .present => ["Exists"]
  | .absent => ["Not", "Exists"]

theorem phraseFromEnd?_eq_some
    {texts : List String}
    {comparator : Comparator}
    {length : Nat}
    (found : phraseFromEnd? texts = some (comparator, length)) :
    length = comparator.phrase.length ∧
      ∃ others, texts = comparator.phrase.reverse ++ others := by
  unfold phraseFromEnd? at found
  split at found <;>
    first
    | (cases found; exact ⟨rfl, _, rfl⟩)
    | simp at found

/-- A run with a comparator ends with the words of that comparator. -/
theorem phrase?_eq_some
    {run : List Word}
    {comparator : Comparator}
    {length : Nat}
    (found : phrase? run = some (comparator, length)) :
    ∃ front back, run = front ++ back ∧ back.length = length ∧
      Word.texts back = comparator.phrase := by
  obtain ⟨length_eq, others, texts_eq⟩ := phraseFromEnd?_eq_some found
  have texts_split : Word.texts run = others.reverse ++ comparator.phrase := by
    rw [← List.reverse_reverse (Word.texts run), texts_eq]
    simp
  obtain ⟨front, back, rfl, front_eq, back_eq⟩ := List.map_eq_append_iff.mp texts_split
  refine ⟨front, back, rfl, ?_, back_eq⟩
  rw [length_eq, ← back_eq, List.length_map]

theorem ne_bracket_of_mem_phrase
    {comparator : Comparator}
    {text : String}
    (member : text ∈ comparator.phrase) :
    text ≠ "Lb" ∧ text ≠ "Rb" := by
  cases comparator <;> simp only [phrase, List.mem_cons, List.not_mem_nil, or_false] at member <;>
    grind

end Comparator

namespace Condition

/-- What a condition is read from. -/
theorem exists_of_yields_read
    {scope : Scope}
    {run : List Word}
    {params rest : List Param}
    {condition : Condition}
    (yields : (read scope run).Yields params condition rest) :
    ∃ (front back : List Word) (path : FieldPath) (taken : List Param),
      run = front ++ back ∧
      front ≠ [] ∧
      Comparator.phrase? run = some (condition.comparator, back.length) ∧
      Word.texts back = condition.comparator.phrase ∧
      FieldPath.resolve scope.schema front = .ok path ∧
      condition.field = path.key ∧
      params = taken ++ rest ∧
      taken.length = condition.comparator.arity ∧
      taken.map Param.name = condition.params ∧
      ∀ param ∈ taken, param.type = path.type := by
  unfold read at yields
  split at yields
  · simp at yields
  · split at yields
    · simp at yields
    · rename_i comparator length found
      obtain ⟨front, back, rfl, rfl, texts_eq⟩ := Comparator.phrase?_eq_some found
      have fieldRun : (front ++ back).take ((front ++ back).length - back.length) = front := by
        rw [List.length_append, Nat.add_sub_cancel, List.take_left]
      simp only [fieldRun] at yields
      split at yields
      · simp at yields
      · rename_i nonempty
        simp only [Binding.yields_bind, Binding.yields_ofResult, except_mapError_eq_ok_iff,
          Binding.yields_takeNames, Binding.yields_pure] at yields
        obtain ⟨path, _, ⟨resolved, rfl⟩, names, _,
          ⟨taken, params_eq, count, names_eq, typed⟩, rfl, rfl⟩ := yields
        exact ⟨front, back, path, taken, rfl, by simpa using nonempty, found, texts_eq, resolved,
          rfl, params_eq, count, names_eq, typed⟩

/-- A condition has no bracket among its words. -/
theorem no_brackets_of_yields_read
    {scope : Scope}
    (free : scope.schema.BracketFree)
    {run : List Word}
    {params rest : List Param}
    {condition : Condition}
    (yields : (read scope run).Yields params condition rest) :
    ∀ word ∈ run, word.isBracket = false := by
  obtain ⟨front, back, path, taken, rfl, -, -, texts_eq, resolved, -⟩ :=
    exists_of_yields_read yields
  intro word member
  rw [← Bool.not_eq_true]
  intro bracket
  rcases List.mem_append.mp member with inFront | inBack
  · obtain ⟨consumed, chain, through⟩ := FieldPath.through_of_resolve resolved
    have spells := through.spells
    rw [consumed, List.take_length] at spells
    obtain ⟨field, fieldMember, part⟩ := spells.exists_name_of_mem inFront
    obtain ⟨noLeft, noRight⟩ := free chain through.leads field fieldMember
    rcases Word.text_of_isBracket bracket with text_eq | text_eq
    · rw [text_eq] at part
      exact noLeft part
    · rw [text_eq] at part
      exact noRight part
  · have inPhrase : word.text ∈ condition.comparator.phrase := by
      rw [← texts_eq]
      exact List.mem_map_of_mem inBack
    obtain ⟨notLeft, notRight⟩ := Comparator.ne_bracket_of_mem_phrase inPhrase
    exact (Word.text_of_isBracket bracket).elim notLeft notRight

theorem ne_nil_of_yields_read
    {scope : Scope}
    {run : List Word}
    {params rest : List Param}
    {condition : Condition}
    (yields : (read scope run).Yields params condition rest) :
    run ≠ [] := by
  obtain ⟨front, back, path, taken, rfl, nonempty, -⟩ := exists_of_yields_read yields
  simp [nonempty]

end Condition

theorem Outline.ofRun_eq
    (strategy : SplitStrategy)
    (run : List Word) :
    ofRun strategy run =
      match strategy.split run with
      | .error error => .broken error
      | .ok (.leaf inner) => .leaf inner
      | .ok (.divided connective left right) =>
          .node connective (ofRun strategy left) (ofRun strategy right) := by
  rw [ofRun]
  split <;> simp_all

namespace QueryExpr

variable {scope : Scope}
variable {params rest : List Param}
variable {expr : QueryExpr}

theorem yields_read_leaf_iff
    {run : List Word} :
    (read scope (.leaf run)).Yields params expr rest ↔
      ∃ condition, expr = .leaf condition ∧
        (Condition.read scope run).Yields params condition rest := by
  simp only [read, Binding.yields_bind, Binding.yields_pure]
  constructor
  · rintro ⟨condition, _, reads, rfl, rfl⟩
    exact ⟨condition, rfl, reads⟩
  · rintro ⟨condition, rfl, reads⟩
    exact ⟨condition, rest, reads, rfl, rfl⟩

theorem yields_read_node_iff
    {connective : Connective}
    {left right : Outline} :
    (read scope (.node connective left right)).Yields params expr rest ↔
      ∃ leftExpr rightExpr middle, expr = .node connective leftExpr rightExpr ∧
        (read scope left).Yields params leftExpr middle ∧
        (read scope right).Yields middle rightExpr rest := by
  simp only [read, Binding.yields_bind, Binding.yields_pure]
  constructor
  · rintro ⟨leftExpr, middle, readsLeft, rightExpr, _, readsRight, rfl, rfl⟩
    exact ⟨leftExpr, rightExpr, middle, rfl, readsLeft, readsRight⟩
  · rintro ⟨leftExpr, rightExpr, middle, rfl, readsLeft, readsRight⟩
    exact ⟨leftExpr, middle, readsLeft, rightExpr, rest, readsRight, rfl, rfl⟩

theorem not_yields_read_broken
    {error : SplitError} :
    ¬ (read scope (.broken error)).Yields params expr rest := by
  simp [read]

end QueryExpr

namespace Query

/-- A query behind `By` is balanced, and its outline is read from the left. -/
theorem yields_read_by_iff
    {scope : Scope}
    {first : Word}
    (isBy : first.keyword? = some .byQuery)
    {body : List Word}
    {query : Query}
    {params rest : List Param} :
    (read scope (first :: body)).Yields params query rest ↔
      body ≠ [] ∧ Brackets.Balanced body ∧
        ∃ expr, query = .matching expr ∧
          (QueryExpr.read scope (Outline.ofRun scope.config.splitStrategy body)).Yields
            params expr rest := by
  simp only [read, isBy]
  cases body with
  | nil => simp
  | cons word others =>
      simp only [List.isEmpty_cons, Bool.false_eq_true, if_false, Binding.yields_bind,
        Binding.yields_ofResult, Binding.yields_pure, except_mapError_eq_ok_iff,
        ← Brackets.check_eq_ok_iff]
      constructor
      · rintro ⟨⟨⟩, _, ⟨checked, rfl⟩, expr, _, reads, rfl, rfl⟩
        exact ⟨by simp, checked, expr, rfl, reads⟩
      · rintro ⟨-, checked, expr, rfl, reads⟩
        exact ⟨(), params, ⟨checked, rfl⟩, expr, rest, reads, rfl, rfl⟩

/-- A query is `All` alone, or `By` and a run of conditions. -/
theorem yields_read_cases
    {scope : Scope}
    {run : List Word}
    {query : Query}
    {params rest : List Param}
    (yields : (read scope run).Yields params query rest) :
    (∃ first : Word, run = [first] ∧ first.keyword? = some .allQuery ∧
      query = .all ∧ params = rest) ∨
    (∃ (first : Word) (body : List Word), run = first :: body ∧
      first.keyword? = some .byQuery) := by
  cases run with
  | nil => simp [read] at yields
  | cons first body =>
      simp only [read] at yields
      split at yields
      · rename_i isAll
        cases body with
        | nil =>
            simp only [List.isEmpty_nil, if_true, Binding.yields_pure] at yields
            exact .inl ⟨first, rfl, isAll, yields.1.symm, yields.2⟩
        | cons word others => simp at yields
      · rename_i isBy
        exact .inr ⟨first, body, rfl, isBy⟩
      · simp at yields

end Query
end DerivedQuery
