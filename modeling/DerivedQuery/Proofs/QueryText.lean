import DerivedQuery.Query

/-!
# Queries told apart by their text

The text of a query separates names by spaces, commas and brackets. Names that
contain none of these end where the next separator stands, every condition ends
with the bracket behind its parameters, and every connective has brackets of its
own. So the text of a tree is found at the front of a longer text in one way only,
even if fields and parameters have the names of connectives, and a query is
determined by its text.
-/

namespace DerivedQuery

/-- The characters that separate names in the text of a query. -/
def Query.separators : List Char :=
  [' ', ',', '(', ')']

/-- A name that cannot be confused with what surrounds it in the text of a query. -/
structure PlainName (name : String) : Prop where
  nonempty : name ≠ ""
  unseparated : ∀ char ∈ name.toList, char ∉ Query.separators

/-- A condition all of whose names are plain. -/
structure Condition.Plain (condition : Condition) : Prop where
  field : PlainName condition.field
  params : ∀ param ∈ condition.params, PlainName param

/-- A query with plain names in every condition. -/
def Query.Plain (query : Query) : Prop :=
  ∀ expr, query.expr? = some expr -> ∀ condition ∈ expr.conditions, condition.Plain

/-! ## Names -/

namespace Query

variable {name otherName rest otherRest : List Char}

/-- A text that starts with a separator. -/
def Separated (text : List Char) : Prop :=
  ∃ char ∈ separators, ∃ behind, text = char :: behind

theorem takeWhile_append_separated
    (unseparated : ∀ char ∈ name, char ∉ separators)
    (separated : Separated rest) :
    (name ++ rest).takeWhile (· ∉ separators) = name := by
  obtain ⟨char, separates, behind, rfl⟩ := separated
  rw [List.takeWhile_append_of_pos (by simpa using unseparated),
    List.takeWhile_cons_of_neg (by simpa using separates), List.append_nil]

/-- A name in front of a separator ends there. -/
theorem name_append_inj
    (unseparated : ∀ char ∈ name, char ∉ separators)
    (otherUnseparated : ∀ char ∈ otherName, char ∉ separators)
    (separated : Separated rest)
    (otherSeparated : Separated otherRest)
    (same : name ++ rest = otherName ++ otherRest) :
    name = otherName ∧ rest = otherRest := by
  have name_eq : name = otherName := by
    rw [← takeWhile_append_separated unseparated separated, same,
      takeWhile_append_separated otherUnseparated otherSeparated]
  subst name_eq
  exact ⟨rfl, List.append_cancel_left same⟩

theorem name_append_cons_inj
    {char : Char}
    (separates : char ∈ separators)
    (unseparated : ∀ char ∈ name, char ∉ separators)
    (otherUnseparated : ∀ char ∈ otherName, char ∉ separators)
    (same : name ++ char :: rest = otherName ++ char :: otherRest) :
    name = otherName ∧ rest = otherRest := by
  obtain ⟨name_eq, behind⟩ := name_append_inj unseparated otherUnseparated
    ⟨char, separates, rest, rfl⟩ ⟨char, separates, otherRest, rfl⟩ same
  exact ⟨name_eq, (List.cons.inj behind).2⟩

end Query

open Query

/-- No text starts both with a plain name and with a separator. -/
theorem PlainName.append_ne
    {name : String}
    {rest text : List Char}
    (plain : PlainName name)
    (separated : Separated text) :
    name.toList ++ rest ≠ text := by
  obtain ⟨char, separates, behind, rfl⟩ := separated
  cases name_eq : name.toList with
  | nil => exact absurd (String.toList_eq_nil_iff.mp name_eq) plain.nonempty
  | cons first others =>
      intro same
      obtain ⟨rfl, -⟩ := List.cons.inj same
      exact plain.unseparated first (name_eq ▸ List.mem_cons_self) separates

namespace Comparator

theorem find?_name (comparator : Comparator) :
    all.find? (·.name == comparator.name) = some comparator := by
  cases comparator <;> rfl

theorem name_injective : Function.Injective name := by
  intro first second same
  have found := first.find?_name
  rw [same, second.find?_name] at found
  exact (Option.some.inj found).symm

theorem name_unseparated (comparator : Comparator) :
    ∀ char ∈ comparator.name.toList, char ∉ separators := by
  cases comparator <;> simp [name, separators]

end Comparator

namespace Connective

theorem name_injective : Function.Injective name := by
  intro first second same
  cases first <;> cases second <;> simp [name] at same ⊢

theorem name_unseparated (connective : Connective) :
    ∀ char ∈ connective.name.toList, char ∉ separators := by
  cases connective <;> simp [name, separators]

end Connective

/-! ## Parameters -/

namespace Condition

variable {params others : List String}
variable {rest otherRest : List Char}

/-- What stands behind the first parameter of a condition: the other parameters, and
the text behind the bracket that closes them. -/
def behindParam (rest : List Char) : List String -> List Char
  | [] => ')' :: rest
  | param :: params => ',' :: ' ' :: (param.toList ++ behindParam rest params)

theorem separated_behindParam (rest : List Char) (params : List String) :
    Separated (behindParam rest params) := by
  cases params with
  | nil => exact ⟨')', by simp [separators], rest, rfl⟩
  | cons param params => exact ⟨',', by simp [separators], _, rfl⟩

theorem toList_intercalate_cons (param : String) (params : List String) (rest : List Char) :
    (", ".intercalate (param :: params)).toList ++ ')' :: rest =
      param.toList ++ behindParam rest params := by
  induction params generalizing param with
  | nil => rw [String.intercalate_singleton, behindParam]
  | cons second params hypothesis =>
      rw [String.intercalate_cons_cons, String.toList_append, String.toList_append,
        List.append_assoc, hypothesis, List.append_assoc, behindParam]
      rfl

theorem behindParam_inj
    (plain : ∀ param ∈ params, PlainName param)
    (otherPlain : ∀ param ∈ others, PlainName param)
    (same : behindParam rest params = behindParam otherRest others) :
    params = others ∧ rest = otherRest := by
  induction params generalizing others with
  | nil =>
      cases others with
      | nil => exact ⟨rfl, (List.cons.inj same).2⟩
      | cons other others => simp [behindParam] at same
  | cons param params hypothesis =>
      cases others with
      | nil => simp [behindParam] at same
      | cons other others =>
          rw [List.forall_mem_cons] at plain otherPlain
          simp only [behindParam, List.cons.injEq, true_and] at same
          obtain ⟨name_eq, behind⟩ := name_append_inj plain.1.unseparated
            otherPlain.1.unseparated (separated_behindParam rest params)
            (separated_behindParam otherRest others) same
          obtain ⟨rfl, rest_eq⟩ := hypothesis plain.2 otherPlain.2 behind
          exact ⟨by rw [String.toList_inj.mp name_eq], rest_eq⟩

/-- Parameters end with the bracket that closes them. -/
theorem params_append_inj
    (plain : ∀ param ∈ params, PlainName param)
    (otherPlain : ∀ param ∈ others, PlainName param)
    (same : (", ".intercalate params).toList ++ ')' :: rest =
      (", ".intercalate others).toList ++ ')' :: otherRest) :
    params = others ∧ rest = otherRest := by
  cases params with
  | nil =>
      cases others with
      | nil => exact ⟨rfl, (List.cons.inj same).2⟩
      | cons other others =>
          rw [toList_intercalate_cons] at same
          exact absurd same.symm
            ((otherPlain other List.mem_cons_self).append_ne (separated_behindParam rest []))
  | cons param params =>
      cases others with
      | nil =>
          rw [toList_intercalate_cons] at same
          exact absurd same
            ((plain param List.mem_cons_self).append_ne (separated_behindParam otherRest []))
      | cons other others =>
          rw [toList_intercalate_cons, toList_intercalate_cons] at same
          exact behindParam_inj plain otherPlain (congrArg (',' :: ' ' :: ·) same)

/-! ## Conditions and trees -/

theorem toList_render_append (condition : Condition) (rest : List Char) :
    condition.render.toList ++ rest =
      condition.field.toList ++ ' ' :: (condition.comparator.name.toList ++
        '(' :: ((", ".intercalate condition.params).toList ++ ')' :: rest)) := by
  simp only [render, String.toList_append, List.append_assoc]
  rfl

/-- Conditions with the same text in front of anything are the same. -/
theorem render_append_inj
    {first second : Condition}
    (firstPlain : first.Plain)
    (secondPlain : second.Plain)
    (same : first.render.toList ++ rest = second.render.toList ++ otherRest) :
    first = second ∧ rest = otherRest := by
  rw [toList_render_append, toList_render_append] at same
  obtain ⟨field_eq, behindField⟩ := name_append_cons_inj (by simp [separators])
    firstPlain.field.unseparated secondPlain.field.unseparated same
  obtain ⟨comparator_eq, behindComparator⟩ := name_append_cons_inj (by simp [separators])
    first.comparator.name_unseparated second.comparator.name_unseparated behindField
  obtain ⟨params_eq, rest_eq⟩ :=
    params_append_inj firstPlain.params secondPlain.params behindComparator
  refine ⟨?_, rest_eq⟩
  rw [Condition.mk.injEq]
  exact ⟨Comparator.name_injective (String.toList_inj.mp comparator_eq),
    String.toList_inj.mp field_eq, params_eq⟩

end Condition

namespace QueryExpr

variable {rest otherRest : List Char}

theorem toList_render_node_append
    (connective : Connective)
    (left right : QueryExpr)
    (rest : List Char) :
    (node connective left right).render.toList ++ rest =
      '(' :: (left.render.toList ++ ' ' :: (connective.name.toList ++
        ' ' :: (right.render.toList ++ ')' :: rest))) := by
  simp only [render, String.toList_append, List.append_assoc]
  rfl

/-- A condition starts with a name, a connective with the bracket around it. -/
theorem render_leaf_append_ne
    {condition : Condition}
    (plain : condition.Plain)
    (connective : Connective)
    (left right : QueryExpr) :
    (leaf condition).render.toList ++ rest ≠
      (node connective left right).render.toList ++ otherRest := by
  rw [render, Condition.toList_render_append, toList_render_node_append]
  exact plain.field.append_ne ⟨'(', by simp [separators], _, rfl⟩

/-- Trees with the same text in front of anything are the same. -/
theorem render_append_inj
    {first second : QueryExpr}
    (firstPlain : ∀ condition ∈ first.conditions, condition.Plain)
    (secondPlain : ∀ condition ∈ second.conditions, condition.Plain)
    (same : first.render.toList ++ rest = second.render.toList ++ otherRest) :
    first = second ∧ rest = otherRest := by
  -- What stands behind a part is any text, so that both parts of a connective can be read off.
  induction first generalizing second rest otherRest with
  | leaf condition =>
      have plain : condition.Plain := firstPlain condition List.mem_cons_self
      cases second with
      | leaf other =>
          obtain ⟨rfl, rest_eq⟩ := Condition.render_append_inj plain
            (secondPlain other List.mem_cons_self) same
          exact ⟨rfl, rest_eq⟩
      | node connective left right =>
          exact absurd same (render_leaf_append_ne plain connective left right)
  | node connective left right leftHypothesis rightHypothesis =>
      cases second with
      | leaf other =>
          exact absurd same.symm (render_leaf_append_ne
            (secondPlain other List.mem_cons_self) connective left right)
      | node otherConnective otherLeft otherRight =>
          rw [conditions, List.forall_mem_append] at firstPlain secondPlain
          rw [toList_render_node_append, toList_render_node_append] at same
          obtain ⟨rfl, behindLeft⟩ :=
            leftHypothesis firstPlain.1 secondPlain.1 (List.cons.inj same).2
          obtain ⟨name_eq, behindName⟩ := name_append_cons_inj (by simp [separators])
            connective.name_unseparated otherConnective.name_unseparated
            (List.cons.inj behindLeft).2
          obtain rfl := Connective.name_injective (String.toList_inj.mp name_eq)
          obtain ⟨rfl, behindRight⟩ := rightHypothesis firstPlain.2 secondPlain.2 behindName
          exact ⟨rfl, (List.cons.inj behindRight).2⟩

end QueryExpr

namespace Query

/-- Queries whose names are not empty and contain no space, comma or bracket have
the same text only if they are the same. -/
theorem render_eq_render_iff
    (first second : Query)
    (firstPlain : first.Plain)
    (secondPlain : second.Plain) :
    first.render = second.render ↔ first = second := by
  refine ⟨fun same => ?_, congrArg render⟩
  rw [← String.toList_inj] at same
  cases first with
  | all =>
      cases second with
      | all => rfl
      | matching expr => simp [render] at same
  | matching expr =>
      cases second with
      | all => simp [render] at same
      | matching other =>
          simp only [render, String.toList_append, List.append_cancel_left_eq] at same
          have exprs_eq := QueryExpr.render_append_inj (firstPlain expr rfl)
            (secondPlain other rfl) (congrArg (· ++ []) same)
          rw [exprs_eq.1]

/-- Two groupings of the same conditions, whose names are those of connectives. -/
theorem render_eq_render_iff_regrouped :
    let one : Condition := ⟨.equal, "And", ["Or"]⟩
    let two : Condition := ⟨.present, "Or", []⟩
    let three : Condition := ⟨.between, "By", ["And", "All"]⟩
    let first : Query := .matching (.node .and (.node .and (.leaf one) (.leaf two)) (.leaf three))
    let second : Query := .matching (.node .and (.leaf one) (.node .and (.leaf two) (.leaf three)))
    first.Plain ∧ second.Plain ∧ first.render ≠ second.render := by
  intro one two three first second
  have plainAnd : PlainName "And" := ⟨by simp, by simp [separators]⟩
  have plainOr : PlainName "Or" := ⟨by simp, by simp [separators]⟩
  have plainBy : PlainName "By" := ⟨by simp, by simp [separators]⟩
  have plainAll : PlainName "All" := ⟨by simp, by simp [separators]⟩
  have plain : ∀ condition ∈ [one, two, three], condition.Plain := by
    rw [List.forall_mem_cons, List.forall_mem_cons, List.forall_mem_singleton]
    exact ⟨⟨plainAnd, by simpa [one] using plainOr⟩, ⟨plainOr, by simp [two]⟩,
      ⟨plainBy, by simpa [three] using And.intro plainAnd plainAll⟩⟩
  have firstPlain : first.Plain := by
    rintro _ ⟨⟩
    exact plain
  have secondPlain : second.Plain := by
    rintro _ ⟨⟩
    exact plain
  refine ⟨firstPlain, secondPlain, fun same => ?_⟩
  exact absurd ((render_eq_render_iff first second firstPlain secondPlain).mp same) (by decide)

end Query
end DerivedQuery
