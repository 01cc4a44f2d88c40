import DerivedQuery.FieldPath

/-!
# Chains of fields

A field path stands for a chain of fields, each but the first taken from the
schema nested in the one before it. Every path a run resolves to comes from
such a chain: its key joins the storage keys of the chain, its type is that of
the last field, and the words it takes spell the names of the chain one after
the other.
-/

namespace DerivedQuery
namespace Schema

/-- A row of fields that leads from a schema through nested schemas. -/
inductive Chain : Schema -> List Field -> Prop
  | last
      {schema : Schema}
      {field : Field}
      (member : field ∈ schema.fields) :
      Chain schema [field]
  | into
      {schema inner : Schema}
      {field : Field}
      {chain : List Field}
      (member : field ∈ schema.fields)
      (nested : field.nested = some inner)
      (further : Chain inner chain) :
      Chain schema (field :: chain)

theorem Chain.ne_nil
    {schema : Schema}
    {chain : List Field}
    (leads : Chain schema chain) :
    chain ≠ [] := by
  cases leads with
  | last member => simp
  | into member nested further => simp

/-- A chain with the given dotted key and type of its last field. -/
def HasPath
    (schema : Schema)
    (key : String)
    (type : TypeExpr) : Prop :=
  ∃ chain, schema.Chain chain ∧
    ".".intercalate (chain.map FieldOf.storageKey) = key ∧
    chain.getLast?.map FieldOf.type = some type

/-- No field name, at any level of nesting, has the spelling of a bracket in
it. -/
def BracketFree (schema : Schema) : Prop :=
  ∀ chain, schema.Chain chain -> ∀ field ∈ chain,
    ¬ "Lb".toList <:+: field.name.toList ∧ ¬ "Rb".toList <:+: field.name.toList

/-- What holds of every field of every chain holds of the fields of a schema
and of the chains below them. -/
theorem forall_mem_chain_iff
    {property : Field -> Prop}
    {schema : Schema} :
    (∀ chain, schema.Chain chain -> ∀ field ∈ chain, property field) ↔
      ∀ field ∈ schema.fields, property field ∧
        ∀ inner, field.nested = some inner ->
          ∀ chain, inner.Chain chain -> ∀ field ∈ chain, property field := by
  constructor
  · intro holds field member
    refine ⟨holds [field] (.last member) field (by simp), ?_⟩
    intro inner nested chain leads other otherMember
    exact holds (field :: chain) (.into member nested leads) other (by simp [otherMember])
  · intro holds chain leads field fieldMember
    cases leads with
    | last member =>
        rw [List.mem_singleton] at fieldMember
        subst fieldMember
        exact (holds _ member).1
    | into member nested further =>
        rw [List.mem_cons] at fieldMember
        rcases fieldMember with rfl | deeper
        · exact (holds _ member).1
        · exact (holds _ member).2 _ nested _ further field deeper

theorem bracketFree_iff
    {schema : Schema} :
    schema.BracketFree ↔
      ∀ field ∈ schema.fields,
        (¬ "Lb".toList <:+: field.name.toList ∧ ¬ "Rb".toList <:+: field.name.toList) ∧
          ∀ inner, field.nested = some inner -> inner.BracketFree :=
  forall_mem_chain_iff

/-! ## Induction over nested schemas -/

theorem fieldHeight_le_fieldsHeight
    {field : Field}
    {fields : List Field}
    (member : field ∈ fields) :
    fieldHeight field ≤ fieldsHeight fields := by
  induction fields with
  | nil => simp at member
  | cons first rest hypothesis =>
      simp only [fieldsHeight]
      rcases List.mem_cons.mp member with rfl | inRest
      · exact Nat.le_max_left _ _
      · exact Nat.le_trans (hypothesis inRest) (Nat.le_max_right _ _)

theorem height_lt_of_nested
    {schema inner : Schema}
    {field : Field}
    (member : field ∈ schema.fields)
    (nested : field.nested = some inner) :
    inner.height < schema.height := by
  have below : fieldHeight field = inner.height + 1 := by
    obtain ⟨name, key, type, _⟩ := field
    subst nested
    simp [fieldHeight, nestedHeight]
  have bound := fieldHeight_le_fieldsHeight member
  have total : schema.height = fieldsHeight schema.fields := by
    obtain ⟨name, fields⟩ := schema
    simp only [height]
  omega

/-- What holds of a schema whenever it holds of the schemas nested in its
fields holds of every schema. -/
theorem nestedInduction
    {motive : Schema -> Prop}
    (step : ∀ schema : Schema,
      (∀ field ∈ schema.fields, ∀ inner, field.nested = some inner -> motive inner) ->
        motive schema)
    (schema : Schema) :
    motive schema :=
  step schema fun _ member inner nested =>
    have := height_lt_of_nested member nested
    nestedInduction step inner
termination_by schema.height

end Schema

namespace FieldPath

/-- A row of words spells the names of a row of fields, each name by words of
its own. -/
inductive Spells : List Field -> List Word -> Prop
  | nil : Spells [] []
  | cons
      {field : Field}
      {fields : List Field}
      {run rest : List Word}
      (nonempty : run ≠ [])
      (spelled : run.flatMap (·.text.toList) = field.name.toList)
      (further : Spells fields rest) :
      Spells (field :: fields) (run ++ rest)

/-- Every word of a spelling is part of one of the names. -/
theorem Spells.exists_name_of_mem
    {fields : List Field}
    {run : List Word}
    (spells : Spells fields run)
    {word : Word}
    (member : word ∈ run) :
    ∃ field ∈ fields, word.text.toList <:+: field.name.toList := by
  induction spells with
  | nil => simp at member
  | @cons field fields run rest nonempty spelled further hypothesis =>
      rcases List.mem_append.mp member with inRun | inRest
      · refine ⟨field, by simp, ?_⟩
        obtain ⟨front, back, rfl⟩ := List.append_of_mem inRun
        rw [← spelled, List.flatMap_append, List.flatMap_cons]
        exact ⟨_, _, List.append_assoc _ _ _⟩
      · obtain ⟨other, otherMember, part⟩ := hypothesis inRest
        exact ⟨other, by simp [otherMember], part⟩

theorem eq_append_of_afterText
    {text name remaining : List Char}
    (found : afterText text name = some remaining) :
    name = text ++ remaining := by
  induction text generalizing name with
  | nil =>
      simp only [afterText, Option.some.injEq] at found
      exact found
  | cons char text hypothesis =>
      cases name with
      | nil => simp [afterText] at found
      | cons head name =>
          simp only [afterText] at found
          split at found
          · rename_i same
            rw [same, hypothesis found]
            rfl
          · simp at found

/-- A spelled name is made of whole leading words, and of one at least. -/
theorem spelled?_eq_some
    {name : List Char}
    {words : List Word}
    {count : Nat}
    (found : spelled? name words = some count) :
    0 < count ∧ count ≤ words.length ∧
      (words.take count).flatMap (·.text.toList) = name := by
  induction words generalizing name count with
  | nil => simp [spelled?] at found
  | cons word rest hypothesis =>
      simp only [spelled?] at found
      split at found
      · simp at found
      · rename_i after
        simp only [Option.some.injEq] at found
        subst found
        simp [eq_append_of_afterText after]
      · rename_i remaining _ after
        obtain ⟨inner, foundInner, rfl⟩ := Option.map_eq_some_iff.mp found
        obtain ⟨positive, bounded, spelled⟩ := hypothesis foundInner
        refine ⟨Nat.succ_pos inner, Nat.succ_le_succ bounded, ?_⟩
        rw [List.take_succ_cons, List.flatMap_cons, spelled, eq_append_of_afterText after]

theorem mem_insertByLength
    {path other : FieldPath}
    {paths : List FieldPath} :
    other ∈ insertByLength path paths ↔ other = path ∨ other ∈ paths := by
  induction paths with
  | nil => simp [insertByLength]
  | cons head rest hypothesis =>
      simp only [insertByLength]
      split
      · simp
      · simp only [List.mem_cons, hypothesis]
        grind

@[simp] theorem mem_longestFirst
    {path : FieldPath}
    {paths : List FieldPath} :
    path ∈ longestFirst paths ↔ path ∈ paths := by
  induction paths with
  | nil => simp [longestFirst]
  | cons head rest hypothesis =>
      simp only [longestFirst, mem_insertByLength, hypothesis, List.mem_cons]

/-- A path found at the front of a run, with the chain of fields it goes
through. -/
structure Through
    (path : FieldPath)
    (schema : Schema)
    (words : List Word)
    (chain : List Field) : Prop where
  leads : schema.Chain chain
  key_eq : ".".intercalate (chain.map FieldOf.storageKey) = path.key
  type_eq : chain.getLast?.map FieldOf.type = some path.type
  bounded : path.consumed ≤ words.length
  spells : Spells chain (words.take path.consumed)

theorem Through.hasPath
    {path : FieldPath}
    {schema : Schema}
    {words : List Word}
    {chain : List Field}
    (through : Through path schema words chain) :
    schema.HasPath path.key path.type :=
  ⟨chain, through.leads, through.key_eq, through.type_eq⟩

theorem Through.consumed_pos
    {path : FieldPath}
    {schema : Schema}
    {words : List Word}
    {chain : List Field}
    (through : Through path schema words chain) :
    0 < path.consumed := by
  obtain ⟨leads, -, -, -, spells⟩ := through
  rcases Nat.eq_zero_or_pos path.consumed with none | positive
  · rw [none, List.take_zero] at spells
    generalize words_eq : ([] : List Word) = taken at spells
    cases spells with
    | nil => exact absurd rfl leads.ne_nil
    | cons nonempty spelled further =>
        simp only [List.nil_eq_append_iff] at words_eq
        exact absurd words_eq.1 nonempty
  · exact positive

end FieldPath

namespace Schema

open FieldPath

theorem mem_fieldsCandidates_iff
    {fields : List Field}
    {words : List Word}
    {path : FieldPath} :
    path ∈ fieldsCandidates fields words ↔
      ∃ field ∈ fields, path ∈ fieldCandidates field words := by
  induction fields with
  | nil => simp [fieldsCandidates]
  | cons field rest hypothesis => simp [fieldsCandidates, hypothesis]

theorem mem_candidates_iff
    {schema : Schema}
    {words : List Word}
    {path : FieldPath} :
    path ∈ schema.candidates words ↔
      ∃ field ∈ schema.fields, path ∈ fieldCandidates field words := by
  obtain ⟨name, fields⟩ := schema
  rw [candidates, mem_longestFirst, mem_fieldsCandidates_iff]

/-- A candidate that starts in a field ends there or goes on in its struct. -/
theorem mem_fieldCandidates_iff
    {field : Field}
    {words : List Word}
    {path : FieldPath} :
    path ∈ fieldCandidates field words ↔
      ∃ count, spelled? field.name.toList words = some count ∧
        (path = ⟨field.storageKey, field.type, count⟩ ∨
          ∃ schema inner, field.nested = some schema ∧
            inner ∈ schema.candidates (words.drop count) ∧
            path = ⟨field.storageKey ++ "." ++ inner.key, inner.type,
              count + inner.consumed⟩) := by
  obtain ⟨name, key, type, nested⟩ := field
  simp only [fieldCandidates]
  cases spelled : spelled? name.toList words with
  | none => simp
  | some count =>
      cases nested with
      | none => simp [nestedCandidates]
      | some schema =>
          simp only [nestedCandidates, List.mem_append, List.mem_map, List.mem_singleton,
            Option.some.injEq]
          constructor
          · rintro (⟨inner, member, rfl⟩ | rfl)
            · exact ⟨count, rfl, Or.inr ⟨schema, inner, rfl, member, rfl⟩⟩
            · exact ⟨count, rfl, Or.inl rfl⟩
          · rintro ⟨_, rfl, rfl | ⟨_, inner, rfl, member, rfl⟩⟩
            · exact Or.inr rfl
            · exact Or.inl ⟨inner, member, rfl⟩

/-- Every candidate comes from a chain of fields that its words spell. -/
theorem exists_through_of_mem_candidates
    {schema : Schema}
    {words : List Word}
    {path : FieldPath}
    (member : path ∈ schema.candidates words) :
    ∃ chain, Through path schema words chain := by
  induction schema using nestedInduction generalizing words path with
  | step schema hypothesis =>
      obtain ⟨field, fieldMember, found⟩ := mem_candidates_iff.mp member
      obtain ⟨count, spelled, ends | continues⟩ := mem_fieldCandidates_iff.mp found
      · subst ends
        obtain ⟨positive, bounded, spelling⟩ := spelled?_eq_some spelled
        have nonempty : words.take count ≠ [] := by
          rw [← List.length_pos_iff, List.length_take_of_le bounded]
          exact positive
        refine ⟨[field], .last fieldMember, by simp, by simp, bounded, ?_⟩
        have alone := Spells.cons nonempty spelling Spells.nil
        rwa [List.append_nil] at alone
      · obtain ⟨nestedSchema, inner, nested, innerMember, rfl⟩ := continues
        obtain ⟨positive, bounded, spelling⟩ := spelled?_eq_some spelled
        obtain ⟨chain, leads, key_eq, type_eq, innerBounded, spells⟩ :=
          hypothesis field fieldMember nestedSchema nested innerMember
        have nonempty : words.take count ≠ [] := by
          rw [← List.length_pos_iff, List.length_take_of_le bounded]
          exact positive
        refine ⟨field :: chain, .into fieldMember nested leads, ?_, ?_, ?_, ?_⟩
        · have further : chain.map FieldOf.storageKey ≠ [] := by simpa using leads.ne_nil
          rw [List.map_cons, String.intercalate_cons_of_ne_nil further, key_eq]
        · rw [List.getLast?_cons_of_ne_nil leads.ne_nil]
          exact type_eq
        · rw [List.length_drop] at innerBounded
          simp only
          omega
        · rw [List.take_add]
          exact Spells.cons nonempty spelling spells

/-- A candidate takes at least one word, and none behind the run. -/
theorem consumed_of_mem_candidates
    {schema : Schema}
    {words : List Word}
    {path : FieldPath}
    (member : path ∈ schema.candidates words) :
    0 < path.consumed ∧ path.consumed ≤ words.length := by
  obtain ⟨chain, through⟩ := exists_through_of_mem_candidates member
  exact ⟨through.consumed_pos, through.bounded⟩

end Schema

namespace FieldPath

/-! ## Resolved runs -/

/-- A single path covers its run and comes from a chain of fields. -/
theorem through_of_resolve
    {schema : Schema}
    {run : List Word}
    {path : FieldPath}
    (resolved : resolve schema run = .ok path) :
    path.consumed = run.length ∧ ∃ chain, Through path schema run chain := by
  unfold resolve at resolved
  split at resolved
  · simp at resolved
  · split at resolved
    · rename_i found
      simp only [Except.ok.injEq] at resolved
      subst resolved
      refine ⟨by simpa using List.find?_some found, ?_⟩
      exact Schema.exists_through_of_mem_candidates (List.mem_of_find?_eq_some found)
    · split at resolved
      · simp at resolved
      · simp at resolved

/-- Paths found one behind the other, up to the end of a run. -/
inductive Covers (schema : Schema) : List Word -> List FieldPath -> Prop
  | nil : Covers schema [] []
  | cons
      {run : List Word}
      {path : FieldPath}
      {paths : List FieldPath}
      (member : path ∈ schema.candidates run)
      (further : Covers schema (run.drop path.consumed) paths) :
      Covers schema run (path :: paths)

theorem Covers.hasPath
    {schema : Schema}
    {run : List Word}
    {paths : List FieldPath}
    (covers : Covers schema run paths) :
    ∀ path ∈ paths, schema.HasPath path.key path.type := by
  induction covers with
  | nil => simp
  | cons member further hypothesis =>
      obtain ⟨chain, through⟩ := Schema.exists_through_of_mem_candidates member
      rw [List.forall_mem_cons]
      exact ⟨through.hasPath, hypothesis⟩

/-- The table of covers holds the cover of every proper suffix. -/
theorem getElem?_covers
    (schema : Schema)
    (run : List Word)
    (index : Nat) :
    (covers schema run).2[index]? =
      if index < run.length then some (cover schema (run.drop (index + 1))) else none := by
  induction run generalizing index with
  | nil => simp [covers]
  | cons word rest hypothesis =>
      simp only [covers]
      cases index with
      | zero => simp [cover]
      | succ index => simp [hypothesis]

theorem covers_of_chooseFirst
    {schema : Schema}
    {run : List Word}
    {later : List Cover}
    {candidates paths : List FieldPath}
    {furthest : Nat}
    (table : ∀ (path : FieldPath) (rest : List FieldPath), path ∈ candidates ->
      later[path.consumed - 1]? = some (.ok rest) ->
        Covers schema (run.drop path.consumed) rest)
    (members : ∀ path ∈ candidates, path ∈ schema.candidates run)
    (chosen : chooseFirst later furthest candidates = .ok paths) :
    Covers schema run paths := by
  induction candidates generalizing furthest with
  | nil => simp [chooseFirst] at chosen
  | cons path others hypothesis =>
      have fewer (path : FieldPath) (rest : List FieldPath) (member : path ∈ others) :=
        table path rest (List.mem_cons_of_mem _ member)
      have othersMembers (path : FieldPath) (member : path ∈ others) :=
        members path (List.mem_cons_of_mem _ member)
      simp only [chooseFirst] at chosen
      split at chosen
      · rename_i rest entry
        simp only [Except.ok.injEq] at chosen
        subst chosen
        exact .cons (members path (by simp)) (table path rest (by simp) entry)
      · exact hypothesis fewer othersMembers chosen
      · exact hypothesis fewer othersMembers chosen

/-- A cover is a row of candidates, each found where the one before it ends. -/
theorem covers_of_cover
    {schema : Schema}
    {run : List Word}
    {paths : List FieldPath}
    (covered : cover schema run = .ok paths) :
    Covers schema run paths := by
  induction length_eq : run.length using Nat.strongRecOn generalizing run paths with
  | ind length hypothesis =>
      cases run with
      | nil =>
          simp only [cover, covers, Except.ok.injEq] at covered
          subst covered
          exact .nil
      | cons word rest =>
          have chosen : chooseFirst (covers schema (word :: rest)).2 0
              (schema.candidates (word :: rest)) = .ok paths := covered
          refine covers_of_chooseFirst ?_ (fun _ member => member) chosen
          intro path others member entry
          obtain ⟨positive, bounded⟩ := Schema.consumed_of_mem_candidates member
          rw [getElem?_covers] at entry
          split at entry
          · simp only [Option.some.injEq, Nat.sub_add_cancel positive] at entry
            refine hypothesis _ ?_ entry rfl
            rw [List.length_drop]
            omega
          · simp at entry

theorem covers_of_resolveAll
    {schema : Schema}
    {run : List Word}
    {paths : List FieldPath}
    (resolved : resolveAll schema run = .ok paths) :
    Covers schema run paths := by
  unfold resolveAll at resolved
  split at resolved
  · simp at resolved
  · split at resolved
    · rename_i covered
      simp only [Except.ok.injEq] at resolved
      subst resolved
      exact covers_of_cover covered
    · simp at resolved

end FieldPath
end DerivedQuery
