import DerivedQuery.Proofs.FieldChain

/-!
# Readings of words as chains of fields

A reading takes words for the names of a chain of fields. As long as no word is
empty, the candidates at the front of a run are exactly the readings of its
leading words, each of them once: longer ones first, and among equally long
ones in the order of the positions of their fields.
-/

namespace DerivedQuery
namespace Schema

/-- A chain of fields with the position of each field in its schema. -/
inductive ChainAt : Schema -> List Nat -> List Field -> Prop
  | last
      {schema : Schema}
      {index : Nat}
      {field : Field}
      (found : schema.fields[index]? = some field) :
      ChainAt schema [index] [field]
  | into
      {schema inner : Schema}
      {index : Nat}
      {field : Field}
      {indices : List Nat}
      {chain : List Field}
      (found : schema.fields[index]? = some field)
      (nested : field.nested = some inner)
      (further : ChainAt inner indices chain) :
      ChainAt schema (index :: indices) (field :: chain)

namespace ChainAt

variable {schema : Schema}
variable {indices : List Nat}
variable {chain : List Field}

theorem toChain (leads : ChainAt schema indices chain) : schema.Chain chain := by
  induction leads with
  | last found => exact .last (List.mem_of_getElem? found)
  | into found nested further hypothesis =>
      exact .into (List.mem_of_getElem? found) nested hypothesis

theorem indices_ne_nil (leads : ChainAt schema indices chain) : indices ≠ [] := by
  cases leads with
  | last found => simp
  | into found nested further => simp

/-- A chain starts at a position of the schema. -/
theorem exists_head (leads : ChainAt schema indices chain) :
    ∃ index, indices.head? = some index ∧ index < schema.fields.length := by
  cases leads with
  | last found => exact ⟨_, rfl, (List.getElem?_eq_some_iff.mp found).1⟩
  | into found nested further => exact ⟨_, rfl, (List.getElem?_eq_some_iff.mp found).1⟩

/-- The positions tell the fields. -/
theorem unique
    {otherChain : List Field}
    (leads : ChainAt schema indices chain)
    (other : ChainAt schema indices otherChain) :
    chain = otherChain := by
  induction leads generalizing otherChain with
  | last found =>
      cases other with
      | last otherFound =>
          rw [found, Option.some.injEq] at otherFound
          rw [otherFound]
      | into otherFound nested further => exact absurd rfl further.indices_ne_nil
  | into found nested further hypothesis =>
      cases other with
      | last otherFound => exact absurd rfl further.indices_ne_nil
      | into otherFound otherNested otherFurther =>
          rw [found, Option.some.injEq] at otherFound
          subst otherFound
          rw [nested, Option.some.injEq] at otherNested
          subst otherNested
          rw [hypothesis otherFurther]

end ChainAt

theorem Chain.exists_chainAt
    {schema : Schema}
    {chain : List Field}
    (leads : schema.Chain chain) :
    ∃ indices, schema.ChainAt indices chain := by
  induction leads with
  | last member =>
      obtain ⟨index, found⟩ := List.mem_iff_getElem?.mp member
      exact ⟨[index], .last found⟩
  | into member nested further hypothesis =>
      obtain ⟨index, found⟩ := List.mem_iff_getElem?.mp member
      obtain ⟨indices, leads⟩ := hypothesis
      exact ⟨index :: indices, .into found nested leads⟩

theorem candidates_eq
    (schema : Schema)
    (words : List Word) :
    schema.candidates words =
      FieldPath.longestFirst (fieldsCandidates schema.fields words) := by
  obtain ⟨name, fields⟩ := schema
  rw [candidates]

theorem fieldCandidates_of_none
    {field : Field}
    {words : List Word}
    (counted : FieldPath.spelled? field.name.toList words = none) :
    fieldCandidates field words = [] := by
  obtain ⟨name, key, type, nested⟩ := field
  simp only [fieldCandidates, counted]

theorem fieldCandidates_of_some
    {field : Field}
    {words : List Word}
    {count : Nat}
    (counted : FieldPath.spelled? field.name.toList words = some count) :
    fieldCandidates field words =
      (nestedCandidates field.nested (words.drop count)).map (fun inner =>
        ⟨field.storageKey ++ "." ++ inner.key, inner.type, count + inner.consumed⟩) ++
        [⟨field.storageKey, field.type, count⟩] := by
  obtain ⟨name, key, type, nested⟩ := field
  simp only [fieldCandidates, counted]

end Schema

namespace FieldPath

/-! ## Spelled names -/

theorem afterText_append (text remaining : List Char) :
    afterText text (text ++ remaining) = some remaining := by
  induction text with
  | nil => rfl
  | cons char text hypothesis => simp [afterText, hypothesis]

/-- Words that spell a name are found as such, whatever follows them. -/
theorem spelled?_append
    {run : List Word}
    (texts : ∀ word ∈ run, word.text ≠ "")
    (nonempty : run ≠ [])
    (rest : List Word) :
    spelled? (run.flatMap (·.text.toList)) (run ++ rest) = some run.length := by
  induction run with
  | nil => exact absurd rfl nonempty
  | cons word others hypothesis =>
      rw [List.forall_mem_cons] at texts
      simp only [List.cons_append, List.flatMap_cons, spelled?, afterText_append]
      cases others with
      | nil => rfl
      | cons next further =>
          have start : next.text.toList ≠ [] := by
            rw [ne_eq, String.toList_eq_nil_iff]
            exact texts.2 next (by simp)
          have found := hypothesis texts.2 (by simp)
          split
          · rename_i impossible
            simp at impossible
          · rename_i remaining
            simp [start] at remaining
          · rename_i remaining _ remaining_eq
            rw [Option.some.injEq] at remaining_eq
            rw [← remaining_eq, found]
            rfl

theorem Spells.ne_nil
    {fields : List Field}
    {run : List Word}
    (spells : Spells fields run)
    (named : fields ≠ []) :
    run ≠ [] := by
  cases spells with
  | nil => exact absurd rfl named
  | cons nonempty spelled further => simp [nonempty]

/-! ## Readings -/

/-- A row of words read as the names of a chain of fields. -/
structure Reading (schema : Schema) where
  /-- The position of each field, the first in the schema itself. -/
  indices : List Nat
  chain : List Field
  words : List Word
  leads : schema.ChainAt indices chain
  spells : Spells chain words

namespace Reading

variable {schema : Schema}

theorem chain_ne_nil (reading : Reading schema) : reading.chain ≠ [] :=
  reading.leads.toChain.ne_nil

theorem words_ne_nil (reading : Reading schema) : reading.words ≠ [] :=
  reading.spells.ne_nil reading.chain_ne_nil

/-- The field path that a reading stands for. -/
def path (reading : Reading schema) : FieldPath where
  key := ".".intercalate (reading.chain.map FieldOf.storageKey)
  type := (reading.chain.getLast reading.chain_ne_nil).type
  consumed := reading.words.length

@[simp] theorem path_consumed (reading : Reading schema) :
    reading.path.consumed = reading.words.length := rfl

/-- Readings of the same words through the same positions are the same. -/
theorem eq_of_indices
    {reading other : Reading schema}
    (indices_eq : reading.indices = other.indices)
    (words_eq : reading.words = other.words) :
    reading = other := by
  obtain ⟨indices, chain, words, leads, spells⟩ := reading
  obtain ⟨otherIndices, otherChain, otherWords, otherLeads, otherSpells⟩ := other
  simp only at indices_eq words_eq
  subst indices_eq words_eq
  obtain rfl := leads.unique otherLeads
  rfl

section

variable {index : Nat}
variable {field : Field}
variable {run : List Word}

/-- The reading of words as the name of a single field. -/
def last
    (found : schema.fields[index]? = some field)
    (nonempty : run ≠ [])
    (spelled : run.flatMap (·.text.toList) = field.name.toList) :
    Reading schema where
  indices := [index]
  chain := [field]
  words := run
  leads := .last found
  spells := by
    have alone := Spells.cons nonempty spelled Spells.nil
    rwa [List.append_nil] at alone

/-- A reading in the struct of a field, with words for the name of that field in
front of it. -/
def into
    {inner : Schema}
    (found : schema.fields[index]? = some field)
    (nested : field.nested = some inner)
    (nonempty : run ≠ [])
    (spelled : run.flatMap (·.text.toList) = field.name.toList)
    (further : Reading inner) :
    Reading schema where
  indices := index :: further.indices
  chain := field :: further.chain
  words := run ++ further.words
  leads := .into found nested further.leads
  spells := .cons nonempty spelled further.spells

theorem path_last
    (found : schema.fields[index]? = some field)
    (nonempty : run ≠ [])
    (spelled : run.flatMap (·.text.toList) = field.name.toList) :
    (last found nonempty spelled).path = ⟨field.storageKey, field.type, run.length⟩ := by
  simp [path, last]

theorem path_into
    {inner : Schema}
    (found : schema.fields[index]? = some field)
    (nested : field.nested = some inner)
    (nonempty : run ≠ [])
    (spelled : run.flatMap (·.text.toList) = field.name.toList)
    (further : Reading inner) :
    (into found nested nonempty spelled further).path =
      ⟨field.storageKey ++ "." ++ further.path.key, further.path.type,
        run.length + further.path.consumed⟩ := by
  have keys : further.chain.map FieldOf.storageKey ≠ [] := by simpa using further.chain_ne_nil
  simp [path, into, String.intercalate_cons_of_ne_nil keys, List.getLast_cons further.chain_ne_nil]

end

/-- A reading starts with words for the name of its first field, and ends there
or goes on in the struct of that field. -/
theorem eq_last_or_into
    (reading : Reading schema)
    {index : Nat}
    {field : Field}
    (found : schema.fields[index]? = some field)
    (starts : reading.indices.head? = some index) :
    ∃ (run : List Word) (nonempty : run ≠ [])
      (spelled : run.flatMap (·.text.toList) = field.name.toList),
      run <+: reading.words ∧
        (reading = last found nonempty spelled ∨
          ∃ (inner : Schema) (nested : field.nested = some inner) (further : Reading inner),
            reading = into found nested nonempty spelled further) := by
  obtain ⟨indices, chain, words, leads, spells⟩ := reading
  cases leads with
  | last otherFound =>
      rw [List.head?_cons, Option.some.injEq] at starts
      subst starts
      obtain rfl := Option.some.inj (otherFound.symm.trans found)
      cases spells with
      | @cons _ _ run rest nonempty spelled further =>
          cases further with
          | nil =>
              exact ⟨run, nonempty, spelled, List.prefix_append run [],
                .inl (eq_of_indices rfl (List.append_nil run))⟩
  | @into _ inner _ _ indices chain otherFound nested further =>
      rw [List.head?_cons, Option.some.injEq] at starts
      subst starts
      obtain rfl := Option.some.inj (otherFound.symm.trans found)
      cases spells with
      | @cons _ _ run rest nonempty spelled spellsFurther =>
          exact ⟨run, nonempty, spelled, List.prefix_append run rest,
            .inr ⟨inner, nested, ⟨indices, chain, rest, further, spellsFurther⟩, rfl⟩⟩

/-! ## The order of readings -/

/-- The order in which readings are tried: longer ones first, and among equally
long ones by the positions of their fields. -/
def Before (reading other : Reading schema) : Prop :=
  other.words.length < reading.words.length ∨
    reading.words.length = other.words.length ∧ reading.indices < other.indices

/-- Equally long readings stand in the order of their positions. -/
def Steady (reading other : Reading schema) : Prop :=
  reading.words.length = other.words.length -> reading.indices < other.indices

theorem before_of_steady
    {reading other : Reading schema}
    (steady : Steady reading other)
    (longer : other.words.length ≤ reading.words.length) :
    Before reading other := by
  rcases Nat.lt_or_eq_of_le longer with shorter | same
  · exact .inl shorter
  · exact .inr ⟨same.symm, steady same.symm⟩

theorem Before.length_le
    {reading other : Reading schema}
    (before : Before reading other) :
    other.words.length ≤ reading.words.length := by
  rcases before with shorter | ⟨same, -⟩
  · exact Nat.le_of_lt shorter
  · exact Nat.le_of_eq same.symm

theorem Before.asymm
    {reading other : Reading schema}
    (before : Before reading other) :
    ¬ Before other reading := by
  rintro (shorter | ⟨same, earlier⟩)
  · exact absurd before.length_le (Nat.not_le_of_lt shorter)
  · rcases before with shorter | ⟨-, later⟩
    · omega
    · exact List.lt_asymm later earlier

/-- A reading goes in front of those that are no longer, where the order by
positions lets it. -/
theorem exists_map_path_eq_insertByLength
    (reading : Reading schema)
    {readings : List (Reading schema)}
    (steady : ∀ other ∈ readings, Steady reading other)
    (sorted : readings.Pairwise Before) :
    ∃ inserted : List (Reading schema),
      inserted.map path = insertByLength reading.path (readings.map path) ∧
      inserted.Pairwise Before ∧
      ∀ other, other ∈ inserted ↔ other = reading ∨ other ∈ readings := by
  induction readings with
  | nil => exact ⟨[reading], by simp [insertByLength], by simp, by simp⟩
  | cons head rest hypothesis =>
      rw [List.forall_mem_cons] at steady
      rw [List.pairwise_cons] at sorted
      by_cases longer : head.words.length ≤ reading.words.length
      · refine ⟨reading :: head :: rest, by simp [insertByLength, longer], ?_, by simp⟩
        refine .cons ?_ (.cons sorted.1 sorted.2)
        intro other member
        rcases List.mem_cons.mp member with rfl | inRest
        · exact before_of_steady steady.1 longer
        · exact before_of_steady (steady.2 other inRest)
            (Nat.le_trans (sorted.1 other inRest).length_le longer)
      · obtain ⟨inserted, map_eq, pairwise, members⟩ := hypothesis steady.2 sorted.2
        refine ⟨head :: inserted, by simp [insertByLength, longer, map_eq], ?_, ?_⟩
        · refine .cons ?_ pairwise
          intro other member
          rcases (members other).mp member with rfl | inRest
          · exact .inl (Nat.lt_of_not_le longer)
          · exact sorted.1 other inRest
        · intro other
          rw [List.mem_cons, members, List.mem_cons]
          exact or_left_comm

/-- Sorting by length turns the order by positions into the order in which
readings are tried. -/
theorem exists_map_path_eq_longestFirst
    {readings : List (Reading schema)}
    (steady : readings.Pairwise Steady) :
    ∃ sorted : List (Reading schema),
      sorted.map path = longestFirst (readings.map path) ∧
      sorted.Pairwise Before ∧
      ∀ reading, reading ∈ sorted ↔ reading ∈ readings := by
  induction steady with
  | nil => exact ⟨[], rfl, .nil, by simp⟩
  | @cons reading readings steady _ hypothesis =>
      obtain ⟨sorted, map_eq, pairwise, members⟩ := hypothesis
      obtain ⟨inserted, inserted_eq, insertedPairwise, insertedMembers⟩ :=
        exists_map_path_eq_insertByLength reading
          (fun other member => steady other ((members other).mp member)) pairwise
      refine ⟨inserted, ?_, insertedPairwise, ?_⟩
      · rw [inserted_eq, map_eq]
        rfl
      · intro other
        rw [insertedMembers, members, List.mem_cons]

/-! ## The readings behind the candidates -/

/-- The candidates of a run are the readings of its leading words, in the order
in which they are tried. -/
def Enumerated (schema : Schema) (words : List Word) : Prop :=
  ∃ readings : List (Reading schema),
    readings.map path = schema.candidates words ∧
    readings.Pairwise Before ∧
    ∀ reading, reading ∈ readings ↔ reading.words <+: words

/-- The words that spell a name at the front of a run are the words counted
there. -/
theorem spelled?_of_isPrefix
    {words run : List Word}
    {name : List Char}
    (texts : ∀ word ∈ words, word.text ≠ "")
    (nonempty : run ≠ [])
    (spelled : run.flatMap (·.text.toList) = name)
    (isFront : run <+: words) :
    spelled? name words = some run.length := by
  obtain ⟨rest, rfl⟩ := isFront
  rw [← spelled]
  exact spelled?_append (fun word member => texts word (by simp [member])) nonempty rest

/-- The readings that start in a field and go on in its struct. -/
theorem exists_map_path_eq_nestedCandidates
    {index : Nat}
    {field : Field}
    {run rest : List Word}
    (found : schema.fields[index]? = some field)
    (nonempty : run ≠ [])
    (spelled : run.flatMap (·.text.toList) = field.name.toList)
    (further : ∀ inner, field.nested = some inner -> Enumerated inner rest) :
    ∃ readings : List (Reading schema),
      readings.map path =
        (Schema.nestedCandidates field.nested rest).map (fun inner =>
          ⟨field.storageKey ++ "." ++ inner.key, inner.type, run.length + inner.consumed⟩) ∧
      readings.Pairwise Steady ∧
      ∀ reading, reading ∈ readings ↔
        ∃ (inner : Schema) (nested : field.nested = some inner) (deeper : Reading inner),
          deeper.words <+: rest ∧ reading = into found nested nonempty spelled deeper := by
  rcases Option.eq_none_or_eq_some field.nested with none | ⟨inner, nested⟩
  · exact ⟨[], by simp [none, Schema.nestedCandidates], .nil, by simp [none]⟩
  · obtain ⟨readings, map_eq, sorted, members⟩ := further inner nested
    refine ⟨readings.map (into found nested nonempty spelled), ?_, ?_, ?_⟩
    · rw [nested, Schema.nestedCandidates, ← map_eq, List.map_map, List.map_map]
      exact List.map_congr_left fun reading _ => path_into found nested nonempty spelled reading
    · rw [List.pairwise_map]
      refine sorted.imp ?_
      rintro reading other (shorter | ⟨-, earlier⟩) same
      · simp only [into, List.length_append] at same
        omega
      · exact List.Lex.cons earlier
    · intro reading
      rw [List.mem_map]
      constructor
      · rintro ⟨deeper, member, rfl⟩
        exact ⟨inner, nested, deeper, (members deeper).mp member, rfl⟩
      · rintro ⟨_, same, deeper, isFront, rfl⟩
        obtain rfl := Option.some.inj (nested.symm.trans same)
        exact ⟨deeper, (members deeper).mpr isFront, rfl⟩

/-- The readings that start in a field whose name a run starts with. -/
theorem exists_map_path_eq_of_spelled
    {index : Nat}
    {field : Field}
    {run rest : List Word}
    (found : schema.fields[index]? = some field)
    (texts : ∀ word ∈ run ++ rest, word.text ≠ "")
    (nonempty : run ≠ [])
    (spelled : run.flatMap (·.text.toList) = field.name.toList)
    (further : ∀ inner, field.nested = some inner -> Enumerated inner rest) :
    ∃ readings : List (Reading schema),
      readings.map path = Schema.fieldCandidates field (run ++ rest) ∧
      readings.Pairwise Steady ∧
      ∀ reading, reading ∈ readings ↔
        reading.words <+: run ++ rest ∧ reading.indices.head? = some index := by
  have counted := spelled?_of_isPrefix texts nonempty spelled (List.prefix_append run rest)
  obtain ⟨nestedReadings, map_eq, steady, members⟩ :=
    exists_map_path_eq_nestedCandidates found nonempty spelled further
  refine ⟨nestedReadings ++ [last found nonempty spelled], ?_, ?_, ?_⟩
  · rw [Schema.fieldCandidates_of_some counted, List.drop_left, List.map_append, map_eq,
      List.map_singleton, path_last]
  · rw [List.pairwise_append]
    refine ⟨steady, List.pairwise_singleton _ _, ?_⟩
    -- What goes on in the struct is longer than the name alone.
    intro reading member other otherMember same
    obtain ⟨inner, nested, deeper, -, rfl⟩ := (members reading).mp member
    rw [List.mem_singleton] at otherMember
    subst otherMember
    have behind := List.length_pos_iff.mpr deeper.words_ne_nil
    simp only [into, last, List.length_append] at same
    omega
  · intro reading
    rw [List.mem_append, members, List.mem_singleton]
    constructor
    · rintro (⟨inner, nested, deeper, isFront, rfl⟩ | rfl)
      · exact ⟨(List.prefix_append_right_inj run).mpr isFront, rfl⟩
      · exact ⟨List.prefix_append run rest, rfl⟩
    · rintro ⟨isFront, starts⟩
      obtain ⟨otherRun, otherNonempty, otherSpelled, front, shape⟩ :=
        reading.eq_last_or_into found starts
      have otherCounted :=
        spelled?_of_isPrefix texts otherNonempty otherSpelled (front.trans isFront)
      rw [counted, Option.some.injEq] at otherCounted
      obtain rfl : run = otherRun :=
        (List.prefix_of_prefix_length_le (List.prefix_append run rest) (front.trans isFront)
          (Nat.le_of_eq otherCounted)).eq_of_length otherCounted
      rcases shape with rfl | ⟨inner, nested, deeper, rfl⟩
      · exact .inr rfl
      · exact .inl ⟨inner, nested, deeper, (List.prefix_append_right_inj run).mp isFront, rfl⟩

/-- The readings that start in a field. -/
theorem exists_map_path_eq_fieldCandidates
    {index : Nat}
    {field : Field}
    {words : List Word}
    (found : schema.fields[index]? = some field)
    (texts : ∀ word ∈ words, word.text ≠ "")
    (further : ∀ inner, field.nested = some inner ->
      ∀ rest : List Word, rest <:+ words -> Enumerated inner rest) :
    ∃ readings : List (Reading schema),
      readings.map path = Schema.fieldCandidates field words ∧
      readings.Pairwise Steady ∧
      ∀ reading, reading ∈ readings ↔
        reading.words <+: words ∧ reading.indices.head? = some index := by
  cases counted : spelled? field.name.toList words with
  | none =>
      refine ⟨[], by simp [Schema.fieldCandidates_of_none counted], .nil, fun reading => ?_⟩
      rw [iff_false_left List.not_mem_nil]
      rintro ⟨isFront, starts⟩
      obtain ⟨run, nonempty, spelled, front, -⟩ := reading.eq_last_or_into found starts
      rw [spelled?_of_isPrefix texts nonempty spelled (front.trans isFront)] at counted
      simp at counted
  | some count =>
      obtain ⟨positive, bounded, spelling⟩ := spelled?_eq_some counted
      have nonempty : words.take count ≠ [] := by
        rw [← List.length_pos_iff, List.length_take_of_le bounded]
        exact positive
      rw [← List.take_append_drop count words] at texts further ⊢
      exact exists_map_path_eq_of_spelled found texts nonempty spelling
        fun inner nested => further inner nested _ (List.suffix_append _ _)

theorem lt_of_head
    {indices others : List Nat}
    {index other : Nat}
    (starts : indices.head? = some index)
    (otherStarts : others.head? = some other)
    (lower : index < other) :
    indices < others := by
  obtain ⟨rest, rfl⟩ := List.head?_eq_some_iff.mp starts
  obtain ⟨otherRest, rfl⟩ := List.head?_eq_some_iff.mp otherStarts
  exact List.Lex.rel lower

/-- The readings that start in one of the last fields of a schema. -/
theorem exists_map_path_eq_fieldsCandidates
    {words : List Word}
    {before fields : List Field}
    (fields_eq : schema.fields = before ++ fields)
    (texts : ∀ word ∈ words, word.text ≠ "")
    (further : ∀ field ∈ fields, ∀ inner, field.nested = some inner ->
      ∀ rest : List Word, rest <:+ words -> Enumerated inner rest) :
    ∃ readings : List (Reading schema),
      readings.map path = Schema.fieldsCandidates fields words ∧
      readings.Pairwise Steady ∧
      ∀ reading, reading ∈ readings ↔
        reading.words <+: words ∧ ∀ index ∈ reading.indices.head?, before.length ≤ index := by
  induction fields generalizing before with
  | nil =>
      refine ⟨[], rfl, .nil, fun reading => ?_⟩
      rw [iff_false_left List.not_mem_nil]
      rintro ⟨-, late⟩
      obtain ⟨index, starts, inside⟩ := reading.leads.exists_head
      have bound := late index starts
      rw [fields_eq, List.append_nil] at inside
      omega
  | cons field rest hypothesis =>
      rw [List.forall_mem_cons] at further
      have found : schema.fields[before.length]? = some field := by simp [fields_eq]
      obtain ⟨own, own_eq, ownSteady, ownMembers⟩ :=
        exists_map_path_eq_fieldCandidates found texts further.1
      have next : schema.fields = (before ++ [field]) ++ rest := by simp [fields_eq]
      obtain ⟨others, others_eq, othersSteady, othersMembers⟩ := hypothesis next further.2
      rw [List.length_append, List.length_singleton] at othersMembers
      refine ⟨own ++ others, ?_, ?_, ?_⟩
      · rw [List.map_append, own_eq, others_eq, Schema.fieldsCandidates]
      · rw [List.pairwise_append]
        refine ⟨ownSteady, othersSteady, ?_⟩
        intro reading member other otherMember _
        have starts := ((ownMembers reading).mp member).2
        obtain ⟨index, otherStarts, -⟩ := other.leads.exists_head
        have late := ((othersMembers other).mp otherMember).2 index otherStarts
        exact lt_of_head starts otherStarts late
      · intro reading
        obtain ⟨index, starts, -⟩ := reading.leads.exists_head
        rw [List.mem_append, ownMembers, othersMembers, ← and_or_left, starts]
        simp only [Option.mem_def, Option.some.injEq, forall_eq']
        refine and_congr_right fun _ => ?_
        omega

/-- The candidates at the front of a run are the readings of its leading
words. -/
theorem enumerated
    (schema : Schema)
    {words : List Word}
    (texts : ∀ word ∈ words, word.text ≠ "") :
    Enumerated schema words := by
  induction schema using Schema.nestedInduction generalizing words with
  | step schema hypothesis =>
      have whole : schema.fields = [] ++ schema.fields := rfl
      obtain ⟨readings, map_eq, steady, members⟩ :=
        exists_map_path_eq_fieldsCandidates whole texts fun field member inner nested rest isEnd =>
          hypothesis field member inner nested fun word inRest => texts word (isEnd.subset inRest)
      obtain ⟨sorted, sorted_eq, pairwise, sortedMembers⟩ :=
        exists_map_path_eq_longestFirst steady
      refine ⟨sorted, ?_, pairwise, ?_⟩
      · rw [sorted_eq, map_eq, Schema.candidates_eq]
      · intro reading
        rw [sortedMembers, members]
        simp

end Reading

/-! ## One candidate for each chain -/

/-- Words that are not empty spell the names of a chain at the front of a run in
one way only. -/
theorem Spells.eq_of_isPrefix
    {fields : List Field}
    {words run other : List Word}
    (texts : ∀ word ∈ words, word.text ≠ "")
    (spells : Spells fields run)
    (otherSpells : Spells fields other)
    (isFront : run <+: words)
    (otherIsFront : other <+: words) :
    run = other := by
  induction spells generalizing words other with
  | nil =>
      cases otherSpells with
      | nil => rfl
  | @cons field fields run rest nonempty spelled further hypothesis =>
      cases otherSpells with
      | @cons _ _ otherRun otherRest otherNonempty otherSpelled otherFurther =>
          have front := (List.prefix_append run rest).trans isFront
          have otherFront := (List.prefix_append otherRun otherRest).trans otherIsFront
          have counted := Reading.spelled?_of_isPrefix texts nonempty spelled front
          rw [Reading.spelled?_of_isPrefix texts otherNonempty otherSpelled otherFront,
            Option.some.injEq] at counted
          have shared :=
            List.prefix_of_prefix_length_le otherFront front (Nat.le_of_eq counted)
          obtain rfl := shared.eq_of_length counted
          obtain ⟨behind, rfl⟩ := front
          rw [List.prefix_append_right_inj] at isFront otherIsFront
          rw [hypothesis (fun word member => texts word (by simp [member])) otherFurther isFront
            otherIsFront]

namespace Reading

variable {schema : Schema}
variable {words : List Word}

/-- The positions of its fields tell a reading of leading words. -/
theorem eq_of_indices_of_isPrefix
    {reading other : Reading schema}
    (texts : ∀ word ∈ words, word.text ≠ "")
    (isFront : reading.words <+: words)
    (otherIsFront : other.words <+: words)
    (indices_eq : reading.indices = other.indices) :
    reading = other := by
  refine eq_of_indices indices_eq ?_
  have leads := reading.leads
  rw [indices_eq] at leads
  have spells := reading.spells
  rw [leads.unique other.leads] at spells
  exact spells.eq_of_isPrefix texts other.spells isFront otherIsFront

/-- No two readings in the order in which they are tried go through the same
positions. -/
theorem nodup_map_indices
    {readings : List (Reading schema)}
    (texts : ∀ word ∈ words, word.text ≠ "")
    (fronts : ∀ reading ∈ readings, reading.words <+: words)
    (sorted : readings.Pairwise Before) :
    (readings.map indices).Nodup := by
  rw [List.Nodup, List.pairwise_map]
  refine sorted.imp_of_mem ?_
  intro reading other member otherMember before same
  obtain rfl := eq_of_indices_of_isPrefix texts (fronts reading member) (fronts other otherMember)
    same
  exact before.asymm before

end Reading

/-- The candidates at the front of a run are the paths of the chains of fields
whose names its leading words spell. Each chain, told by the positions of its
fields, has one candidate, which takes one word at least. Candidates that take
more words stand in front, and those that take as many stand in the order of the
positions. -/
theorem candidates_enumerate_chains
    (schema : Schema)
    (words : List Word)
    (texts : ∀ word ∈ words, word.text ≠ "") :
    ∃ readings : List (Reading schema),
      schema.candidates words = readings.map Reading.path ∧
      (∀ reading : Reading schema, reading ∈ readings ↔ reading.words <+: words) ∧
      (readings.map Reading.indices).Nodup ∧
      (∀ path ∈ schema.candidates words, 1 ≤ path.consumed ∧ path.consumed ≤ words.length) ∧
      readings.Pairwise Reading.Before := by
  obtain ⟨readings, map_eq, sorted, members⟩ := Reading.enumerated schema texts
  have distinct := Reading.nodup_map_indices texts (fun reading => (members reading).mp) sorted
  exact ⟨readings, map_eq.symm, members, distinct,
    fun path member => Schema.consumed_of_mem_candidates member, sorted⟩

/-- `User Name` fits the name of a field in a struct and those of two fields
outside it, and both `User` and `User Name Tag` fit as well. -/
theorem candidates_enumerate_chains_same_name :
    let person : Schema := ⟨"Person", [⟨"Name", "name", .ident "string", none⟩,
      ⟨"NameTag", "tag", .ident "int", none⟩]⟩
    let schema : Schema := ⟨"Entry", [⟨"UserName", "new", .ident "string", none⟩,
      ⟨"User", "user", .ident "Person", some person⟩,
      ⟨"UserName", "old", .ident "string", none⟩]⟩
    let words : List Word := [⟨"User", ⟨0, 4⟩⟩, ⟨"Name", ⟨4, 8⟩⟩, ⟨"Tag", ⟨8, 11⟩⟩]
    (∀ word ∈ words, word.text ≠ "") ∧
      ∃ readings : List (Reading schema),
        readings.map Reading.path = [⟨"user.tag", .ident "int", 3⟩, ⟨"new", .ident "string", 2⟩,
          ⟨"user.name", .ident "string", 2⟩, ⟨"old", .ident "string", 2⟩,
          ⟨"user", .ident "Person", 1⟩] ∧
        (∀ reading : Reading schema, reading ∈ readings ↔ reading.words <+: words) ∧
        (readings.map Reading.indices).Nodup ∧
        readings.Pairwise Reading.Before := by
  intro person schema words
  have texts : ∀ word ∈ words, word.text ≠ "" := by decide
  obtain ⟨readings, candidates_eq, members, distinct, -, sorted⟩ :=
    candidates_enumerate_chains schema words texts
  refine ⟨texts, readings, ?_, members, distinct, sorted⟩
  rw [← candidates_eq]
  decide +kernel

end FieldPath
end DerivedQuery
