import DerivedQuery.Proofs.FieldCut
import Mathlib.Order.Bounds.Defs

/-!
# How far field paths reach

From the front of a run one field path may be taken, another from where it ends,
and so on. A run that cannot be resolved is blamed from the furthest word on that
can be reached in this way, whatever was tried first and whatever was remembered
of it. Words without text are allowed here: a name takes as few words as spell
it.
-/

namespace DerivedQuery
namespace FieldPath

/-! ## Names at the front of a run -/

/-- The first words of a run spell a name, one of them at least and no fewer of
them. -/
structure FewestSpell (name : List Char) (run : List Word) (count : Nat) : Prop where
  positive : 0 < count
  bounded : count ≤ run.length
  spelled : (run.take count).flatMap (·.text.toList) = name
  fewest : ∀ fewer, 0 < fewer -> fewer < count ->
    (run.take fewer).flatMap (·.text.toList) ≠ name

theorem FewestSpell.exists_eq_append
    {name : List Char}
    {word : Word}
    {rest : List Word}
    {count : Nat}
    (spells : FewestSpell name (word :: rest) count) :
    ∃ remaining, name = word.text.toList ++ remaining := by
  obtain ⟨behind, rfl⟩ := Nat.exists_eq_succ_of_ne_zero spells.positive.ne'
  have spelled := spells.spelled
  rw [List.take_succ_cons, List.flatMap_cons] at spelled
  exact ⟨_, spelled.symm⟩

/-- The first word spells the whole name, or the words behind it spell what
remains. -/
theorem fewestSpell_cons_iff
    {remaining : List Char}
    {word : Word}
    {rest : List Word}
    {count : Nat} :
    FewestSpell (word.text.toList ++ remaining) (word :: rest) count ↔
      (remaining = [] ∧ count = 1) ∨
        (remaining ≠ [] ∧ ∃ behind, FewestSpell remaining rest behind ∧ count = behind + 1) := by
  constructor
  · rintro ⟨positive, bounded, spelled, fewest⟩
    obtain ⟨behind, rfl⟩ := Nat.exists_eq_succ_of_ne_zero positive.ne'
    rw [List.take_succ_cons, List.flatMap_cons, List.append_cancel_left_eq] at spelled
    rcases Nat.eq_zero_or_pos behind with rfl | behindPositive
    · exact .inl ⟨spelled.symm, rfl⟩
    · refine .inr ⟨?_, behind, ⟨behindPositive, Nat.le_of_succ_le_succ bounded, spelled, ?_⟩, rfl⟩
      · rintro rfl
        exact fewest 1 Nat.one_pos (Nat.succ_lt_succ behindPositive) (by simp)
      · intro fewer _ less same
        refine fewest (fewer + 1) (Nat.succ_pos fewer) (Nat.succ_lt_succ less) ?_
        rw [List.take_succ_cons, List.flatMap_cons, same]
  · rintro (⟨rfl, rfl⟩ | ⟨more, behind, ⟨-, bounded, spelled, fewest⟩, rfl⟩)
    · exact ⟨Nat.one_pos, by simp, by simp, by omega⟩
    · refine ⟨Nat.succ_pos behind, Nat.succ_le_succ bounded, ?_, ?_⟩
      · rw [List.take_succ_cons, List.flatMap_cons, spelled]
      · intro fewer positive less
        obtain ⟨fewer, rfl⟩ := Nat.exists_eq_succ_of_ne_zero positive.ne'
        rw [List.take_succ_cons, List.flatMap_cons, ne_eq, List.append_cancel_left_eq]
        rcases Nat.eq_zero_or_pos fewer with rfl | fewerPositive
        · exact more.symm
        · exact fewest fewer fewerPositive (Nat.lt_of_succ_lt_succ less)

/-- The words counted for a name are the fewest that spell it. -/
theorem spelled?_eq_some_iff
    {name : List Char}
    {run : List Word}
    {count : Nat} :
    spelled? name run = some count ↔ FewestSpell name run count := by
  induction run generalizing name count with
  | nil =>
      refine iff_of_false (by simp [spelled?]) ?_
      rintro ⟨positive, bounded, -, -⟩
      exact absurd bounded (Nat.not_le_of_lt positive)
  | cons word rest hypothesis =>
      cases after : afterText word.text.toList name with
      | none =>
          refine iff_of_false (by simp [spelled?, after]) ?_
          intro spells
          obtain ⟨remaining, rfl⟩ := spells.exists_eq_append
          rw [afterText_append] at after
          cases after
      | some remaining =>
          obtain rfl := eq_append_of_afterText after
          rw [fewestSpell_cons_iff]
          cases remaining with
          | nil =>
              rw [spelled?, after]
              simp [eq_comm]
          | cons char others =>
              rw [spelled?, after]
              simp only [Option.map_eq_some_iff, hypothesis]
              simp [eq_comm]

/-- The names of a row of fields stand at the front of a run, each of them behind
the one before it. -/
inductive NamesInFront : List Field -> List Word -> Nat -> Prop
  | nil {run : List Word} : NamesInFront [] run 0
  | cons
      {field : Field}
      {fields : List Field}
      {run : List Word}
      {count behind : Nat}
      (spells : FewestSpell field.name.toList run count)
      (further : NamesInFront fields (run.drop count) behind) :
      NamesInFront (field :: fields) run (count + behind)

end FieldPath

namespace Schema

open FieldPath

/-- Candidates take as many words as the names of chains of fields do at the front
of the run. -/
theorem exists_candidate_iff
    {schema : Schema}
    {run : List Word}
    {count : Nat} :
    (∃ path ∈ schema.candidates run, path.consumed = count) ↔
      ∃ chain, schema.Chain chain ∧ NamesInFront chain run count := by
  constructor
  · rintro ⟨path, member, rfl⟩
    induction schema using nestedInduction generalizing run path with
    | step schema hypothesis =>
        obtain ⟨field, fieldMember, found⟩ := mem_candidates_iff.mp member
        obtain ⟨count, counted, rfl | ⟨inner, path, nested, innerMember, rfl⟩⟩ :=
          mem_fieldCandidates_iff.mp found
        · exact ⟨[field], .last fieldMember, .cons (spelled?_eq_some_iff.mp counted) .nil⟩
        · obtain ⟨chain, leads, names⟩ :=
            hypothesis field fieldMember inner nested path innerMember
          exact ⟨field :: chain, .into fieldMember nested leads,
            .cons (spelled?_eq_some_iff.mp counted) names⟩
  · rintro ⟨chain, leads, names⟩
    induction leads generalizing run count with
    | last member =>
        obtain _ | ⟨spells, ⟨⟩⟩ := names
        exact ⟨_, mem_candidates_iff.mpr ⟨_, member, mem_fieldCandidates_iff.mpr
          ⟨_, spelled?_eq_some_iff.mpr spells, .inl rfl⟩⟩, rfl⟩
    | into member nested further hypothesis =>
        obtain _ | ⟨spells, names⟩ := names
        obtain ⟨path, pathMember, rfl⟩ := hypothesis names
        exact ⟨_, mem_candidates_iff.mpr ⟨_, member, mem_fieldCandidates_iff.mpr
          ⟨_, spelled?_eq_some_iff.mpr spells, .inr ⟨_, path, nested, pathMember, rfl⟩⟩⟩, rfl⟩

end Schema

namespace FieldPath

/-! ## Offsets that can be reached -/

/-- Field paths taken one behind the other from the front of a run lead to an
offset. -/
inductive Reaches (schema : Schema) : List Word -> Nat -> Prop
  | start {run : List Word} : Reaches schema run 0
  | step
      {run : List Word}
      {chain : List Field}
      {count offset : Nat}
      (leads : schema.Chain chain)
      (names : NamesInFront chain run count)
      (further : Reaches schema (run.drop count) offset) :
      Reaches schema run (count + offset)

variable {schema : Schema}
variable {run : List Word}

theorem reaches_iff
    {offset : Nat} :
    Reaches schema run offset ↔
      offset = 0 ∨ ∃ path ∈ schema.candidates run, ∃ further,
        Reaches schema (run.drop path.consumed) further ∧ offset = path.consumed + further := by
  constructor
  · intro reaches
    cases reaches with
    | start => exact .inl rfl
    | step leads names reaches =>
        obtain ⟨path, member, rfl⟩ := Schema.exists_candidate_iff.mpr ⟨_, leads, names⟩
        exact .inr ⟨path, member, _, reaches, rfl⟩
  · rintro (rfl | ⟨path, member, further, reaches, rfl⟩)
    · exact .start
    · obtain ⟨chain, leads, names⟩ := Schema.exists_candidate_iff.mp ⟨path, member, rfl⟩
      exact .step leads names reaches

/-- A choice that fails has failed behind every candidate, and it got as far as
the furthest attempt. -/
theorem chooseBy_eq_error
    {coverBehind : FieldPath -> Cover}
    {paths : List FieldPath}
    {start furthest : Nat}
    (failed : chooseBy coverBehind start paths = .error furthest) :
    start ≤ furthest ∧
      (∀ path ∈ paths, ∃ offset, coverBehind path = .error offset ∧
        path.consumed + offset ≤ furthest) ∧
      (furthest = start ∨ ∃ path ∈ paths, ∃ offset, coverBehind path = .error offset ∧
        furthest = path.consumed + offset) := by
  induction paths generalizing start with
  | nil =>
      obtain rfl := Except.error.inj failed
      exact ⟨Nat.le_refl _, by simp, .inl rfl⟩
  | cons path others hypothesis =>
      rw [chooseBy] at failed
      cases behind : coverBehind path with
      | ok rest =>
          rw [behind] at failed
          cases failed
      | error offset =>
          rw [behind] at failed
          obtain ⟨atLeast, each, attained⟩ := hypothesis failed
          obtain ⟨startLe, attemptLe⟩ := Nat.max_le.mp atLeast
          refine ⟨startLe, List.forall_mem_cons.mpr ⟨⟨offset, behind, attemptLe⟩, each⟩, ?_⟩
          rcases attained with furthest_eq | ⟨other, member, otherAttained⟩
          · rcases Nat.le_total start (path.consumed + offset) with further | notFurther
            · rw [Nat.max_eq_right further] at furthest_eq
              exact .inr ⟨path, List.mem_cons_self, offset, behind, furthest_eq⟩
            · rw [Nat.max_eq_left notFurther] at furthest_eq
              exact .inl furthest_eq
          · exact .inr ⟨other, List.mem_cons_of_mem _ member, otherAttained⟩

/-- A search that fails ends at the furthest offset that can be reached, and the
end of the run cannot. -/
theorem isGreatest_of_search
    {furthest : Nat}
    (failed : search schema run = .error furthest) :
    IsGreatest {offset | Reaches schema run offset} furthest ∧
      ∀ offset, Reaches schema run offset -> offset < run.length := by
  induction length_eq : run.length using Nat.strongRecOn generalizing run furthest with
  | ind length hypothesis =>
      have nonempty : run ≠ [] := by
        rintro rfl
        rw [search] at failed
        cases failed
      rw [search_eq_chooseBy nonempty] at failed
      obtain ⟨-, each, attained⟩ := chooseBy_eq_error failed
      -- Behind a candidate the search has failed on fewer words.
      have behind (path : FieldPath) (member : path ∈ schema.candidates run) (offset : Nat)
          (failed : search schema (run.drop path.consumed) = .error offset) :
          IsGreatest {offset | Reaches schema (run.drop path.consumed) offset} offset ∧
            ∀ further, Reaches schema (run.drop path.consumed) further ->
              path.consumed + further < length := by
        obtain ⟨positive, bounded⟩ := Schema.consumed_of_mem_candidates member
        have fewer : (run.drop path.consumed).length = length - path.consumed := by
          rw [List.length_drop, length_eq]
        obtain ⟨greatest, inside⟩ := hypothesis _ (by omega) failed rfl
        refine ⟨greatest, fun further reaches => ?_⟩
        have within := inside further reaches
        omega
      have bounds (offset : Nat) (reaches : Reaches schema run offset) :
          offset ≤ furthest ∧ offset < length := by
        rcases reaches_iff.mp reaches with rfl | ⟨path, member, further, reachesBehind, rfl⟩
        · exact ⟨Nat.zero_le _, length_eq ▸ List.length_pos_iff.mpr nonempty⟩
        · obtain ⟨reached, failedBehind, reachedLe⟩ := each path member
          obtain ⟨greatest, inside⟩ := behind path member reached failedBehind
          have furtherLe : further ≤ reached := greatest.2 reachesBehind
          exact ⟨by omega, inside further reachesBehind⟩
      have attains : Reaches schema run furthest := by
        rcases attained with rfl | ⟨path, member, offset, failedBehind, rfl⟩
        · exact .start
        · exact reaches_iff.mpr
            (.inr ⟨path, member, offset, (behind path member offset failedBehind).1.1, rfl⟩)
      exact ⟨⟨attains, fun offset reaches => (bounds offset reaches).1⟩,
        fun offset reaches => (bounds offset reaches).2⟩

/-! ## The word that is blamed -/

theorem resolveAll_eq_error
    {error : ResolveError}
    (nonempty : run ≠ [])
    (fails : resolveAll schema run = .error error) :
    ∃ offset, search schema run = .error offset ∧
      error = .noMatch (Word.texts (run.drop offset)) (Word.runSpan? (run.drop offset)) := by
  rw [resolveAll, if_neg (by simpa using nonempty), cover_eq_search] at fails
  cases searched : search schema run with
  | ok paths =>
      rw [searched] at fails
      cases fails
  | error offset =>
      rw [searched] at fails
      exact ⟨offset, rfl, (Except.error.inj fails).symm⟩

/-- A run that does not resolve is blamed from the furthest word on that field
paths lead to, and none lead to its end. The search gets as far without the table
of covers and with a memory of failures. -/
theorem resolveAll_blames_furthest
    (schema : Schema)
    (run : List Word)
    (error : ResolveError)
    (nonempty : run ≠ [])
    (fails : resolveAll schema run = .error error) :
    ∃ furthest,
      IsGreatest {offset | Reaches schema run offset} furthest ∧
      (∀ offset, Reaches schema run offset -> offset < run.length) ∧
      error = .noMatch (Word.texts (run.drop furthest)) (Word.runSpan? (run.drop furthest)) ∧
      cover schema run = .error furthest ∧
      search schema run = .error furthest ∧
      (searchRemembering schema run fun _ => none).1 = .error furthest := by
  obtain ⟨furthest, searched, error_eq⟩ := resolveAll_eq_error nonempty fails
  obtain ⟨greatest, inside⟩ := isGreatest_of_search searched
  have remembered := (searchRemembering_eq_search List.suffix_rfl
    (Failures.sound_none schema run)).1
  exact ⟨furthest, greatest, inside, error_eq, (cover_eq_search schema run).trans searched,
    searched, remembered.trans searched⟩

/-- `Name Hello` is tried first and nothing starts with `There`. Behind `Name` alone
the words up to `Zz` can be read, so `Zz` is blamed. -/
theorem resolveAll_blames_furthest_second_attempt :
    let schema : Schema := ⟨"Entry", [⟨"Name", "name", .ident "string", none⟩,
      ⟨"NameHello", "nameHello", .ident "string", none⟩,
      ⟨"HelloThere", "helloThere", .ident "string", none⟩]⟩
    let run := Word.segment "NameHelloThereZz"
    resolveAll schema run = .error (.noMatch ["Zz"] (some ⟨14, 16⟩)) ∧
      IsGreatest {offset | Reaches schema run offset} 3 := by
  intro schema run
  have covered : cover schema run = .error 3 := by decide +kernel
  have fails : resolveAll schema run = .error (.noMatch ["Zz"] (some ⟨14, 16⟩)) := by
    decide +kernel
  obtain ⟨furthest, greatest, -, -, same, -⟩ :=
    resolveAll_blames_furthest schema run _ (by decide +kernel) fails
  obtain rfl := Except.error.inj (covered.symm.trans same)
  exact ⟨fails, greatest⟩

end FieldPath
end DerivedQuery
