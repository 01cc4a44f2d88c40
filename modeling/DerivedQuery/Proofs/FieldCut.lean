import DerivedQuery.Word.Segmentation
import DerivedQuery.Proofs.Binding
import DerivedQuery.Proofs.FieldReading
import Mathlib.Algebra.GroupWithZero.Nat
import Mathlib.Data.List.Lex
import Mathlib.Logic.Function.Basic

/-!
# Cuts of a run

A cut divides a run into readings that follow one another. Cuts are compared
reading by reading, in the order in which readings are tried. A run resolves to
field paths exactly if it can be cut, and the paths are those of its first cut.
The table of covers only saves work: the search that explores every suffix
anew gives the same answer, and so does the one that remembers which suffixes
it has failed on.
-/

namespace DerivedQuery
namespace FieldPath

/-! ## The search without a table -/

/-- The first candidate that has a cover behind it, with that cover. -/
def chooseBy (coverBehind : FieldPath -> Cover) (furthest : Nat) : List FieldPath -> Cover
  | [] => .error furthest
  | path :: others =>
      match coverBehind path with
      | .ok rest => .ok (path :: rest)
      | .error offset => chooseBy coverBehind (max furthest (path.consumed + offset)) others

/-- The search for a cover that explores every suffix whenever it comes to
it. -/
def search (schema : Schema) : List Word -> Cover
  | [] => .ok []
  | word :: rest =>
      chooseBy (fun path => search schema (rest.drop (path.consumed - 1))) 0
        (schema.candidates (word :: rest))
termination_by run => run.length
decreasing_by
  rw [List.length_drop, List.length_cons]
  omega

theorem search_cons
    (schema : Schema)
    (word : Word)
    (rest : List Word) :
    search schema (word :: rest) =
      chooseBy (fun path => search schema (rest.drop (path.consumed - 1))) 0
        (schema.candidates (word :: rest)) := by
  rw [search]

theorem chooseBy_congr
    {coverBehind otherBehind : FieldPath -> Cover}
    {paths : List FieldPath}
    (same : ∀ path ∈ paths, coverBehind path = otherBehind path)
    (furthest : Nat) :
    chooseBy coverBehind furthest paths = chooseBy otherBehind furthest paths := by
  induction paths generalizing furthest with
  | nil => rfl
  | cons path others hypothesis =>
      rw [List.forall_mem_cons] at same
      rw [chooseBy, chooseBy, same.1]
      simp only [hypothesis same.2]

/-- The search goes on behind each candidate. -/
theorem search_eq_chooseBy
    {schema : Schema}
    {run : List Word}
    (nonempty : run ≠ []) :
    search schema run =
      chooseBy (fun path => search schema (run.drop path.consumed)) 0
        (schema.candidates run) := by
  obtain ⟨word, rest, rfl⟩ := List.exists_cons_of_ne_nil nonempty
  rw [search_cons]
  apply chooseBy_congr
  intro path member
  obtain ⟨positive, -⟩ := Schema.consumed_of_mem_candidates member
  obtain ⟨count, count_eq⟩ := Nat.exists_eq_succ_of_ne_zero positive.ne'
  rw [count_eq]
  rfl

theorem chooseFirst_eq_chooseBy
    {later : List Cover}
    {coverBehind : FieldPath -> Cover}
    {paths : List FieldPath}
    (table : ∀ path ∈ paths, later[path.consumed - 1]? = some (coverBehind path))
    (furthest : Nat) :
    chooseFirst later furthest paths = chooseBy coverBehind furthest paths := by
  induction paths generalizing furthest with
  | nil => rfl
  | cons path others hypothesis =>
      rw [List.forall_mem_cons] at table
      rw [chooseFirst, chooseBy, table.1]
      cases coverBehind path with
      | ok rest => rfl
      | error offset => exact hypothesis table.2 _

theorem cover_cons
    (schema : Schema)
    (word : Word)
    (rest : List Word) :
    cover schema (word :: rest) =
      chooseBy (fun path => cover schema (rest.drop (path.consumed - 1))) 0
        (schema.candidates (word :: rest)) := by
  apply chooseFirst_eq_chooseBy
  intro path member
  obtain ⟨positive, bounded⟩ := Schema.consumed_of_mem_candidates member
  have entry := getElem?_covers schema (word :: rest) (path.consumed - 1)
  rwa [if_pos (by omega), List.drop_succ_cons] at entry

/-- The table of covers does not change the answer of the search. -/
theorem cover_eq_search
    (schema : Schema)
    (run : List Word) :
    cover schema run = search schema run := by
  fun_induction search schema run with
  | case1 => rfl
  | case2 word rest hypothesis =>
      rw [cover_cons]
      exact chooseBy_congr (fun path _ => hypothesis path) 0

/-! ## The search with a memory of failures -/

/-- How far the attempts got on the suffixes that could not be covered, by the
number of words of the suffix. -/
abbrev Failures := Nat -> Option Nat

/-- Choose among candidates, with the memory handed from one to the next. -/
def chooseRemembering (coverBehind : FieldPath -> Failures -> Cover × Failures)
    (furthest : Nat) : List FieldPath -> Failures -> Cover × Failures
  | [], failed => (.error furthest, failed)
  | path :: others, failed =>
      match coverBehind path failed with
      | (.ok rest, failed) => (.ok (path :: rest), failed)
      | (.error offset, failed) =>
          chooseRemembering coverBehind (max furthest (path.consumed + offset)) others failed

/-- The search that gives up at once on a suffix it has failed on before. -/
def searchRemembering (schema : Schema) : List Word -> Failures -> Cover × Failures
  | [], failed => (.ok [], failed)
  | word :: rest, failed =>
      match failed (rest.length + 1) with
      | some offset => (.error offset, failed)
      | none =>
          match chooseRemembering
            (fun path => searchRemembering schema (rest.drop (path.consumed - 1))) 0
            (schema.candidates (word :: rest)) failed with
          | (.ok paths, failed) => (.ok paths, failed)
          | (.error offset, failed) =>
              (.error offset, Function.update failed (rest.length + 1) (some offset))
termination_by run => run.length
decreasing_by
  rw [List.length_drop, List.length_cons]
  omega

/-- Every remembered failure is one of the search without memory. -/
def Failures.Sound (schema : Schema) (run : List Word) (failed : Failures) : Prop :=
  ∀ suffix offset, suffix <:+ run -> failed suffix.length = some offset ->
    search schema suffix = .error offset

theorem Failures.sound_none
    (schema : Schema)
    (run : List Word) :
    Failures.Sound schema run fun _ => none := by
  intro suffix offset isEnd remembered
  cases remembered

theorem Failures.Sound.update
    {schema : Schema}
    {run suffix : List Word}
    {failed : Failures}
    {offset : Nat}
    (sound : failed.Sound schema run)
    (isEnd : suffix <:+ run)
    (fails : search schema suffix = .error offset) :
    Failures.Sound schema run (Function.update failed suffix.length (some offset)) := by
  intro other otherOffset otherIsEnd remembered
  by_cases same : other.length = suffix.length
  · rw [same, Function.update_self, Option.some.injEq] at remembered
    have other_eq : other = suffix :=
      (List.suffix_of_suffix_length_le otherIsEnd isEnd (Nat.le_of_eq same)).eq_of_length same
    rw [other_eq, fails, remembered]
  · rw [Function.update_of_ne same] at remembered
    exact sound other otherOffset otherIsEnd remembered

/-- What a step of the search with memory keeps, the choice among candidates
keeps. -/
theorem chooseRemembering_eq_chooseBy
    {schema : Schema}
    {run : List Word}
    {remembering : FieldPath -> Failures -> Cover × Failures}
    {coverBehind : FieldPath -> Cover}
    (step : ∀ path failed, Failures.Sound schema run failed ->
      (remembering path failed).1 = coverBehind path ∧
        Failures.Sound schema run (remembering path failed).2)
    (paths : List FieldPath)
    (furthest : Nat)
    {failed : Failures}
    (sound : failed.Sound schema run) :
    (chooseRemembering remembering furthest paths failed).1 =
        chooseBy coverBehind furthest paths ∧
      Failures.Sound schema run (chooseRemembering remembering furthest paths failed).2 := by
  induction paths generalizing furthest failed with
  | nil => exact ⟨rfl, sound⟩
  | cons path others hypothesis =>
      obtain ⟨answer_eq, after⟩ := step path failed sound
      rw [chooseRemembering, chooseBy, ← answer_eq]
      generalize remembering path failed = outcome at after ⊢
      obtain ⟨offset | rest, failedBehind⟩ := outcome
      · exact hypothesis _ after
      · exact ⟨rfl, after⟩

/-- Neither does the memory of failures change the answer, and what is added to
it is sound. -/
theorem searchRemembering_eq_search
    {schema : Schema}
    {run suffix : List Word}
    {failed : Failures}
    (isEnd : suffix <:+ run)
    (sound : failed.Sound schema run) :
    (searchRemembering schema suffix failed).1 = search schema suffix ∧
      Failures.Sound schema run (searchRemembering schema suffix failed).2 := by
  induction length_eq : suffix.length using Nat.strongRecOn generalizing suffix failed with
  | ind length hypothesis =>
      cases suffix with
      | nil =>
          rw [searchRemembering, search]
          exact ⟨rfl, sound⟩
      | cons word rest =>
          rw [searchRemembering]
          cases remembered : failed (rest.length + 1) with
          | some offset => exact ⟨(sound (word :: rest) offset isEnd remembered).symm, sound⟩
          | none =>
              have step (path : FieldPath) (failed : Failures) (sound : failed.Sound schema run) :
                  (searchRemembering schema (rest.drop (path.consumed - 1)) failed).1 =
                      search schema (rest.drop (path.consumed - 1)) ∧
                    Failures.Sound schema run
                      (searchRemembering schema (rest.drop (path.consumed - 1)) failed).2 := by
                refine hypothesis _ ?_ ?_ sound rfl
                · rw [← length_eq, List.length_drop, List.length_cons]
                  omega
                · exact (List.drop_suffix _ _).trans ((List.suffix_cons _ _).trans isEnd)
              obtain ⟨answer_eq, after⟩ :=
                chooseRemembering_eq_chooseBy step (schema.candidates (word :: rest)) 0 sound
              rw [← search_cons] at answer_eq
              generalize chooseRemembering _ 0 _ failed = outcome at answer_eq after ⊢
              obtain ⟨offset | paths, failedBehind⟩ := outcome
              · exact ⟨answer_eq, after.update isEnd answer_eq.symm⟩
              · exact ⟨answer_eq, after⟩

/-! ## Cuts -/

variable {schema : Schema}

/-- Readings that take the words of a run one after the other. -/
def Cuts (cut : List (Reading schema)) (run : List Word) : Prop :=
  cut.flatMap Reading.words = run

/-- The cut of a run that comes first when cuts are compared reading by
reading. -/
structure FirstCut (run : List Word) (cut : List (Reading schema)) : Prop where
  cuts : Cuts cut run
  first : ∀ other : List (Reading schema), Cuts other run ->
    other = cut ∨ List.Lex Reading.Before cut other

/-- Some cut takes the words of the run. -/
def Cuttable (schema : Schema) (run : List Word) : Prop :=
  ∃ cut : List (Reading schema), Cuts cut run

theorem cuts_nil_iff {cut : List (Reading schema)} : Cuts cut [] ↔ cut = [] := by
  constructor
  · intro cuts
    cases cut with
    | nil => rfl
    | cons reading others =>
        rw [Cuts, List.flatMap_cons, List.append_eq_nil_iff] at cuts
        exact absurd cuts.1 reading.words_ne_nil
  · rintro rfl
    rfl

theorem cuts_cons_iff
    {reading : Reading schema}
    {others : List (Reading schema)}
    {run : List Word} :
    Cuts (reading :: others) run ↔
      reading.words <+: run ∧ Cuts others (run.drop reading.words.length) := by
  rw [Cuts, Cuts, List.flatMap_cons]
  constructor
  · rintro rfl
    exact ⟨List.prefix_append _ _, List.drop_left.symm⟩
  · rintro ⟨⟨rest, rfl⟩, others_eq⟩
    rw [others_eq, List.drop_left]

theorem Cuts.exists_cons
    {cut : List (Reading schema)}
    {run : List Word}
    (cuts : Cuts cut run)
    (nonempty : run ≠ []) :
    ∃ reading others, cut = reading :: others := by
  cases cut with
  | nil => exact absurd cuts.symm nonempty
  | cons reading others => exact ⟨reading, others, rfl⟩

instance : Std.Asymm (@Reading.Before schema) :=
  ⟨fun _ _ before => before.asymm⟩

theorem firstCut_nil : FirstCut [] ([] : List (Reading schema)) :=
  ⟨rfl, fun _ cuts => .inl (cuts_nil_iff.mp cuts)⟩

/-- Nothing comes before the first cut, so there is only one. -/
theorem FirstCut.unique
    {run : List Word}
    {cut other : List (Reading schema)}
    (first : FirstCut run cut)
    (otherFirst : FirstCut run other) :
    cut = other := by
  rcases first.first other otherFirst.cuts with same | before
  · exact same.symm
  · rcases otherFirst.first cut first.cuts with same | after
    · exact same
    · exact absurd after (Std.Asymm.asymm _ _ before)

theorem FirstCut.cons
    {run : List Word}
    {reading : Reading schema}
    {others : List (Reading schema)}
    (isFront : reading.words <+: run)
    (behind : FirstCut (run.drop reading.words.length) others)
    (earliest : ∀ other : Reading schema, other.words <+: run ->
      Cuttable schema (run.drop other.words.length) -> other = reading ∨ reading.Before other) :
    FirstCut run (reading :: others) := by
  have cuts : Cuts (reading :: others) run := cuts_cons_iff.mpr ⟨isFront, behind.cuts⟩
  refine ⟨cuts, ?_⟩
  intro cut otherCuts
  obtain ⟨other, rest, rfl⟩ := otherCuts.exists_cons (isFront.ne_nil reading.words_ne_nil)
  obtain ⟨otherIsFront, restCuts⟩ := cuts_cons_iff.mp otherCuts
  rcases earliest other otherIsFront ⟨rest, restCuts⟩ with rfl | before
  · rcases behind.first rest restCuts with rfl | later
    · exact .inl rfl
    · exact .inr (.cons later)
  · exact .inr (.rel before)

/-- The right outcome of a search: the paths of the first cut, or a failure if
there is no cut. -/
inductive Answers (schema : Schema) (run : List Word) : Cover -> Prop
  | found
      {cut : List (Reading schema)}
      (first : FirstCut run cut) :
      Answers schema run (.ok (cut.map Reading.path))
  | stuck
      {offset : Nat}
      (uncuttable : ¬ Cuttable schema run) :
      Answers schema run (.error offset)

/-- The choice among readings in their order is right as long as every reading
with a cut behind it is among those still to be tried. -/
theorem answers_chooseBy
    {coverBehind : FieldPath -> Cover}
    {run : List Word}
    {readings : List (Reading schema)}
    (nonempty : run ≠ [])
    (sorted : readings.Pairwise Reading.Before)
    (fronts : ∀ reading ∈ readings, reading.words <+: run)
    (behind : ∀ reading ∈ readings,
      Answers schema (run.drop reading.words.length) (coverBehind reading.path))
    (remaining : ∀ reading : Reading schema, reading.words <+: run ->
      Cuttable schema (run.drop reading.words.length) -> reading ∈ readings)
    (furthest : Nat) :
    Answers schema run (chooseBy coverBehind furthest (readings.map Reading.path)) := by
  induction readings generalizing furthest with
  | nil =>
      refine .stuck ?_
      rintro ⟨cut, cuts⟩
      obtain ⟨reading, rest, rfl⟩ := cuts.exists_cons nonempty
      obtain ⟨isFront, restCuts⟩ := cuts_cons_iff.mp cuts
      exact List.not_mem_nil (remaining reading isFront ⟨rest, restCuts⟩)
  | cons reading others hypothesis =>
      rw [List.pairwise_cons] at sorted
      rw [List.forall_mem_cons] at fronts behind
      rw [List.map_cons, chooseBy]
      generalize coverBehind reading.path = outcome at behind
      cases behind.1 with
      | found first =>
          refine .found (first.cons fronts.1 ?_)
          intro other isFront cuttable
          rcases List.mem_cons.mp (remaining other isFront cuttable) with same | member
          · exact .inl same
          · exact .inr (sorted.1 other member)
      | stuck uncuttable =>
          refine hypothesis sorted.2 fronts.2 behind.2 ?_ _
          intro other isFront cuttable
          rcases List.mem_cons.mp (remaining other isFront cuttable) with rfl | member
          · exact absurd cuttable uncuttable
          · exact member

theorem answers_search
    {run : List Word}
    (texts : ∀ word ∈ run, word.text ≠ "") :
    Answers schema run (search schema run) := by
  fun_induction search schema run with
  | case1 => exact .found firstCut_nil
  | case2 word rest hypothesis =>
      obtain ⟨readings, map_eq, sorted, members⟩ := Reading.enumerated schema texts
      rw [← map_eq]
      refine answers_chooseBy (by simp) sorted (fun reading => (members reading).mp) ?_
        (fun reading isFront _ => (members reading).mpr isFront) 0
      intro reading _
      have positive := List.length_pos_iff.mpr reading.words_ne_nil
      have drop_eq : (word :: rest).drop reading.words.length =
          rest.drop (reading.path.consumed - 1) := by
        obtain ⟨count, count_eq⟩ := Nat.exists_eq_succ_of_ne_zero positive.ne'
        rw [Reading.path_consumed, count_eq]
        rfl
      rw [drop_eq]
      apply hypothesis
      intro other member
      exact texts other (List.mem_cons_of_mem _ (List.mem_of_mem_drop member))

theorem Answers.eq_ok_iff
    {run : List Word}
    {outcome : Cover}
    (answers : Answers schema run outcome)
    (paths : List FieldPath) :
    outcome = .ok paths ↔
      ∃ cut : List (Reading schema), FirstCut run cut ∧ cut.map Reading.path = paths := by
  cases answers with
  | @found cut first =>
      rw [Except.ok.injEq]
      constructor
      · intro paths_eq
        exact ⟨cut, first, paths_eq⟩
      · rintro ⟨other, otherFirst, rfl⟩
        rw [first.unique otherFirst]
  | stuck uncuttable =>
      constructor
      · simp
      · rintro ⟨cut, first, -⟩
        exact absurd ⟨cut, first.cuts⟩ uncuttable

theorem Answers.exists_eq_ok_iff
    {run : List Word}
    {outcome : Cover}
    (answers : Answers schema run outcome) :
    (∃ paths, outcome = .ok paths) ↔ Cuttable schema run := by
  cases answers with
  | @found cut first => exact ⟨fun _ => ⟨cut, first.cuts⟩, fun _ => ⟨_, rfl⟩⟩
  | stuck uncuttable =>
      constructor
      · simp
      · exact fun cuttable => absurd cuttable uncuttable

theorem Cuts.sum_consumed
    {cut : List (Reading schema)}
    {run : List Word}
    (cuts : Cuts cut run) :
    ((cut.map Reading.path).map FieldPath.consumed).sum = run.length := by
  rw [← cuts, List.length_flatMap, List.map_map]
  rfl

/-! ## Resolution -/

theorem resolveAll_eq_ok_iff
    {schema : Schema}
    {run : List Word}
    (nonempty : run ≠ [])
    (paths : List FieldPath) :
    resolveAll schema run = .ok paths ↔ cover schema run = .ok paths := by
  rw [resolveAll, if_neg (by simpa using nonempty)]
  cases cover schema run with
  | ok found => simp
  | error offset => simp

/-- A run of words with non-empty texts resolves exactly if it can be cut into
readings, and then to the paths of its first cut, which take all its words. The
search finds the same cover, or fails at the same word, without the table of
covers and with a memory of failures. -/
theorem resolveAll_first_cut
    (schema : Schema)
    (run : List Word)
    (nonempty : run ≠ [])
    (texts : ∀ word ∈ run, word.text ≠ "") :
    ((∃ paths, resolveAll schema run = .ok paths) ↔
      ∃ cut : List (Reading schema), cut.flatMap Reading.words = run) ∧
    (∀ paths, resolveAll schema run = .ok paths ↔
      ∃ cut : List (Reading schema), FirstCut run cut ∧ cut.map Reading.path = paths) ∧
    (∀ paths, resolveAll schema run = .ok paths ->
      (paths.map FieldPath.consumed).sum = run.length) ∧
    cover schema run = search schema run ∧
    (searchRemembering schema run fun _ => none).1 = search schema run := by
  have answers : Answers schema run (cover schema run) := by
    rw [cover_eq_search]
    exact answers_search texts
  have resolved (paths : List FieldPath) :
      resolveAll schema run = .ok paths ↔
        ∃ cut : List (Reading schema), FirstCut run cut ∧ cut.map Reading.path = paths := by
    rw [resolveAll_eq_ok_iff nonempty, answers.eq_ok_iff]
  refine ⟨?_, resolved, ?_, cover_eq_search schema run, ?_⟩
  · simp only [resolveAll_eq_ok_iff nonempty]
    exact answers.exists_eq_ok_iff
  · intro paths found
    obtain ⟨cut, first, rfl⟩ := (resolved paths).mp found
    exact first.cuts.sum_consumed
  · exact (searchRemembering_eq_search List.suffix_rfl (Failures.sound_none schema run)).1

/-- `User Name` fits two fields of the schema, but then nothing covers `Tag`. -/
theorem resolveAll_first_cut_backtracks :
    let person : Schema := ⟨"Person", [⟨"Name", "name", .ident "string", none⟩]⟩
    let schema : Schema := ⟨"Entry", [⟨"User", "user", .ident "Person", some person⟩,
      ⟨"UserName", "userName", .ident "string", none⟩,
      ⟨"NameTag", "nameTag", .ident "string", none⟩]⟩
    let run := Word.segment "UserNameTag"
    ∃ cut : List (Reading schema), FirstCut run cut ∧
      cut.map Reading.path =
        [⟨"user", .ident "Person", 1⟩, ⟨"nameTag", .ident "string", 2⟩] := by
  intro person schema run
  obtain ⟨-, resolved, -⟩ :=
    resolveAll_first_cut schema run (by decide +kernel) (by decide +kernel)
  refine (resolved _).mp ?_
  apply except_toOption_eq_some_iff.mp
  decide +kernel

end FieldPath
end DerivedQuery
