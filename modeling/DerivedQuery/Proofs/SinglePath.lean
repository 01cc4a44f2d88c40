import DerivedQuery.Proofs.FieldCut

/-!
# One field path or several

Conditions ask for a single field path, projections, sort keys and updates for a
row of them. The first question is answered by a look at the candidates of the
whole run, the second by a search. Candidates stand longest first, so a candidate
for the whole run is the first one the search tries, and both answers agree.
-/

namespace DerivedQuery
namespace FieldPath

variable {schema : Schema}
variable {run : List Word}
variable {path : FieldPath}
variable {paths : List FieldPath}

/-! ## The order of candidates -/

/-- Longer paths stand in front of shorter ones. -/
def LongestFirst (paths : List FieldPath) : Prop :=
  paths.Pairwise fun path other => other.consumed ≤ path.consumed

theorem LongestFirst.insertByLength
    (sorted : LongestFirst paths)
    (path : FieldPath) :
    LongestFirst (insertByLength path paths) := by
  induction sorted with
  | nil => exact List.pairwise_singleton _ path
  | @cons head rest longest sorted hypothesis =>
      rw [FieldPath.insertByLength]
      split
      · rename_i noLonger
        refine .cons ?_ (.cons longest sorted)
        rw [List.forall_mem_cons]
        exact ⟨noLonger, fun other member => Nat.le_trans (longest other member) noLonger⟩
      · rename_i longer
        refine .cons ?_ hypothesis
        intro other member
        rcases mem_insertByLength.mp member with rfl | inRest
        · exact Nat.le_of_not_le longer
        · exact longest other inRest

theorem longestFirst_sorted (paths : List FieldPath) : LongestFirst (longestFirst paths) := by
  induction paths with
  | nil => exact .nil
  | cons path rest hypothesis => exact hypothesis.insertByLength path

theorem longestFirst_candidates
    (schema : Schema)
    (run : List Word) :
    LongestFirst (schema.candidates run) := by
  rw [Schema.candidates_eq]
  exact longestFirst_sorted _

/-- Where no path is longer than the one looked for, it is the first. -/
theorem LongestFirst.exists_eq_cons
    {length : Nat}
    (sorted : LongestFirst paths)
    (bounded : ∀ path ∈ paths, path.consumed ≤ length)
    (found : paths.find? (·.consumed == length) = some path) :
    ∃ others, paths = path :: others := by
  cases sorted with
  | nil => cases found
  | @cons head rest longest sorted =>
      have whole : path.consumed = length := by simpa using List.find?_some found
      rcases List.mem_cons.mp (List.mem_of_find?_eq_some found) with rfl | inRest
      · exact ⟨rest, rfl⟩
      · have headWhole : head.consumed = length :=
          Nat.le_antisymm (bounded head List.mem_cons_self) (whole ▸ longest path inRest)
        rw [List.find?_cons_of_pos (by simpa using headWhole), Option.some.injEq] at found
        exact ⟨rest, by rw [found]⟩

/-! ## A path for the whole run -/

/-- The first path for the whole run, if there is one. -/
def whole? (schema : Schema) (run : List Word) : Option FieldPath :=
  (schema.candidates run).find? (·.consumed == run.length)

theorem resolve_of_whole
    (nonempty : run ≠ [])
    (found : whole? schema run = some path) :
    resolve schema run = .ok path := by
  unfold whole? at found
  rw [resolve, if_neg (by simpa using nonempty), found]

theorem exists_resolve_of_mem
    (nonempty : run ≠ [])
    (member : path ∈ schema.candidates run)
    (whole : path.consumed = run.length) :
    ∃ found, resolve schema run = .ok found := by
  have isSome : (whole? schema run).isSome :=
    List.find?_isSome.mpr ⟨path, member, by simpa using whole⟩
  obtain ⟨found, isFound⟩ := Option.isSome_iff_exists.mp isSome
  exact ⟨found, resolve_of_whole nonempty isFound⟩

/-- The search takes a path for the whole run before all others. -/
theorem resolveAll_of_whole
    (nonempty : run ≠ [])
    (found : whole? schema run = some path) :
    resolveAll schema run = .ok [path] := by
  have bounded (path : FieldPath) (member : path ∈ schema.candidates run) :
      path.consumed ≤ run.length :=
    (Schema.consumed_of_mem_candidates member).2
  obtain ⟨others, candidates_eq⟩ :=
    (longestFirst_candidates schema run).exists_eq_cons bounded found
  have whole : path.consumed = run.length := by simpa using List.find?_some found
  rw [resolveAll_eq_ok_iff nonempty, cover_eq_search, search_eq_chooseBy nonempty, candidates_eq,
    chooseBy, whole, List.drop_length, search]

/-- A single path that covers a run is a path for the whole run. -/
theorem two_le_length_of_covers
    (nonempty : run ≠ [])
    (none : whole? schema run = none)
    (covers : Covers schema run paths) :
    2 ≤ paths.length := by
  cases covers with
  | nil => exact absurd rfl nonempty
  | @cons _ path paths member further =>
      cases paths with
      | cons second others => simp
      | nil =>
          obtain ⟨-, bounded⟩ := Schema.consumed_of_mem_candidates member
          have ends : run.length ≤ path.consumed := by
            generalize behind : run.drop path.consumed = rest at further
            cases further
            exact List.drop_eq_nil_iff.mp behind
          have notWhole := List.find?_eq_none.mp none path member
          exact absurd (Nat.le_antisymm bounded ends) (by simpa using notWhole)

/-! ## Both answers -/

/-- What resolving as a single path and as a row of paths may come to. -/
inductive Outcomes (run : List Word) :
    Except ResolveError FieldPath -> Except ResolveError (List FieldPath) -> Prop
  | single (path : FieldPath) : Outcomes run (.ok path) (.ok [path])
  | several
      {paths : List FieldPath}
      (several : 2 ≤ paths.length) :
      Outcomes run (.error (.notSingle (Word.texts run) (Word.runSpan? run))) (.ok paths)
  | none
      {error : ResolveError}
      (other : ∀ texts span, error ≠ .notSingle texts span) :
      Outcomes run (.error error) (.error error)

theorem outcomes_resolve
    (schema : Schema)
    (run : List Word) :
    Outcomes run (resolve schema run) (resolveAll schema run) := by
  rcases eq_or_ne run [] with rfl | nonempty
  · refine .none ?_
    intro texts span same
    cases same
  cases found : whole? schema run with
  | some path =>
      rw [resolve_of_whole nonempty found, resolveAll_of_whole nonempty found]
      exact .single path
  | none =>
      rw [resolve, if_neg (by simpa using nonempty)]
      unfold whole? at found
      rw [found]
      cases resolved : resolveAll schema run with
      | ok paths =>
          exact .several (two_le_length_of_covers nonempty found (covers_of_resolveAll resolved))
      | error error =>
          refine .none ?_
          rintro texts span rfl
          rw [resolveAll, if_neg (by simpa using nonempty)] at resolved
          split at resolved <;> cases resolved

/-- A run resolves to a single path exactly if the row of paths it resolves to is
that path alone. It is refused for naming several fields, as a whole, exactly if
the row has two paths or more. Any other error is that of both. -/
theorem resolve_agrees_with_resolveAll
    (schema : Schema)
    (run : List Word) :
    (∀ path, resolve schema run = .ok path ↔ resolveAll schema run = .ok [path]) ∧
    (∀ texts span, resolve schema run = .error (.notSingle texts span) ↔
      texts = Word.texts run ∧ span = Word.runSpan? run ∧
        ∃ paths, resolveAll schema run = .ok paths ∧ 2 ≤ paths.length) ∧
    (∀ error, resolveAll schema run = .error error ↔
      resolve schema run = .error error ∧ ∀ texts span, error ≠ .notSingle texts span) := by
  have outcomes := outcomes_resolve schema run
  generalize resolve schema run = one at outcomes
  generalize resolveAll schema run = all at outcomes
  cases outcomes with
  | single path => simp
  | several several => grind
  | none other => grind

end FieldPath
end DerivedQuery
