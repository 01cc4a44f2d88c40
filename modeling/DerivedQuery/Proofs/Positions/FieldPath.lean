import DerivedQuery.Proofs.FieldReach
import DerivedQuery.Proofs.Positions

/-!
# Covering a run by position

The search for a cover goes from position to position of one run. It keeps a
row with an entry for each word, where it remembers which positions cannot be
covered. Every entry it reads or writes is there, every part it cuts out lies
within the run, and it ends with the cover of the run.
-/

namespace DerivedQuery
namespace Positions

/-! ## Candidates -/

mutual

/-- Every field path that a run starts with, the longest first. -/
def candidates : Schema -> List Word -> Option (List FieldPath)
  | ⟨_, fields⟩, words => do
      let found ← fieldsCandidates fields words
      return FieldPath.longestFirst found
termination_by structural schema => schema

/-- The candidates that start in one of the fields, in schema order. -/
def fieldsCandidates : List (FieldOf Schema) -> List Word -> Option (List FieldPath)
  | [], _ => some []
  | field :: rest, words => do
      let first ← fieldCandidates field words
      let others ← fieldsCandidates rest words
      return first ++ others
termination_by structural fields => fields

/-- The candidates that start in a field, those inside its struct first. -/
def fieldCandidates : FieldOf Schema -> List Word -> Option (List FieldPath)
  | ⟨name, key, type, nested⟩, words =>
      match FieldPath.spelled? name.toList words with
      | none => some []
      | some consumed => do
          let found ← nestedCandidates nested consumed words
          return found.map
              (fun inner =>
                ⟨key ++ "." ++ inner.key, inner.type, consumed + inner.consumed⟩) ++
            [⟨key, type, consumed⟩]
termination_by structural field => field

/-- The candidates inside the struct of a field that takes `consumed` words, if
it holds one. -/
def nestedCandidates : Option Schema -> Nat -> List Word -> Option (List FieldPath)
  | none, _, _ => some []
  | some schema, consumed, words => do
      let behind ← slice? words consumed words.length
      candidates schema behind
termination_by structural nested => nested

end

/-- The words a field name takes lie within the run. -/
theorem fieldCandidates_eq
    {field : Field}
    (inside : ∀ schema, field.nested = some schema ->
      ∀ words, candidates schema words = some (schema.candidates words))
    (words : List Word) :
    fieldCandidates field words = some (Schema.fieldCandidates field words) := by
  obtain ⟨name, key, type, nested⟩ := field
  rw [fieldCandidates, Schema.fieldCandidates]
  cases spelled : FieldPath.spelled? name.toList words with
  | none => rfl
  | some consumed =>
      obtain ⟨-, within, -⟩ := FieldPath.spelled?_eq_some spelled
      cases nested with
      | none => rfl
      | some schema =>
          simp only [nestedCandidates, slice?_from within, Schema.nestedCandidates,
            inside schema rfl, Option.bind_eq_bind, Option.bind_some]
          rfl

theorem fieldsCandidates_eq
    {fields : List Field}
    {words : List Word}
    (each : ∀ field ∈ fields,
      fieldCandidates field words = some (Schema.fieldCandidates field words)) :
    fieldsCandidates fields words = some (Schema.fieldsCandidates fields words) := by
  induction fields with
  | nil => rfl
  | cons field rest hypothesis =>
      rw [List.forall_mem_cons] at each
      rw [fieldsCandidates, Schema.fieldsCandidates, each.1, hypothesis each.2]
      rfl

theorem candidates_eq
    (schema : Schema)
    (words : List Word) :
    candidates schema words = some (schema.candidates words) := by
  induction schema using Schema.nestedInduction generalizing words with
  | step schema hypothesis =>
      obtain ⟨name, fields⟩ := schema
      rw [candidates, Schema.candidates, fieldsCandidates_eq]
      · rfl
      · intro field member
        exact fieldCandidates_eq (hypothesis field member) words

/-! ## The search -/

/-- For each position of a run how far the attempt got, if the words from there
on could not be covered. -/
abbrev Memory := List (Option Nat)

/-- Remember how far an attempt got, unless the position has no entry. -/
def remember? (failed : Memory) (position furthest : Nat) : Option Memory :=
  if position < failed.length then some (failed.set position (some furthest)) else none

/-- The candidates that start at a position of a run. -/
def candidatesAt (schema : Schema) (words : List Word) (position : Nat) :
    Option (List FieldPath) := do
  let rest ← slice? words position words.length
  candidates schema rest

theorem candidatesAt_of_le
    {schema : Schema}
    {words : List Word}
    {position : Nat}
    (within : position ≤ words.length) :
    candidatesAt schema words position = some (schema.candidates (words.drop position)) := by
  rw [candidatesAt, slice?_from within]
  exact candidates_eq schema _

/-- A candidate takes at least one word, and none behind the run. -/
theorem bounds_of_mem_candidatesAt
    {schema : Schema}
    {words : List Word}
    {position : Nat}
    {found : List FieldPath}
    (found_eq : candidatesAt schema words position = some found)
    {path : FieldPath}
    (member : path ∈ found) :
    0 < path.consumed ∧ position + path.consumed ≤ words.length := by
  unfold candidatesAt slice? at found_eq
  split at found_eq
  · rename_i within
    rw [List.take_of_length_le (Nat.le_of_eq List.length_drop), Option.bind_eq_bind,
      Option.bind_some, candidates_eq, Option.some.injEq] at found_eq
    subst found_eq
    obtain ⟨positive, bounded⟩ := Schema.consumed_of_mem_candidates member
    rw [List.length_drop] at bounded
    exact ⟨positive, by omega⟩
  · cases found_eq

/-- Take the first candidate behind which the run can be covered, with the
memory handed from one to the next. -/
def chooseFrom {found : List FieldPath}
    (coverBehind : {path // path ∈ found} -> Memory -> Option (FieldPath.Cover × Memory))
    (furthest : Nat) :
    List {path // path ∈ found} -> Memory -> Option (FieldPath.Cover × Memory)
  | [], failed => some (.error furthest, failed)
  | path :: others, failed => do
      match ← coverBehind path failed with
      | (.ok rest, failed) => return (.ok (path.1 :: rest), failed)
      | (.error failedAt, failed) =>
          chooseFrom coverBehind (max furthest failedAt) others failed

/-- Cover the words from a position on. A failure is the furthest position that
was reached and at which no field starts. -/
def coverFrom (schema : Schema) (words : List Word) (position : Nat) (failed : Memory) :
    Option (FieldPath.Cover × Memory) :=
  if position = words.length then
    some (.ok [], failed)
  else
    match failed[position]? with
    | none => none
    | some (some furthest) => some (.error furthest, failed)
    | some none =>
        match _candidates : candidatesAt schema words position with
        | none => none
        | some found => do
            let behind := fun path : {path // path ∈ found} =>
              coverFrom schema words (position + path.1.consumed)
            match ← chooseFrom behind position found.attach failed with
            | (.ok paths, failed) => return (.ok paths, failed)
            | (.error furthest, failed) =>
                return (.error furthest, ← remember? failed position furthest)
termination_by words.length - position
decreasing_by
  have bounds := bounds_of_mem_candidatesAt _candidates path.2
  omega

/-- The cover of the words from a position on, its failure as a position. -/
def coverAt (schema : Schema) (words : List Word) (position : Nat) : FieldPath.Cover :=
  (FieldPath.search schema (words.drop position)).mapError (position + ·)

/-- A memory of a run has an entry for each word, and the failures in it are
right. -/
structure Memory.Sound (schema : Schema) (words : List Word) (failed : Memory) : Prop where
  length_eq : failed.length = words.length
  fails : ∀ position furthest, failed[position]? = some (some furthest) ->
    coverAt schema words position = .error furthest

variable {schema : Schema}
variable {words : List Word}
variable {position : Nat}

theorem Memory.sound_replicate (schema : Schema) (words : List Word) :
    Memory.Sound schema words (List.replicate words.length none) := by
  refine ⟨List.length_replicate, ?_⟩
  intro position furthest entry
  rw [List.getElem?_replicate] at entry
  split at entry <;> simp at entry

theorem Memory.Sound.remember
    {failed : Memory}
    {furthest : Nat}
    (sound : failed.Sound schema words)
    (within : position < words.length)
    (fails : coverAt schema words position = .error furthest) :
    ∃ after, remember? failed position furthest = some after ∧
      Memory.Sound schema words after := by
  refine ⟨failed.set position (some furthest), if_pos (sound.length_eq ▸ within),
    List.length_set.trans sound.length_eq, ?_⟩
  intro other otherFurthest entry
  rw [List.getElem?_set] at entry
  split at entry
  · rename_i same
    subst same
    rw [if_pos (sound.length_eq ▸ within), Option.some.injEq, Option.some.injEq] at entry
    rw [fails, entry]
  · exact sound.fails other otherFurthest entry

/-- The cover from one position on is a choice among the candidates there. -/
theorem coverAt_eq_chooseBy
    (within : position < words.length) :
    coverAt schema words position =
      (FieldPath.chooseBy
        (fun path => FieldPath.search schema (words.drop (position + path.consumed))) 0
        (schema.candidates (words.drop position))).mapError (position + ·) := by
  have nonempty : words.drop position ≠ [] := by
    rwa [ne_eq, List.drop_eq_nil_iff, Nat.not_le]
  rw [coverAt, FieldPath.search_eq_chooseBy nonempty]
  simp only [List.drop_drop]

/-- What the search keeps behind each candidate, the choice among them keeps. -/
theorem chooseFrom_eq
    {found : List FieldPath}
    {coverBehind : {path // path ∈ found} -> Memory -> Option (FieldPath.Cover × Memory)}
    (behind : ∀ path, ∀ failed : Memory, failed.Sound schema words ->
      ∃ after, coverBehind path failed =
          some (coverAt schema words (position + path.1.consumed), after) ∧
        Memory.Sound schema words after)
    (paths : List {path // path ∈ found})
    (furthest : Nat)
    {failed : Memory}
    (sound : failed.Sound schema words) :
    ∃ after, chooseFrom coverBehind (position + furthest) paths failed =
        some ((FieldPath.chooseBy
          (fun path => FieldPath.search schema (words.drop (position + path.consumed)))
          furthest (paths.map Subtype.val)).mapError (position + ·), after) ∧
      Memory.Sound schema words after := by
  induction paths generalizing furthest failed with
  | nil => exact ⟨failed, rfl, sound⟩
  | cons path others hypothesis =>
      obtain ⟨after, covered, afterSound⟩ := behind path failed sound
      rw [chooseFrom, covered, coverAt, List.map_cons, FieldPath.chooseBy]
      cases FieldPath.search schema (words.drop (position + path.1.consumed)) with
      | ok rest => exact ⟨after, rfl, afterSound⟩
      | error offset =>
          have furthest_eq : max (position + furthest) (position + path.1.consumed + offset) =
              position + max furthest (path.1.consumed + offset) := by
            omega
          obtain ⟨last, chosen, lastSound⟩ :=
            hypothesis (max furthest (path.1.consumed + offset)) afterSound
          rw [← furthest_eq] at chosen
          exact ⟨last, chosen, lastSound⟩

/-- The search looks up nothing that is not there, and it finds the cover. -/
theorem coverFrom_eq
    (within : position ≤ words.length)
    {failed : Memory}
    (sound : failed.Sound schema words) :
    ∃ after, coverFrom schema words position failed =
        some (coverAt schema words position, after) ∧
      Memory.Sound schema words after := by
  fun_induction coverFrom schema words position failed with
  | case1 failed =>
      rw [coverAt, List.drop_length, FieldPath.search]
      exact ⟨failed, rfl, sound⟩
  | case2 position failed notEnd missing =>
      have inside : position < failed.length :=
        sound.length_eq ▸ Nat.lt_of_le_of_ne within notEnd
      rw [List.getElem?_eq_getElem inside] at missing
      cases missing
  | case3 position failed notEnd furthest entry =>
      exact ⟨failed, by rw [sound.fails position furthest entry], sound⟩
  | case4 position failed notEnd entry missing =>
      rw [candidatesAt_of_le within] at missing
      cases missing
  | case5 position failed notEnd entry found found_eq coverBehind hypothesis =>
      have behind (path : {path // path ∈ found}) (failed : Memory)
          (sound : failed.Sound schema words) :=
        hypothesis path failed (bounds_of_mem_candidatesAt found_eq path.2).2 sound
      obtain ⟨after, chosen, afterSound⟩ := chooseFrom_eq behind found.attach 0 sound
      have inside : position < words.length := Nat.lt_of_le_of_ne within notEnd
      obtain rfl := Option.some.inj ((candidatesAt_of_le within).symm.trans found_eq)
      rw [List.attach_map_subtype_val, ← coverAt_eq_chooseBy inside, Nat.add_zero] at chosen
      rw [chosen]
      cases outcome : coverAt schema words position with
      | ok paths => exact ⟨after, rfl, afterSound⟩
      | error furthest =>
          obtain ⟨last, remembered, lastSound⟩ := afterSound.remember inside outcome
          refine ⟨last, ?_, lastSound⟩
          simp only [Option.bind_eq_bind, Option.bind_some, remembered]
          rfl

/-! ## Resolving -/

/-- A search that fails has not left the run. -/
theorem le_length_of_search
    {run : List Word}
    {offset : Nat}
    (failed : FieldPath.search schema run = .error offset) :
    offset ≤ run.length := by
  obtain ⟨greatest, inside⟩ := FieldPath.isGreatest_of_search failed
  exact Nat.le_of_lt (inside offset greatest.1)

/-- Resolve a run into field paths that cover every word. -/
def resolveAll (schema : Schema) (run : List Word) :
    Option (Except ResolveError (List FieldPath)) :=
  if run.isEmpty then
    some (.error .empty)
  else do
    match ← coverFrom schema run 0 (List.replicate run.length none) with
    | (.ok paths, _) => return .ok paths
    | (.error failedAt, _) =>
        let rest ← slice? run failedAt run.length
        return .error (.noMatch (Word.texts rest) (Word.runSpan? rest))

theorem resolveAll_eq
    (schema : Schema)
    (run : List Word) :
    resolveAll schema run = some (FieldPath.resolveAll schema run) := by
  unfold resolveAll FieldPath.resolveAll
  split
  · rfl
  · obtain ⟨after, covered, -⟩ :=
      coverFrom_eq (Nat.zero_le run.length) (Memory.sound_replicate schema run)
    rw [covered, coverAt, List.drop_zero, FieldPath.cover_eq_search]
    cases searched : FieldPath.search schema run with
    | ok paths => rfl
    | error offset =>
        simp only [Except.mapError, Option.bind_eq_bind, Option.bind_some, Nat.zero_add,
          slice?_from (le_length_of_search searched)]
        rfl

/-- Resolve a run that must name exactly one field path. -/
def resolve (schema : Schema) (run : List Word) : Option (Except ResolveError FieldPath) :=
  if run.isEmpty then
    some (.error .empty)
  else do
    let found ← candidates schema run
    match found.find? (·.consumed == run.length) with
    | some path => return .ok path
    | none =>
        match ← resolveAll schema run with
        | .error error => return .error error
        | .ok _ => return .error (.notSingle (Word.texts run) (Word.runSpan? run))

theorem resolve_eq
    (schema : Schema)
    (run : List Word) :
    resolve schema run = some (FieldPath.resolve schema run) := by
  unfold resolve FieldPath.resolve
  split
  · rfl
  · rw [candidates_eq, resolveAll_eq]
    simp only [Option.bind_eq_bind, Option.bind_some]
    cases (schema.candidates run).find? (·.consumed == run.length) with
    | some path => rfl
    | none => cases FieldPath.resolveAll schema run <;> rfl

end Positions
end DerivedQuery
