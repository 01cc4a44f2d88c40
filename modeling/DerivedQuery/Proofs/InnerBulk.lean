import DerivedQuery.Proofs.BracketBalance
import DerivedQuery.Proofs.Positions.Batch

/-!
# The words of an inner Bulk

The words of a Bulk inside a Transaction stand between two brackets, and the
queries among them have brackets of their own. Where the Bulk ends is found by
counting: the bracket in front of its words is the first to be open, and the
Bulk ends as soon as none is. Until then at least one bracket is open, so the
count is never lowered from zero.
-/

namespace DerivedQuery
namespace Brackets

/-! ## Levels -/

/-- How many more brackets a run opens than it closes. -/
def level (run : List Word) : Int :=
  (steps run).count .U - (steps run).count .D

/-- As long as no bracket is closed that was not opened, the depth changes by the
level. -/
theorem level_eq_of_depthBehind
    {depth stop : Nat}
    {run : List Word}
    (counted : depthBehind depth run = some stop) :
    level run = stop - depth := by
  obtain ⟨-, height_eq⟩ := depthBehind_eq_some_iff.mp counted
  unfold level
  omega

/-- The depth is known behind every part that a run starts with. -/
theorem exists_depthBehind_of_isPrefix
    {depth stop : Nat}
    {run part : List Word}
    (counted : depthBehind depth run = some stop)
    (isFront : part <+: run) :
    ∃ middle, depthBehind depth part = some middle := by
  obtain ⟨rest, rfl⟩ := isFront
  rw [depthBehind_append] at counted
  obtain ⟨middle, partCounted, -⟩ := Option.bind_eq_some_iff.mp counted
  exact ⟨middle, partCounted⟩

/-- Behind an opening bracket the level stays positive as long as the depth is
known. -/
theorem level_cons_pos
    {opening : Word}
    {part : List Word}
    {stop : Nat}
    (opens : opening.is .leftBracket)
    (counted : depthBehind 0 part = some stop) :
    0 < level (opening :: part) := by
  have shifted := depthBehind_add counted 1
  rw [← depthBehind_opens opens] at shifted
  rw [level_eq_of_depthBehind shifted]
  omega

/-- A run that is not divided closes no bracket that was opened before it. -/
theorem exists_depthBehind_of_splitClosing
    {depth : Nat}
    {run : List Word}
    (unclosed : splitClosing depth run = none) :
    ∃ stop, depthBehind depth run = some stop := by
  induction run generalizing depth with
  | nil => exact ⟨depth, rfl⟩
  | cons word rest hypothesis =>
      unfold splitClosing at unclosed
      rcases word.bracket_cases with opens | closes | other
      · rw [if_pos opens, Option.map_eq_none_iff] at unclosed
        rw [depthBehind_opens opens]
        exact hypothesis unclosed
      · rw [if_neg (by simp [Word.not_opens_of_closes closes]), if_pos closes] at unclosed
        cases depth with
        | zero => cases unclosed
        | succ depth =>
            rw [Option.map_eq_none_iff] at unclosed
            rw [depthBehind_closes_succ closes]
            exact hypothesis unclosed
      · obtain ⟨noOpening, noClosing⟩ := Word.isBracket_eq_false_iff.mp other
        rw [if_neg (by simp [noOpening]), if_neg (by simp [noClosing]),
          Option.map_eq_none_iff] at unclosed
        rw [depthBehind_other other]
        exact hypothesis unclosed

/-! ## Partners by position -/

section Partners

variable {words inner : List Word}
variable {index stop : Nat}
variable {opening : Word}

/-- The partner of a bracket at a position is the one at which the words behind
the bracket are divided. -/
theorem partners_iff_closesAfter
    (stands : words.drop index = opening :: inner)
    (opens : opening.is .leftBracket) :
    Partners words index stop ↔
      ∃ inside after, ClosesAfter 0 inner inside after ∧ stop = index + 1 + inside.length := by
  obtain ⟨front, rfl, rfl⟩ := Positions.exists_front stands
  constructor
  · rintro ⟨outer, inside, after, other, closing, run_eq, -, closes, balanced, start_eq, rfl⟩
    rw [List.append_assoc] at run_eq
    obtain ⟨rfl, behind⟩ := List.append_inj run_eq start_eq.symm
    obtain ⟨-, rfl⟩ := List.cons.inj behind
    refine ⟨inside, after, ⟨closing, closes, rfl, balanced⟩, ?_⟩
    rw [List.length_append, List.length_cons]
    omega
  · rintro ⟨inside, after, ⟨closing, closes, rfl, balanced⟩, rfl⟩
    refine ⟨front, inside, after, opening, closing, by simp, opens, closes, balanced, rfl, ?_⟩
    rw [List.length_append, List.length_cons]
    omega

/-- A run from a bracket to its partner has nothing open at its end, and something
open behind every shorter part. -/
theorem level_pos_of_isPrefix
    {closing : Word}
    {inside part : List Word}
    (opens : opening.is .leftBracket)
    (balanced : Balanced inside)
    (isFront : part <+: opening :: inside ++ [closing])
    (nonempty : part ≠ [])
    (proper : part ≠ opening :: inside ++ [closing]) :
    0 < level part := by
  obtain ⟨first, rest, rfl⟩ := List.exists_cons_of_ne_nil nonempty
  obtain ⟨rfl, restIsFront⟩ := List.cons_prefix_cons.mp isFront
  rcases List.prefix_concat_iff.mp restIsFront with rfl | shorter
  · exact absurd rfl proper
  · obtain ⟨stop, counted⟩ := exists_depthBehind_of_isPrefix balanced shorter
    exact level_cons_pos opens counted

/-- Up to the partner of the bracket in front of it, or to the end if there is
none, a run never closes more brackets than it opens. -/
theorem level_nonneg_of_isPrefix
    {part : List Word}
    (stands : words.drop index = opening :: inner)
    (opens : opening.is .leftBracket)
    (isFront : part <+: opening :: inner)
    (searched : ∀ close, Partners words index close -> index + part.length ≤ close + 1) :
    0 ≤ level part := by
  cases divided : splitClosing 0 inner with
  | none =>
      obtain ⟨stop, counted⟩ := exists_depthBehind_of_splitClosing divided
      have whole : depthBehind 0 (opening :: inner) = some (stop + 1) := by
        rw [depthBehind_opens opens]
        exact depthBehind_add counted 1
      obtain ⟨middle, partCounted⟩ := exists_depthBehind_of_isPrefix whole isFront
      rw [level_eq_of_depthBehind partCounted]
      omega
  | some parts =>
      have closesAfter := splitClosing_eq_some_iff.mp divided
      have within := searched _
        ((partners_iff_closesAfter stands opens).mpr ⟨_, _, closesAfter, rfl⟩)
      obtain ⟨closing, closes, rfl, balanced⟩ := closesAfter
      have isFrontOfBlock : part <+: opening :: parts.1 ++ [closing] := by
        refine List.prefix_of_prefix_length_le isFront ⟨parts.2, by simp⟩ ?_
        simp only [List.length_append, List.length_cons, List.length_nil]
        omega
      obtain ⟨middle, partCounted⟩ :=
        exists_depthBehind_of_isPrefix (Balanced.wrap opens closes balanced) isFrontOfBlock
      rw [level_eq_of_depthBehind partCounted]
      omega

end Partners
end Brackets

namespace Transaction

open Brackets

section Block

theorem extract_of_slice?
    {α : Type}
    {items part : List α}
    {start stop : Nat}
    (cut : Positions.slice? items start stop = some part) :
    items.extract start stop = part := by
  unfold Positions.slice? at cut
  split at cut
  · exact Option.some.inj cut
  · cases cut

variable {words inner : List Word}
variable {index close : Nat}
variable {bulk bracket : Word}

theorem blockEnd_eq_ok_iff
    (stands : words.drop index = bulk :: bracket :: inner)
    (opens : bracket.is .leftBracket) :
    Positions.blockEnd words index = some (.ok close) ↔ Partners words (index + 1) close := by
  rw [Positions.blockEnd_eq stands opens,
    partners_iff_closesAfter (Positions.drop_succ_of_stands stands) opens]
  simp only [← splitClosing_eq_some_iff]
  cases splitClosing 0 inner with
  | none => simp
  | some parts =>
      obtain ⟨inside, after⟩ := parts
      simp [eq_comm]

/-- The words of an inner Bulk are those between the two brackets, and the words
behind the second one are left. -/
theorem cut_of_partners
    (stands : words.drop index = bulk :: bracket :: inner)
    (opens : bracket.is .leftBracket)
    (partners : Partners words (index + 1) close) :
    StepKind.bulk.cut bulk (bracket :: inner) =
        .ok (words.extract (index + 2) close, words.drop (close + 1)) ∧
      Balanced (words.extract (index + 2) close) ∧
      ∃ closing, words.extract (index + 1) (close + 1) =
        bracket :: words.extract (index + 2) close ++ [closing] := by
  obtain ⟨inside, after, closesAfter, rfl⟩ :=
    (partners_iff_closesAfter (Positions.drop_succ_of_stands stands) opens).mp partners
  have divided := splitClosing_eq_some_iff.mpr closesAfter
  obtain ⟨closing, -, rfl, balanced⟩ := closesAfter
  have behind := Positions.drop_succ_of_stands stands
  have inside_eq : words.extract (index + 2) (index + 1 + 1 + inside.length) = inside :=
    extract_of_slice? (Positions.slice?_behind behind rfl rfl)
  have block_eq : words.extract (index + 1) (index + 1 + 1 + inside.length + 1) =
      bracket :: (inside ++ [closing]) := by
    refine extract_of_slice? (Positions.slice?_of_stands behind (List.append_cons _ _ _) ?_)
    rw [List.length_append, List.length_singleton]
    omega
  have closes : words.drop (index + 1 + 1 + inside.length) = closing :: after := by
    rw [← List.drop_drop, Positions.drop_succ_of_stands behind, List.drop_left]
  rw [inside_eq, block_eq, Positions.drop_succ_of_stands closes]
  refine ⟨?_, balanced, closing, rfl⟩
  simp only [StepKind.cut, if_pos opens, divided]

/-- Without a partner of the first bracket, an inner Bulk is refused from its first
word on. -/
theorem unclosed_of_no_partner
    (stands : words.drop index = bulk :: bracket :: inner)
    (opens : bracket.is .leftBracket)
    (alone : ∀ close, ¬Partners words (index + 1) close) :
    StepKind.bulk.cut bulk (bracket :: inner) =
        .error (Fault.on .bulkUnclosed (bulk :: bracket :: inner)) ∧
      Positions.blockEnd words index =
        some (.error (Fault.on .bulkUnclosed (bulk :: bracket :: inner))) := by
  cases divided : splitClosing 0 inner with
  | none =>
      rw [Positions.blockEnd_eq stands opens]
      simp only [StepKind.cut, if_pos opens, divided, and_self]
  | some parts =>
      refine absurd ?_ (alone (index + 1 + 1 + parts.1.length))
      exact (partners_iff_closesAfter (Positions.drop_succ_of_stands stands) opens).mpr
        ⟨_, _, splitClosing_eq_some_iff.mp divided, rfl⟩

end Block

/-- The search for the end of an inner Bulk, behind whose first word a bracket
opens, returns a position exactly if the partner of that bracket stands there. Then
the Bulk consists of the words between the two, they are balanced, and a bracket is
open behind each part that goes from the first bracket to a word in front of its
partner. Without a partner the Bulk is refused. The count of open brackets does not
fall below zero on any word that is looked at. -/
theorem inner_bulk_delimited
    (words : List Word)
    (index : Nat)
    (bulk bracket : Word)
    (starts : words[index]? = some bulk)
    (follows : words[index + 1]? = some bracket)
    (opens : bracket.is .leftBracket) :
    (∀ close, Positions.blockEnd words index = some (.ok close) ↔
      Partners words (index + 1) close) ∧
    (∀ close, Partners words (index + 1) close ->
      StepKind.bulk.cut bulk (words.drop (index + 1)) =
          .ok (words.extract (index + 2) close, words.drop (close + 1)) ∧
        Balanced (words.extract (index + 2) close) ∧
        ∀ part, part <+: words.extract (index + 1) (close + 1) -> part ≠ [] ->
          part ≠ words.extract (index + 1) (close + 1) -> 0 < level part) ∧
    ((∀ close, ¬Partners words (index + 1) close) ->
      StepKind.bulk.cut bulk (words.drop (index + 1)) =
          .error (Fault.on .bulkUnclosed (words.drop index)) ∧
        Positions.blockEnd words index =
          some (.error (Fault.on .bulkUnclosed (words.drop index)))) ∧
    (∀ part, part <+: words.drop (index + 1) ->
      (∀ close, Partners words (index + 1) close -> index + part.length ≤ close) ->
        0 ≤ level part) := by
  obtain ⟨inner, stands⟩ : ∃ inner, words.drop index = bulk :: bracket :: inner := by
    obtain ⟨within, rfl⟩ := List.getElem?_eq_some_iff.mp starts
    obtain ⟨behindWithin, rfl⟩ := List.getElem?_eq_some_iff.mp follows
    exact ⟨_, by rw [List.drop_eq_getElem_cons within, List.drop_eq_getElem_cons behindWithin]⟩
  have behind := Positions.drop_succ_of_stands stands
  rw [stands, behind]
  refine ⟨fun close => blockEnd_eq_ok_iff stands opens, ?_, unclosed_of_no_partner stands opens, ?_⟩
  · intro close partners
    obtain ⟨cut_eq, balanced, closing, block_eq⟩ := cut_of_partners stands opens partners
    refine ⟨cut_eq, balanced, ?_⟩
    rw [block_eq]
    intro part isFront
    exact level_pos_of_isPrefix opens balanced isFront
  · intro part isFront searched
    refine level_nonneg_of_isPrefix behind opens isFront ?_
    intro close partners
    have within := searched close partners
    omega

/-- Two groups inside the Bulk do not end it, and a bracket behind it is not looked
at. -/
theorem inner_bulk_delimited_two_groups :
    let word (text : String) : Word := ⟨text, ⟨0, text.length⟩⟩
    let words := ["One", "Bulk", "Lb", "By", "Lb", "Rb", "Or", "Lb", "Rb", "Rb", "Rb"].map word
    words[1]? = some (word "Bulk") ∧ words[2]? = some (word "Lb") ∧
      (word "Lb").is .leftBracket ∧
      Positions.blockEnd words 1 = some (.ok 9) ∧
      Partners words 2 9 ∧
      StepKind.bulk.cut (word "Bulk") (words.drop 2) =
        .ok (["By", "Lb", "Rb", "Or", "Lb", "Rb"].map word, [word "Rb"]) ∧
      Balanced (words.extract 3 9) := by
  intro word words
  have starts : words[1]? = some (word "Bulk") := rfl
  have follows : words[2]? = some (word "Lb") := rfl
  have opens : (word "Lb").is .leftBracket := by decide
  obtain ⟨ends, delimits, -, -⟩ := inner_bulk_delimited words 1 _ _ starts follows opens
  have found : Positions.blockEnd words 1 = some (.ok 9) := by rfl
  have partners := (ends 9).mp found
  obtain ⟨cut_eq, balanced, -⟩ := delimits 9 partners
  exact ⟨starts, follows, opens, found, partners, cut_eq, balanced⟩

end Transaction
end DerivedQuery
