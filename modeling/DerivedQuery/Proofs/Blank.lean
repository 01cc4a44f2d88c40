import DerivedQuery.Text.Blank
import Mathlib.Data.List.DropRight

/-!
# Trimming

A text is its trimmed part with blanks on both sides, and blanks on either side
make no difference to the trimmed part. Behind a character that is no blank,
trimming changes the end of a text only.
-/

namespace DerivedQuery
namespace Text

/-- A text is its trimmed part with blanks on both sides. -/
theorem exists_eq_trim (text : List Char) :
    ∃ front back, text = front ++ trim text ++ back ∧
      (∀ char ∈ front, isBlank char) ∧ ∀ char ∈ back, isBlank char := by
  refine ⟨text.takeWhile isBlank, (text.dropWhile isBlank).rtakeWhile isBlank, ?_, ?_, ?_⟩
  · calc
      text = text.takeWhile isBlank ++ text.dropWhile isBlank :=
        (List.takeWhile_append_dropWhile).symm
      _ = text.takeWhile isBlank ++ (trim text ++ (text.dropWhile isBlank).rtakeWhile isBlank) :=
        congrArg _ (List.rdropWhile_append_rtakeWhile).symm
      _ = _ := (List.append_assoc _ _ _).symm
  · intro char member
    exact List.mem_takeWhile_imp member
  · intro char member
    exact List.mem_rtakeWhile_imp member

theorem trim_append_left
    {front : List Char}
    (blank : ∀ char ∈ front, isBlank char)
    (text : List Char) :
    trim (front ++ text) = trim text := by
  unfold trim
  rw [List.dropWhile_append_of_pos blank]

theorem trim_append_right
    {back : List Char}
    (blank : ∀ char ∈ back, isBlank char)
    (text : List Char) :
    trim (text ++ back) = trim text := by
  unfold trim
  rw [List.dropWhile_append]
  cases text.dropWhile isBlank with
  | nil => simp [List.dropWhile_eq_nil_iff.mpr blank]
  | cons first rest =>
      have behind : ∀ char ∈ back.reverse, isBlank char := by simpa using blank
      rw [if_neg (by simp), List.reverse_append, List.dropWhile_append_of_pos behind]

/-- Blanks around a text are trimmed away. -/
theorem trim_surround
    {front back : List Char}
    (frontBlank : ∀ char ∈ front, isBlank char)
    (backBlank : ∀ char ∈ back, isBlank char)
    (text : List Char) :
    trim (front ++ text ++ back) = trim text := by
  rw [trim_append_right backBlank, trim_append_left frontBlank]

/-- Blanks are dropped from the end of a text up to a character that is none. -/
theorem rdropWhile_append_cons
    {char : Char}
    (kept : isBlank char = false)
    (front back : List Char) :
    (front ++ char :: back).rdropWhile isBlank = front ++ char :: back.rdropWhile isBlank := by
  induction back using List.reverseRecOn with
  | nil => rw [List.rdropWhile_concat_neg _ _ _ (by simp [kept]), List.rdropWhile_nil]
  | append_singleton others last hypothesis =>
      rw [← List.cons_append, ← List.append_assoc, List.rdropWhile_concat,
        List.rdropWhile_concat, hypothesis]
      split <;> simp

theorem trim_cons
    {char : Char}
    (kept : isBlank char = false)
    (text : List Char) :
    trim (char :: text) = char :: text.rdropWhile isBlank := by
  have ends := rdropWhile_append_cons kept [] text
  rw [List.nil_append, List.nil_append] at ends
  rw [← ends, trim, List.dropWhile_cons_of_neg (by simp [kept]), List.rdropWhile]

theorem trim_rdropWhile (text : List Char) :
    trim (text.rdropWhile isBlank) = trim text := by
  have blank : ∀ char ∈ text.rtakeWhile isBlank, isBlank char := by
    intro char member
    exact List.mem_rtakeWhile_imp member
  calc
    trim (text.rdropWhile isBlank) =
        trim (text.rdropWhile isBlank ++ text.rtakeWhile isBlank) :=
      (trim_append_right blank _).symm
    _ = trim text := by rw [List.rdropWhile_append_rtakeWhile]

theorem trim_eq_self
    {text : List Char}
    (kept : ∀ char ∈ text, isBlank char = false) :
    trim text = text := by
  cases text with
  | nil => rfl
  | cons first rest =>
      rw [List.forall_mem_cons] at kept
      rw [trim_cons kept.1, List.rdropWhile_eq_self_iff.mpr]
      intro nonempty
      simp [kept.2 _ (List.getLast_mem nonempty)]

end Text
end DerivedQuery
