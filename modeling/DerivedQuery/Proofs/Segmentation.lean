import DerivedQuery.Proofs.WordBoundary
import Mathlib.Data.List.Sort

/-!
# The words of a descriptor

The words of a descriptor are all the stretches between boundaries, from left
to right and at their byte offsets. Nothing else has just these words in this
order, so the boundaries determine the segmentation.
-/

namespace DerivedQuery
namespace Word

variable {prior before text after part rest : List Char}
variable {word : Word}

/-! ## Byte offsets -/

theorem byteSize_append (front back : List Char) :
    byteSize (front ++ back) = byteSize front + byteSize back := by
  induction front with
  | nil => simp [byteSize]
  | cons char front hypothesis => simp [byteSize, hypothesis, Nat.add_assoc]

theorem byteSize_eq (chars : List Char) : byteSize chars = (String.ofList chars).utf8ByteSize := by
  induction chars with
  | nil => rfl
  | cons char chars hypothesis =>
      rw [byteSize, hypothesis, String.ofList_cons, String.utf8ByteSize_append,
        String.utf8ByteSize_singleton]

theorem byteSize_pos (nonempty : text ≠ []) : 0 < byteSize text := by
  obtain ⟨char, others, rfl⟩ := List.exists_cons_of_ne_nil nonempty
  have charSize := char.utf8Size_pos
  rw [byteSize]
  omega

/-- The word that a text is behind other characters. -/
def placed (before text : List Char) : Word :=
  ⟨String.ofList text, ⟨byteSize before, byteSize before + byteSize text⟩⟩

/-! ## Words that occur in a text -/

/-- A word stands in a text that has other characters in front. -/
def Occurs (prior chars : List Char) (word : Word) : Prop :=
  ∃ before text after, chars = before ++ (text ++ after) ∧ IsWord (prior ++ before) text after ∧
    word = placed (prior ++ before) text

theorem not_occurs_nil : ¬Occurs prior [] word := by
  rintro ⟨before, text, after, same, isWord, -⟩
  simp only [List.nil_eq, List.append_eq_nil_iff] at same
  exact isWord.nonempty same.2.1

theorem occurs_append_of_occurs
    (part : List Char)
    (occurs : Occurs (prior ++ part) rest word) :
    Occurs prior (part ++ rest) word := by
  obtain ⟨before, text, after, rfl, isWord, rfl⟩ := occurs
  rw [List.append_assoc] at isWord ⊢
  exact ⟨part ++ before, text, after, (List.append_assoc _ _ _).symm, isWord, rfl⟩

/-- Separators add no words. -/
theorem occurs_append_separator_iff
    (separates : ∀ char ∈ part, char.isAlphanum = false) :
    Occurs prior (part ++ rest) word ↔ Occurs (prior ++ part) rest word := by
  constructor
  · rintro ⟨before, text, after, same, isWord, rfl⟩
    obtain ⟨between, rfl, rest_eq⟩ := isWord.behind_of_separator separates same
    rw [← List.append_assoc] at isWord ⊢
    exact ⟨between, text, after, rest_eq, isWord, rfl⟩
  · exact occurs_append_of_occurs part

/-- A word adds itself. -/
theorem occurs_append_word_iff
    (isWord : IsWord prior part rest) :
    Occurs prior (part ++ rest) word ↔
      word = placed prior part ∨ Occurs (prior ++ part) rest word := by
  constructor
  · rintro ⟨before, text, after, same, other, rfl⟩
    rcases isWord.eq_or_behind other same with ⟨rfl, rfl, rfl⟩ | ⟨between, rfl, rest_eq⟩
    · exact .inl (by rw [List.append_nil])
    · rw [← List.append_assoc] at other ⊢
      exact .inr ⟨between, text, after, rest_eq, other, rfl⟩
  · rintro (rfl | occurs)
    · refine ⟨[], part, rest, rfl, ?_⟩
      rw [List.append_nil]
      exact ⟨isWord, rfl⟩
    · exact occurs_append_of_occurs part occurs

/-! ## Words of runs -/

/-- A run that gives no word has no letters or digits. -/
theorem Run.Formed.separates_of_skipped
    {run : Run}
    (formed : run.Formed)
    (skipped : run.kind = .other ∨ run.text = []) :
    ∀ char ∈ run.text, char.isAlphanum = false := by
  rcases skipped with isOther | nothing
  · exact formed.separates isOther
  · simp [nothing]

/-- The words that are made of runs are those that occur in their characters. -/
theorem mem_ofRuns_iff
    {row : List Run}
    (parted : Parted row)
    (starts : Boundary prior (chars row)) :
    word ∈ ofRuns (byteSize prior) row ↔ Occurs prior (chars row) word := by
  induction parted generalizing prior with
  | nil => exact iff_of_false List.not_mem_nil not_occurs_nil
  | @cons run row formed stops unbroken further hypothesis =>
      rw [chars_cons] at starts ⊢
      have startsFurther : Boundary (prior ++ run.text) (chars row) := by
        by_cases nothing : run.text = []
        · rw [nothing, List.append_nil]
          rwa [nothing, List.nil_append] at starts
        · exact (boundary_append_iff nothing).mpr stops
      have others := hypothesis startsFurther
      rw [byteSize_append] at others
      simp only [ofRuns]
      split
      · rename_i skipped
        rw [others, occurs_append_separator_iff (formed.separates_of_skipped skipped)]
      · rename_i kept
        obtain ⟨notOther, nonempty⟩ := not_or.mp kept
        have isWord : IsWord prior run.text (chars row) :=
          ⟨nonempty, formed.alphanumeric notOther, starts, stops, unbroken notOther⟩
        rw [List.mem_cons, others, occurs_append_word_iff isWord]
        rfl

theorem shaped_of_mem_ofRuns
    {row : List Run}
    {offset : Nat}
    (parted : Parted row)
    (present : word ∈ ofRuns offset row) :
    Shaped word.text.toList := by
  induction parted generalizing offset with
  | nil => exact absurd present List.not_mem_nil
  | cons formed stops unbroken further hypothesis =>
      simp only [ofRuns] at present
      split at present
      · exact hypothesis present
      · rename_i kept
        rcases List.mem_cons.mp present with rfl | present
        · rw [String.toList_ofList]
          exact formed.shaped (not_or.mp kept).1
        · exact hypothesis present

/-- Words keep every letter and digit and nothing else. -/
theorem join_texts_ofRuns
    {row : List Run}
    (offset : Nat)
    (parted : Parted row) :
    String.join (texts (ofRuns offset row)) =
      String.ofList ((chars row).filter Char.isAlphanum) := by
  induction parted generalizing offset with
  | nil => rfl
  | @cons run row formed stops unbroken further hypothesis =>
      simp only [ofRuns, chars_cons, List.filter_append]
      split
      · rename_i skipped
        have nothing : run.text.filter Char.isAlphanum = [] := by
          simpa using formed.separates_of_skipped skipped
        rw [hypothesis, nothing, List.nil_append]
      · rename_i kept
        have all := List.filter_eq_self.mpr (formed.alphanumeric (not_or.mp kept).1)
        rw [texts_cons, String.join_cons, hypothesis, all, String.ofList_append]

/-! ## Order -/

/-- A word begins in front of another and does not reach into it. -/
def Precedes (first second : Word) : Prop :=
  first.span.start < second.span.start ∧ first.span.stop ≤ second.span.start

instance : Std.Irrefl Precedes where
  irrefl _ precedes := Nat.lt_irrefl _ precedes.1

instance : Std.Antisymm Precedes where
  antisymm first second precedes follows := by
    have begins := precedes.1
    exact absurd follows.1 (Nat.lt_asymm begins)

theorem le_start_of_mem_ofRuns
    {offset : Nat}
    {row : List Run}
    (present : word ∈ ofRuns offset row) :
    offset ≤ word.span.start := by
  fun_induction ofRuns offset row with
  | case1 => exact absurd present List.not_mem_nil
  | case2 offset run rest stop skipped hypothesis =>
      have behind := hypothesis present
      omega
  | case3 offset run rest stop kept hypothesis =>
      rcases List.mem_cons.mp present with rfl | present
      · exact Nat.le_refl _
      · have behind := hypothesis present
        omega

theorem pairwise_ofRuns
    (offset : Nat)
    (row : List Run) :
    (ofRuns offset row).Pairwise Precedes := by
  fun_induction ofRuns offset row with
  | case1 => exact .nil
  | case2 offset run rest stop skipped hypothesis => exact hypothesis
  | case3 offset run rest stop kept hypothesis =>
      refine .cons ?_ hypothesis
      intro word present
      have begins := le_start_of_mem_ofRuns present
      have size := byteSize_pos (not_or.mp kept).2
      refine ⟨?_, begins⟩
      change offset < word.span.start
      omega

/-! ## Segmentation -/

/-- The words that occur in a descriptor, in order. -/
structure Segmentation (descriptor : String) (words : List Word) : Prop where
  mem_iff : ∀ word, word ∈ words ↔ Occurs [] descriptor.toList word
  ordered : words.Pairwise Precedes

theorem parted_of_chars (chars : List Char) : Parted (handOver (runs chars)) :=
  parted_handOver (maximalRuns_runs chars)

theorem segmentation_segment (descriptor : String) :
    Segmentation descriptor (segment descriptor) where
  mem_iff word := by
    have occurs : word ∈ segment descriptor ↔
        Occurs [] (chars (handOver (runs descriptor.toList))) word :=
      mem_ofRuns_iff (parted_of_chars descriptor.toList) boundary_nil_left
    rwa [chars_handOver, chars_runs] at occurs
  ordered := pairwise_ofRuns 0 _

/-- A descriptor has one segmentation. -/
theorem Segmentation.unique
    {descriptor : String}
    {first second : List Word}
    (isFirst : Segmentation descriptor first)
    (isSecond : Segmentation descriptor second) :
    first = second := by
  apply isFirst.ordered.eq_of_mem_iff isSecond.ordered
  intro word
  rw [isFirst.mem_iff, isSecond.mem_iff]

/-- A word is a part of a descriptor, with its bytes at its span. -/
structure StandsIn (descriptor : String) (word : Word) : Prop where
  nonempty : word.text ≠ ""
  advances : word.span.start < word.span.stop
  bounded : word.span.stop ≤ descriptor.utf8ByteSize
  startsAtChar : (String.Pos.Raw.mk word.span.start).IsValid descriptor
  stopsAtChar : (String.Pos.Raw.mk word.span.stop).IsValid descriptor
  slices : descriptor.toByteArray.extract word.span.start word.span.stop = word.text.toByteArray

/-- The offset behind some of the first characters lies between characters. -/
theorem isValid_byteSize
    {descriptor : String}
    {front back : List Char}
    (same : descriptor.toList = front ++ back) :
    (String.Pos.Raw.mk (byteSize front)).IsValid descriptor := by
  refine String.Pos.Raw.isValid_iff_exists_append.mpr
    ⟨String.ofList front, String.ofList back, ?_, ?_⟩
  · rw [← String.ofList_append, ← same, String.ofList_toList]
  · exact String.Pos.Raw.ext (byteSize_eq front)

theorem Occurs.standsIn
    {descriptor : String}
    (occurs : Occurs [] descriptor.toList word) :
    word.StandsIn descriptor := by
  obtain ⟨before, text, after, same, isWord, rfl⟩ := occurs
  rw [List.nil_append]
  have descriptor_eq : descriptor =
      String.ofList before ++ (String.ofList text ++ String.ofList after) := by
    rw [← String.ofList_append, ← String.ofList_append, ← same, String.ofList_toList]
  have size := byteSize_pos isWord.nonempty
  have split : descriptor.toList = (before ++ text) ++ after := by rw [same, List.append_assoc]
  refine {
    nonempty := ?_
    advances := Nat.lt_add_of_pos_right size
    bounded := ?_
    startsAtChar := isValid_byteSize same
    stopsAtChar := ?_
    slices := ?_ }
  · intro nothing
    exact isWord.nonempty (String.ofList_eq_empty_iff.mp nothing)
  · change byteSize before + byteSize text ≤ _
    rw [descriptor_eq, String.utf8ByteSize_append, String.utf8ByteSize_append, byteSize_eq,
      byteSize_eq]
    omega
  · change (String.Pos.Raw.mk (byteSize before + byteSize text)).IsValid descriptor
    rw [← byteSize_append]
    exact isValid_byteSize split
  · change descriptor.toByteArray.extract (byteSize before) (byteSize before + byteSize text) =
      (String.ofList text).toByteArray
    rw [descriptor_eq, String.toByteArray_append, String.toByteArray_append, byteSize_eq,
      byteSize_eq]
    have behind := ByteArray.extract_append_size_add (a := (String.ofList before).toByteArray)
      (b := (String.ofList text).toByteArray ++ (String.ofList after).toByteArray)
      (i := 0) (j := (String.ofList text).utf8ByteSize)
    exact behind.trans (ByteArray.extract_append_eq_left rfl)

/-- The words of a descriptor are its segmentation, and nothing else is. They
stand in it one behind the other, keep all its letters and digits, and are
digits, capitals or small letters with at most one capital in front. -/
theorem segment_spec (descriptor : String) :
    (∀ words, words = segment descriptor ↔ Segmentation descriptor words) ∧
    (∀ word ∈ segment descriptor, word.StandsIn descriptor ∧ Shaped word.text.toList) ∧
    (segment descriptor).Pairwise Precedes ∧
    String.join (texts (segment descriptor)) =
      String.ofList (descriptor.toList.filter Char.isAlphanum) := by
  have isSegmentation := segmentation_segment descriptor
  have parted := parted_of_chars descriptor.toList
  refine ⟨fun words => ⟨?_, ?_⟩, fun word present => ⟨?_, ?_⟩, isSegmentation.ordered, ?_⟩
  · rintro rfl
    exact isSegmentation
  · intro other
    exact other.unique isSegmentation
  · exact ((isSegmentation.mem_iff word).mp present).standsIn
  · exact shaped_of_mem_ofRuns parted present
  · rw [segment, join_texts_ofRuns 0 parted, chars_handOver, chars_runs]

/-- An acronym, digits and separators of one and two bytes. -/
theorem segment_spec_acronym :
    let descriptor := "findHTTPServer2é_ID"
    let words : List Word := [⟨"find", ⟨0, 4⟩⟩, ⟨"HTTP", ⟨4, 8⟩⟩, ⟨"Server", ⟨8, 14⟩⟩,
      ⟨"2", ⟨14, 15⟩⟩, ⟨"ID", ⟨18, 20⟩⟩]
    words = segment descriptor ∧ Segmentation descriptor words ∧
      ∀ word ∈ words, word.StandsIn descriptor ∧ Shaped word.text.toList := by
  intro descriptor words
  have evaluates : words = segment descriptor := by decide +kernel
  obtain ⟨exactly, stands, -⟩ := segment_spec descriptor
  refine ⟨evaluates, (exactly words).mp evaluates, ?_⟩
  rw [evaluates]
  exact stands

end Word
end DerivedQuery
