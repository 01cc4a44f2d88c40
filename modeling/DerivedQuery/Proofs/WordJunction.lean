import DerivedQuery.Proofs.Segmentation

/-!
# Descriptors put together

Where two texts meet at a boundary, each is cut into words as if it stood alone.
The words of the whole are those of the first text and then those of the second,
moved behind it. A capital behind anything but a capital is such a place. A word
taken out of its descriptor is still one word.
-/

namespace DerivedQuery

/-- A word further behind. -/
def Word.shift (distance : Nat) (word : Word) : Word :=
  ⟨word.text, ⟨distance + word.span.start, distance + word.span.stop⟩⟩

namespace Word

variable {before text after : List Char}

/-- What stands behind a boundary does not matter in front of it. -/
theorem boundary_append_right_iff
    (nonempty : text ≠ [])
    (junction : Boundary text after) :
    Boundary before (text ++ after) ↔ Boundary before text := by
  obtain ⟨first, others, rfl⟩ := List.exists_cons_of_ne_nil nonempty
  cases others with
  | cons next others => exact Iff.rfl
  | nil =>
      -- A cut in front of the last character looks at the one behind it.
      constructor
      · intro boundary left isLast right isFirst leftLetter rightLetter
        obtain rfl : first = right := Option.some.inj isFirst
        rcases boundary left isLast first rfl leftLetter rightLetter with
          changes | ⟨-, isUpper, claimed⟩
        · exact .inl changes
        · obtain ⟨next, isNext, isLower⟩ := Option.map_eq_some_iff.mp claimed
          have nextLetter : next.isAlphanum := CharClass.of_ne_other_iff.mp (by simp [isLower])
          rcases junction first rfl next isNext rightLetter nextLetter with
            ⟨-, keeps⟩ | ⟨-, nextUpper, -⟩
          · exact absurd ⟨isUpper, isLower⟩ keeps
          · cases nextUpper.symm.trans isLower
      · intro boundary left isLast right isFirst leftLetter rightLetter
        obtain rfl : first = right := Option.some.inj isFirst
        rcases boundary left isLast first rfl leftLetter rightLetter with changes | ⟨-, -, claimed⟩
        · exact .inl changes
        · cases claimed

/-- A capital in front of a small letter starts a word. -/
theorem boundary_capital
    {capital small : Char}
    (isUpper : CharClass.of capital = .upper)
    (isLower : CharClass.of small = .lower) :
    Boundary before (capital :: small :: after) := by
  intro left _ right isFirst _ _
  obtain rfl : capital = right := Option.some.inj isFirst
  by_cases leftUpper : CharClass.of left = .upper
  · exact .inr ⟨leftUpper, isUpper, congrArg some isLower⟩
  · exact .inl ⟨isUpper ▸ leftUpper, fun capitals => leftUpper capitals.1⟩

/-- A capital starts a word behind anything but a capital. -/
theorem boundary_of_not_upper
    {capital : Char}
    (isUpper : CharClass.of capital = .upper)
    (notUpper : ∀ left ∈ before.getLast?, CharClass.of left ≠ .upper) :
    Boundary before (capital :: after) := by
  intro left isLast right isFirst _ _
  obtain rfl : capital = right := Option.some.inj isFirst
  have leftNotUpper := notUpper left isLast
  exact .inl ⟨isUpper ▸ leftNotUpper, fun capitals => leftNotUpper capitals.1⟩

/-- A text that holds together does so in front of a boundary. -/
theorem Unbroken.append
    {between : List Char}
    (unbroken : Unbroken text between)
    (junction : Boundary (text ++ between) after) :
    Unbroken text (between ++ after) := by
  intro front back text_eq frontNonempty backNonempty boundary
  have nonempty : back ++ between ≠ [] := List.append_ne_nil_of_left_ne_nil backNonempty between
  rw [text_eq, List.append_assoc, boundary_append_iff nonempty] at junction
  rw [← List.append_assoc, boundary_append_right_iff nonempty junction] at boundary
  exact unbroken front back text_eq frontNonempty backNonempty boundary

theorem chars_append (row others : List Run) :
    chars (row ++ others) = chars row ++ chars others :=
  List.flatMap_append

theorem chars_handOver_runs (text : List Char) : chars (handOver (runs text)) = text := by
  rw [chars_handOver, chars_runs]

/-- Rows of runs may be put together at a boundary. -/
theorem Parted.append
    {row others : List Run}
    (parted : Parted row)
    (further : Parted others)
    (junction : Boundary (chars row) (chars others)) :
    Parted (row ++ others) := by
  induction parted with
  | nil => exact further
  | @cons run row formed stops unbroken behind hypothesis =>
      rw [chars_cons] at junction
      have stopsJoint : Boundary run.text (chars row ++ chars others) := by
        by_cases nothing : chars row = []
        · rw [nothing, List.append_nil] at junction
          rwa [nothing]
        · rw [boundary_append_iff nothing] at junction
          exact (boundary_append_right_iff nothing junction).mpr stops
      have behindJunction : Boundary (chars row) (chars others) := by
        by_cases nothing : chars row = []
        · rw [nothing]
          exact boundary_nil_left
        · exact (boundary_append_iff nothing).mp junction
      rw [List.cons_append]
      refine .cons formed ?_ (fun notOther => ?_) (hypothesis behindJunction)
      · rwa [chars_append]
      · rw [chars_append]
        exact (unbroken notOther).append junction

/-! ## Words of the parts -/

theorem ofRuns_append
    (offset : Nat)
    (row others : List Run) :
    ofRuns offset (row ++ others) =
      ofRuns offset row ++ ofRuns (offset + byteSize (chars row)) others := by
  fun_induction ofRuns offset row with
  | case1 => rfl
  | case2 offset run rest stop skipped hypothesis =>
      rw [List.cons_append, ofRuns, if_pos skipped, hypothesis, chars_cons, byteSize_append,
        Nat.add_assoc]
  | case3 offset run rest stop kept hypothesis =>
      rw [List.cons_append, ofRuns, if_neg kept, hypothesis, chars_cons, byteSize_append,
        Nat.add_assoc, List.cons_append]

theorem ofRuns_shift
    (distance offset : Nat)
    (row : List Run) :
    ofRuns (distance + offset) row = (ofRuns offset row).map (shift distance) := by
  fun_induction ofRuns offset row with
  | case1 => rfl
  | case2 offset run rest stop skipped hypothesis =>
      rw [ofRuns, if_pos skipped, Nat.add_assoc, hypothesis]
  | case3 offset run rest stop kept hypothesis =>
      rw [ofRuns, if_neg kept, Nat.add_assoc, hypothesis, List.map_cons]
      rfl

/-- Runs that lie between boundaries give the words of their characters. -/
theorem ofRuns_eq_segment
    {row : List Run}
    {descriptor : String}
    (parted : Parted row)
    (chars_eq : chars row = descriptor.toList) :
    ofRuns 0 row = segment descriptor := by
  have isSegmentation : Segmentation descriptor (ofRuns 0 row) := {
    mem_iff := fun word => chars_eq ▸ mem_ofRuns_iff parted boundary_nil_left
    ordered := pairwise_ofRuns 0 row }
  exact isSegmentation.unique (segmentation_segment descriptor)

/-- The words of texts that meet at a boundary are those of both, the second
moved behind the first. -/
theorem segment_append
    {front back : String}
    (junction : Boundary front.toList back.toList) :
    segment (front ++ back) = segment front ++ (segment back).map (shift front.utf8ByteSize) := by
  rw [← chars_handOver_runs front.toList, ← chars_handOver_runs back.toList] at junction
  have parted := (parted_of_chars front.toList).append (parted_of_chars back.toList) junction
  have wholeChars : chars (handOver (runs front.toList) ++ handOver (runs back.toList)) =
      (front ++ back).toList := by
    rw [chars_append, chars_handOver_runs, chars_handOver_runs, String.toList_append]
  rw [← ofRuns_eq_segment parted wholeChars, ofRuns_append, chars_handOver_runs, byteSize_eq,
    String.ofList_toList, Nat.zero_add]
  exact congrArg (segment front ++ ·) (ofRuns_shift _ 0 _)

@[simp] theorem text_shift
    (distance : Nat)
    (word : Word) :
    (word.shift distance).text = word.text :=
  rfl

theorem texts_map_shift
    (distance : Nat)
    (words : List Word) :
    texts (words.map (shift distance)) = texts words := by
  simp [texts]

/-- The words of a text without separators spell it. -/
theorem join_texts_segment
    {descriptor : String}
    (alphanumeric : ∀ char ∈ descriptor.toList, char.isAlphanum) :
    String.join (texts (segment descriptor)) = descriptor := by
  rw [segment, join_texts_ofRuns 0 (parted_of_chars descriptor.toList), chars_handOver_runs,
    List.filter_eq_self.mpr alphanumeric, String.ofList_toList]

theorem text_ne_empty_of_mem_segment
    {descriptor : String}
    {word : Word}
    (present : word ∈ segment descriptor) :
    word.text ≠ "" :=
  (((segmentation_segment descriptor).mem_iff word).mp present).standsIn.nonempty

/-! ## Single words -/

theorem boundary_nil_right : Boundary before [] := by
  intro left _ right isFirst
  cases isFirst

/-- A word stays a word without its surroundings. -/
theorem IsWord.alone (isWord : IsWord before text after) : IsWord [] text [] where
  nonempty := isWord.nonempty
  alphanumeric := isWord.alphanumeric
  starts := boundary_nil_left
  stops := boundary_nil_right
  unbroken front back text_eq frontNonempty backNonempty boundary := by
    have junction : Boundary back after := by
      rw [← boundary_append_iff backNonempty, ← text_eq]
      exact isWord.stops
    rw [List.append_nil, ← boundary_append_right_iff backNonempty junction] at boundary
    exact isWord.unbroken front back text_eq frontNonempty backNonempty boundary

theorem segment_of_isWord (isWord : IsWord [] text []) :
    segment (String.ofList text) = [placed [] text] := by
  have isSegmentation : Segmentation (String.ofList text) [placed [] text] := {
    mem_iff := fun word => by
      have occurs : Occurs [] (text ++ []) word ↔ _ := occurs_append_word_iff isWord
      rw [List.append_nil] at occurs
      rw [String.toList_ofList, occurs, List.mem_singleton]
      exact (or_iff_left not_occurs_nil).symm
    ordered := List.pairwise_singleton Precedes _ }
  exact (segmentation_segment _).unique isSegmentation

/-- The text of a word is segmented into that word. -/
theorem segment_text_of_mem
    {descriptor : String}
    {word : Word}
    (present : word ∈ segment descriptor) :
    segment word.text = [⟨word.text, ⟨0, word.text.utf8ByteSize⟩⟩] ∧
      (segment word.text).map (shift word.span.start) = [word] := by
  obtain ⟨before, text, after, -, isWord, rfl⟩ :=
    ((segmentation_segment descriptor).mem_iff word).mp present
  have single : segment (placed ([] ++ before) text).text = [placed [] text] :=
    segment_of_isWord isWord.alone
  have size : byteSize text = (String.ofList text).utf8ByteSize := byteSize_eq text
  rw [single]
  simp [placed, shift, byteSize, size]

/-- A text that does not end in a capital and a text that begins with one are
segmented apart, and a word of a descriptor is segmented into itself. -/
theorem segment_camel_case :
    (∀ front back : String,
      (∀ char ∈ front.toList.getLast?, ¬char.isUpper) ->
        (∃ char ∈ back.toList.head?, char.isUpper) ->
          segment (front ++ back) =
            segment front ++ (segment back).map (shift front.utf8ByteSize)) ∧
    (∀ (descriptor : String) (word : Word), word ∈ segment descriptor ->
      segment word.text = [⟨word.text, ⟨0, word.text.utf8ByteSize⟩⟩] ∧
        (segment word.text).map (shift word.span.start) = [word]) := by
  refine ⟨?_, fun descriptor word present => segment_text_of_mem present⟩
  rintro front back notUpper ⟨capital, isFirst, isUpper⟩
  obtain ⟨others, back_eq⟩ := List.head?_eq_some_iff.mp isFirst
  apply segment_append
  rw [back_eq]
  apply boundary_of_not_upper (CharClass.of_eq_upper_iff.mpr isUpper)
  intro left isLast leftUpper
  exact notUpper left isLast (CharClass.of_eq_upper_iff.mp leftUpper)

/-- A separator of two bytes in front of the join, an acronym behind it, and the
word that the acronym leaves. -/
theorem segment_camel_case_acronym :
    segment "user2é" = [⟨"user", ⟨0, 4⟩⟩, ⟨"2", ⟨4, 5⟩⟩] ∧
    segment "HTTPServer" = [⟨"HTTP", ⟨0, 4⟩⟩, ⟨"Server", ⟨4, 10⟩⟩] ∧
    segment ("user2é" ++ "HTTPServer") =
      [⟨"user", ⟨0, 4⟩⟩, ⟨"2", ⟨4, 5⟩⟩, ⟨"HTTP", ⟨7, 11⟩⟩, ⟨"Server", ⟨11, 17⟩⟩] ∧
    segment "Server" = [⟨"Server", ⟨0, 6⟩⟩] := by
  obtain ⟨distributes, single⟩ := segment_camel_case
  have first : segment "user2é" = [⟨"user", ⟨0, 4⟩⟩, ⟨"2", ⟨4, 5⟩⟩] := by decide +kernel
  have second : segment "HTTPServer" = [⟨"HTTP", ⟨0, 4⟩⟩, ⟨"Server", ⟨4, 10⟩⟩] := by
    decide +kernel
  refine ⟨first, second, ?_, ?_⟩
  · rw [distributes "user2é" "HTTPServer" (by simp) (by simp), first, second]
    decide +kernel
  · exact (single "HTTPServer" ⟨"Server", ⟨4, 10⟩⟩ (by simp [second])).1

end Word
end DerivedQuery
