import DerivedQuery.Proofs.CompiledComparison
import DerivedQuery.Proofs.Segmentation

/-!
# Where diagnostics point

The words of a descriptor stand in it one behind the other, so the span of a
run of words goes from the start of its first to the end of its last word.
Every fault is about such a run or about no words at all, and the part of the
descriptor it points at can be cut out of it.
-/

namespace DerivedQuery

namespace Word

/-! ## Spans of runs -/

/-- The span goes from the start of one word of a row to the end of another,
which is the same or stands behind it. -/
structure Covers
    (words : List Word)
    (first last : Nat)
    (span : Span) : Prop where
  ordered : first ≤ last
  starts : ∃ word, words[first]? = some word ∧ word.span.start = span.start
  stops : ∃ word, words[last]? = some word ∧ word.span.stop = span.stop

/-- Words that are not empty stand one behind the other. -/
structure InLine (words : List Word) : Prop where
  precedes : words.Pairwise Precedes
  advances : ∀ word ∈ words, word.span.start < word.span.stop

theorem inLine_segment (descriptor : String) : InLine (segment descriptor) where
  precedes := (segmentation_segment descriptor).ordered
  advances word present :=
    (((segmentation_segment descriptor).mem_iff word).mp present).standsIn.advances

theorem InLine.nodup
    {words : List Word}
    (inLine : InLine words) :
    words.Nodup :=
  inLine.precedes.imp fun precedes same => by
    rw [same] at precedes
    exact Nat.lt_irrefl _ precedes.1

/-- A run covers the words from its first to its last. -/
theorem covers_of_runSpan?
    {front run back : List Word}
    {span : Span}
    (inLine : InLine (front ++ run ++ back))
    (spans : runSpan? run = some span) :
    Covers (front ++ run ++ back) front.length (front.length + (run.length - 1)) span := by
  cases run with
  | nil => cases spans
  | cons first rest =>
      obtain rfl | ⟨middle, last, rfl⟩ := rest.eq_nil_or_concat
      · obtain rfl := Option.some.inj spans
        refine ⟨Nat.le_refl _, ⟨first, by simp, ?_⟩, ⟨first, by simp, ?_⟩⟩
        · exact (Nat.min_self _).symm
        · exact (Nat.max_self _).symm
      · have inRun := (List.pairwise_append.mp (List.pairwise_append.mp inLine.precedes).1).2.1
        have precedes : Precedes first last := (List.pairwise_cons.mp inRun).1 last (by simp)
        have advances := inLine.advances last (by simp)
        have last_eq : (first :: middle.concat last).getLast (by simp) = last := by simp
        rw [runSpan?, last_eq] at spans
        obtain rfl := Option.some.inj spans
        refine ⟨Nat.le_add_right _ _, ⟨first, by simp, ?_⟩, ⟨last, by simp, ?_⟩⟩
        · exact (Nat.min_eq_left (Nat.le_of_lt precedes.1)).symm
        · have reaches := precedes.2
          simp only [Span.merge]
          omega

end Word

/-! ## Parts of a descriptor -/

/-- A part of a descriptor that is not empty and is cut off between characters. -/
structure Span.LiesIn (span : Span) (descriptor : String) : Prop where
  advances : span.start < span.stop
  bounded : span.stop ≤ descriptor.utf8ByteSize
  startsAtChar : (String.Pos.Raw.mk span.start).IsValid descriptor
  stopsAtChar : (String.Pos.Raw.mk span.stop).IsValid descriptor
  slices : ∃ front part back : String, descriptor = front ++ part ++ back ∧
    front.utf8ByteSize = span.start ∧ (front ++ part).utf8ByteSize = span.stop

theorem exists_append_of_toList_isPrefix
    {front whole : String}
    (within : front.toList <+: whole.toList) :
    ∃ part : String, whole = front ++ part := by
  obtain ⟨part, within⟩ := within
  refine ⟨String.ofList part, ?_⟩
  rw [← String.ofList_toList (s := whole), ← within, String.ofList_append, String.ofList_toList]

/-- What lies between two places that are between characters can be cut out. -/
theorem Span.exists_slice
    {span : Span}
    {descriptor : String}
    (advances : span.start < span.stop)
    (startsAtChar : (String.Pos.Raw.mk span.start).IsValid descriptor)
    (stopsAtChar : (String.Pos.Raw.mk span.stop).IsValid descriptor) :
    ∃ front part back : String, descriptor = front ++ part ++ back ∧
      front.utf8ByteSize = span.start ∧ (front ++ part).utf8ByteSize = span.stop := by
  obtain ⟨front, behind, front_eq, start_eq⟩ :=
    String.Pos.Raw.isValid_iff_exists_append.mp startsAtChar
  obtain ⟨upTo, back, upTo_eq, stop_eq⟩ :=
    String.Pos.Raw.isValid_iff_exists_append.mp stopsAtChar
  have start_size : span.start = front.utf8ByteSize := congrArg String.Pos.Raw.byteIdx start_eq
  have stop_size : span.stop = upTo.utf8ByteSize := congrArg String.Pos.Raw.byteIdx stop_eq
  have frontWithin : front.toList <+: descriptor.toList := by
    rw [front_eq, String.toList_append]
    exact List.prefix_append _ _
  have upToWithin : upTo.toList <+: descriptor.toList := by
    rw [upTo_eq, String.toList_append]
    exact List.prefix_append _ _
  rcases List.prefix_or_prefix_of_prefix frontWithin upToWithin with shorter | longer
  · obtain ⟨part, rfl⟩ := exists_append_of_toList_isPrefix shorter
    exact ⟨front, part, back, upTo_eq, start_size.symm, stop_size.symm⟩
  · obtain ⟨part, rfl⟩ := exists_append_of_toList_isPrefix longer
    rw [String.utf8ByteSize_append] at start_size
    omega

/-- The words of a descriptor cover parts of it. -/
theorem Word.Covers.liesIn
    {descriptor : String}
    {first last : Nat}
    {span : Span}
    (covers : Covers (segment descriptor) first last span) :
    span.LiesIn descriptor := by
  obtain ⟨ordered, ⟨firstWord, first_eq, starts⟩, ⟨lastWord, last_eq, stops⟩⟩ := covers
  have stands {word : Word} (present : word ∈ segment descriptor) : word.StandsIn descriptor :=
    (((segmentation_segment descriptor).mem_iff word).mp present).standsIn
  have firstStands := stands (List.mem_of_getElem? first_eq)
  have lastStands := stands (List.mem_of_getElem? last_eq)
  have advances : span.start < span.stop := by
    rw [← starts, ← stops]
    rcases Nat.eq_or_lt_of_le ordered with rfl | before
    · obtain rfl := Option.some.inj (first_eq.symm.trans last_eq)
      exact firstStands.advances
    · obtain ⟨firstBound, rfl⟩ := List.getElem?_eq_some_iff.mp first_eq
      obtain ⟨lastBound, rfl⟩ := List.getElem?_eq_some_iff.mp last_eq
      have precedes := List.pairwise_iff_getElem.mp (inLine_segment descriptor).precedes
        first last firstBound lastBound before
      exact Nat.lt_trans precedes.1 lastStands.advances
  have startsAtChar := starts ▸ firstStands.startsAtChar
  have stopsAtChar := stops ▸ lastStands.stopsAtChar
  exact {
    advances := advances
    bounded := stops ▸ lastStands.bounded
    startsAtChar := startsAtChar
    stopsAtChar := stopsAtChar
    slices := Span.exists_slice advances startsAtChar stopsAtChar }

/-! ## Faults -/

/-- Spans that are both absent or cover the words of the same places in two rows. -/
inductive Word.SameWords (words twins : List Word) : Option Span -> Option Span -> Prop
  | overall : SameWords words twins none none
  | covers
      {first last : Nat}
      {span twin : Span}
      (covers : Covers words first last span)
      (twinCovers : Covers twins first last twin) :
      SameWords words twins (some span) (some twin)

/-- Faults of methods that are compared point at the words of the same places. -/
theorem Comparison.Faults.sameWords
    {comparison : Comparison}
    {fault other : Fault}
    (faults : comparison.Faults fault other)
    (inLine : Word.InLine comparison.words)
    (twinInLine : Word.InLine (comparison.words.map comparison.move)) :
    Word.SameWords comparison.words (comparison.words.map comparison.move)
      fault.span other.span := by
  obtain ⟨-, run, twin, runs, span_eq, twinSpan_eq⟩ := faults
  obtain rfl := runs.twin_eq
  obtain ⟨front, back, words_eq⟩ := runs.part
  rw [← words_eq] at inLine twinInLine ⊢
  rw [span_eq, twinSpan_eq]
  simp only [List.map_append] at twinInLine ⊢
  cases run with
  | nil => exact .overall
  | cons first rest =>
      apply Word.SameWords.covers (Word.covers_of_runSpan? inLine rfl)
      have covers := Word.covers_of_runSpan? twinInLine rfl
      rw [List.length_map, List.length_map] at covers
      exact covers

namespace Method

/-- The comparison of a method with the same method under another descriptor. -/
def movedWords
    (method : Method)
    (schema : Schema)
    (config : Config)
    (descriptor : String)
    (move : Word -> Word)
    (text_move : ∀ word, (move word).text = word.text) : Comparison where
  scope := ⟨method, schema, config⟩
  other := { method with descriptor := descriptor }
  words := Word.segment method.descriptor
  move := move
  Pairs := Eq
  name_eq := rfl
  returns_eq := rfl
  params_pair := List.forall₂_eq_eq_eq ▸ rfl
  text_move := text_move
  type_eq same := same ▸ rfl
  collection_eq same _ := same.symm

theorem results_compile_movedWords
    (method : Method)
    (schema : Schema)
    (config : Config)
    {descriptor : String}
    {move : Word -> Word}
    (text_move : ∀ word, (move word).text = word.text)
    (moved : (Word.segment method.descriptor).map move = Word.segment descriptor) :
    Comparison.Results (method.movedWords schema config descriptor move text_move).MethodErrors
      (fun operation twin =>
        operation.withNames (Word.segment method.descriptor) (method.params.map Param.name) = twin)
      (method.compile schema config)
      ({ method with descriptor := descriptor }.compile schema config) :=
  (method.movedWords schema config descriptor move text_move).results_compile rfl moved

/-- A method in comparison with itself. -/
theorem results_compile_self
    (method : Method)
    (schema : Schema)
    (config : Config) :
    Comparison.Results
      (method.movedWords schema config method.descriptor id fun _ => rfl).MethodErrors
      (fun operation twin =>
        operation.withNames (Word.segment method.descriptor) (method.params.map Param.name) = twin)
      (method.compile schema config) (method.compile schema config) :=
  method.results_compile_movedWords schema config (fun _ => rfl) (List.map_id _)

/-- An error names the method and is about no particular words, or it points
at a row of words: from the start of one to the end of the same or a later one.
The part of the descriptor between them is not empty and can be cut out. -/
theorem compile_error_points_at_words
    (method : Method)
    (schema : Schema)
    (config : Config)
    (error : MethodError)
    (failed : method.compile schema config = .error error) :
    error.method = method.name ∧
    (error.fault.span = none ∨
      ∃ span first last, error.fault.span = some span ∧
        Word.Covers (Word.segment method.descriptor) first last span ∧
        span.LiesIn method.descriptor) := by
  have results := method.results_compile_self schema config
  rw [failed] at results
  cases results with
  | error related =>
      refine ⟨related.method_eq, ?_⟩
      have inLine := Word.inLine_segment method.descriptor
      have pointed := related.faults.sameWords inLine ((List.map_id _).symm ▸ inLine)
      generalize error.fault.span = span? at pointed ⊢
      cases pointed with
      | overall => exact .inl rfl
      | covers covers twinCovers => exact .inr ⟨_, _, _, rfl, covers, covers.liesIn⟩

/-- Separators that take more than one byte stand before, in and behind the
words of a condition without a comparator. -/
theorem compile_error_points_at_words_wide_separators :
    let method : Method := {
      name := "Page"
      descriptor := "«Find»By Age–Phone Code…"
      params := [⟨"ctx", .selector "context" "Context"⟩]
      returns := [.slice (.ident "User"), .ident "error"] }
    let schema : Schema := ⟨"User", [⟨"Age", "age", .ident "int", none⟩]⟩
    let span : Span := ⟨11, 27⟩
    let error : MethodError := ⟨"Page", ⟨.missingComparator ["Age", "Phone", "Code"], some span⟩⟩
    method.compile schema Config.standard = .error error ∧
      error.method = method.name ∧
      ∃ first last, Word.Covers (Word.segment method.descriptor) first last span ∧
        span.LiesIn method.descriptor := by
  intro method schema span error
  have failed : method.compile schema Config.standard = .error error := by
    apply CompiledInterface.error?_eq_some_iff.mp
    decide +kernel
  obtain ⟨named, absent | ⟨found, first, last, found_eq, covers, liesIn⟩⟩ :=
    compile_error_points_at_words method schema Config.standard error failed
  · cases absent
  · obtain rfl := Option.some.inj found_eq
    exact ⟨failed, named, first, last, covers, liesIn⟩

end Method

end DerivedQuery
