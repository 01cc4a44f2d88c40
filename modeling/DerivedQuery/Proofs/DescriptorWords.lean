import DerivedQuery.Proofs.Diagnostics
import Mathlib.Logic.Function.Basic

/-!
# Descriptors with the same words

What a method compiles to depends on the words of its descriptor and on
nothing else in it: neither on the separators nor on where the words stand.
Errors differ only in offsets, and point at the same words.
-/

namespace DerivedQuery

/-- Rows of words with the same texts differ by moving each word. No word may
occur twice in the first row, since it could not move to two places. -/
theorem Word.exists_move
    {words twins : List Word}
    (nodup : words.Nodup)
    (same : texts twins = texts words) :
    ∃ move : Word -> Word,
      (∀ word, (move word).text = word.text) ∧ words.map move = twins := by
  induction words generalizing twins with
  | nil =>
      have empty : twins = [] := List.map_eq_nil_iff.mp same
      exact ⟨id, fun _ => rfl, empty.symm⟩
  | cons word words inductionHypothesis =>
      obtain ⟨twin, others, rfl, text_eq, others_eq⟩ := List.map_eq_cons_iff.mp same
      obtain ⟨fresh, nodupRest⟩ := List.nodup_cons.mp nodup
      obtain ⟨move, text_move, moved⟩ := inductionHypothesis nodupRest others_eq
      refine ⟨Function.update move word twin, ?_, ?_⟩
      · intro other
        by_cases here : other = word
        · rw [here, Function.update_self, text_eq]
        · rw [Function.update_of_ne here, text_move]
      · rw [List.map_cons, Function.update_self, ← moved]
        congr 1
        apply List.map_congr_left
        intro other present
        have apart : other ≠ word := fun here => fresh (here ▸ present)
        rw [Function.update_of_ne apart]

/-- Causes are the same where parameters only pair with themselves. -/
theorem Comparison.Causes.eq_of_pairs
    {comparison : Comparison}
    {cause other : Cause}
    (causes : comparison.Causes cause other)
    (pairs_eq : ∀ {param twin}, comparison.Pairs param twin -> param = twin) :
    other = cause := by
  cases causes with
  | same cause => rfl
  | naming causeOf pairs kind_eq => rw [pairs_eq pairs]

namespace Method

/-- A compiled method keeps its operation when its own parameter names are
put in. -/
theorem withNames_of_compile
    {method : Method}
    {schema : Schema}
    {config : Config}
    {operation : Operation}
    (compiled : method.compile schema config = .ok operation) :
    operation.withNames (Word.segment method.descriptor) (method.params.map Param.name) =
      operation := by
  have results := method.results_compile_self schema config
  rw [compiled] at results
  cases results with
  | ok same => exact same

/-- Only the words of a descriptor matter. Under a descriptor with the same
words a method compiles to the same operation, or it fails with the same
wording at the same words. -/
theorem compile_of_same_words
    (method : Method)
    (descriptor : String)
    (schema : Schema)
    (config : Config)
    (same : Word.texts (Word.segment descriptor) = Word.texts (Word.segment method.descriptor)) :
    (∀ operation, method.compile schema config = .ok operation ↔
      { method with descriptor := descriptor }.compile schema config = .ok operation) ∧
    (∀ error, method.compile schema config = .error error ->
      ∃ twin, { method with descriptor := descriptor }.compile schema config = .error twin ∧
        twin.method = error.method ∧
        twin.kind = error.kind ∧
        twin.message = error.message ∧
        Word.SameWords (Word.segment method.descriptor) (Word.segment descriptor)
          error.fault.span twin.fault.span) := by
  have inLine := Word.inLine_segment method.descriptor
  obtain ⟨move, text_move, moved⟩ := Word.exists_move inLine.nodup same
  have results := method.results_compile_movedWords schema config text_move moved
  have restored := @withNames_of_compile method schema config
  generalize method.compile schema config = outcome at results restored ⊢
  generalize Method.compile _ schema config = twinOutcome at results ⊢
  cases results with
  | @ok operation twin renamed =>
      obtain rfl : operation = twin := (restored rfl).symm.trans renamed
      exact ⟨fun _ => Iff.rfl, nofun⟩
  | @error error twin related =>
      refine ⟨fun operation => iff_of_false nofun nofun, ?_⟩
      intro found failed
      obtain rfl := Except.error.inj failed
      have cause_eq : twin.fault.cause = error.fault.cause :=
        related.faults.causes.eq_of_pairs fun same => same
      have pointed := related.faults.sameWords inLine (moved.symm ▸ Word.inLine_segment descriptor)
      refine ⟨twin, rfl, related.twin_method_eq.trans related.method_eq.symm, ?_, ?_, ?_⟩
      · rw [MethodError.kind, cause_eq, MethodError.kind]
      · rw [MethodError.message, cause_eq, MethodError.message]
      · exact moved ▸ pointed

/-- Separators between the words move the span of the same three words. -/
theorem compile_of_same_words_separated :
    let method : Method := {
      name := "Page"
      descriptor := "FindByAgePhoneCode"
      params := [⟨"ctx", .selector "context" "Context"⟩]
      returns := [.slice (.ident "User"), .ident "error"] }
    let descriptor := "«Find»By Age–Phone Code…"
    let schema : Schema := ⟨"User", [⟨"Age", "age", .ident "int", none⟩]⟩
    let error (span : Span) : MethodError :=
      ⟨"Page", ⟨.missingComparator ["Age", "Phone", "Code"], some span⟩⟩
    Word.texts (Word.segment descriptor) = Word.texts (Word.segment method.descriptor) ∧
      method.compile schema Config.standard = .error (error ⟨6, 18⟩) ∧
      { method with descriptor := descriptor }.compile schema Config.standard =
        .error (error ⟨11, 27⟩) ∧
      Word.SameWords (Word.segment method.descriptor) (Word.segment descriptor)
        (some ⟨6, 18⟩) (some ⟨11, 27⟩) := by
  intro method descriptor schema error
  have same :
      Word.texts (Word.segment descriptor) = Word.texts (Word.segment method.descriptor) := by
    decide +kernel
  have failed : method.compile schema Config.standard = .error (error ⟨6, 18⟩) := by
    apply CompiledInterface.error?_eq_some_iff.mp
    decide +kernel
  have twinFailed : { method with descriptor := descriptor }.compile schema Config.standard =
      .error (error ⟨11, 27⟩) := by
    apply CompiledInterface.error?_eq_some_iff.mp
    decide +kernel
  obtain ⟨-, errors⟩ := compile_of_same_words method descriptor schema Config.standard same
  obtain ⟨twin, found, -, -, -, pointed⟩ := errors _ failed
  obtain rfl := Except.error.inj (twinFailed.symm.trans found)
  exact ⟨same, failed, twinFailed, pointed⟩

end Method

end DerivedQuery
