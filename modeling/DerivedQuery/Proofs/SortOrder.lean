import DerivedQuery.Proofs.FieldCut
import DerivedQuery.Proofs.Rendering.Write

/-!
# Sort keys

The words of an `Order` clause are those of its sort keys, one behind the other.
A key is written by the names of a chain of fields, without the word `Desc`, and
`Desc` stands behind it exactly if it is descending. So there are as many
descending keys as there are words `Desc`, and every row of keys written in this
way can be read.
-/

namespace DerivedQuery

namespace SortField

/-- A sort key is written by words other than `Desc`, with `Desc` behind them
exactly if it is descending. -/
inductive Marked (schema : Schema) : SortField -> List Word -> Prop
  | ascending
      {key : String}
      {run : List Word}
      (nonempty : run ≠ [])
      (written : schema.KeyWritten key run)
      (unmarked : ∀ word ∈ run, word.is .desc = false) :
      Marked schema ⟨key, .ascending⟩ run
  | descending
      {key : String}
      {run : List Word}
      {desc : Word}
      (nonempty : run ≠ [])
      (written : schema.KeyWritten key run)
      (unmarked : ∀ word ∈ run, word.is .desc = false)
      (isDesc : desc.is .desc) :
      Marked schema ⟨key, .descending⟩ (run ++ [desc])

namespace Marked

variable {schema : Schema}

theorem written
    {field : SortField}
    {run : List Word}
    (marked : Marked schema field run) :
    field.Written schema run := by
  cases marked with
  | ascending nonempty written unmarked => exact .ascending written
  | descending nonempty written unmarked isDesc => exact .descending written isDesc

/-- `Desc` is counted once for a descending key and not for others. -/
theorem countP_desc
    {field : SortField}
    {run : List Word}
    (marked : Marked schema field run) :
    run.countP (·.is .desc) = [field].countP (·.direction == .descending) := by
  cases marked with
  | ascending nonempty written unmarked =>
      rw [List.countP_eq_zero.mpr (by simpa using unmarked)]
      rfl
  | descending nonempty written unmarked isDesc =>
      rw [List.countP_append, List.countP_eq_zero.mpr (by simpa using unmarked),
        List.countP_singleton, if_pos isDesc]
      rfl

end Marked

end SortField

namespace Schema.KeyWritten

variable {schema : Schema}
variable {key : String}
variable {run : List Word}

theorem ne_nil (written : schema.KeyWritten key run) : run ≠ [] := by
  obtain ⟨chain, leads, -, spells⟩ := written
  exact spells.ne_nil leads.ne_nil

theorem cuttable (written : schema.KeyWritten key run) : FieldPath.Cuttable schema run := by
  obtain ⟨chain, leads, -, spells⟩ := written
  obtain ⟨indices, leadsAt⟩ := leads.exists_chainAt
  exact ⟨[⟨indices, chain, run, leadsAt, spells⟩], by simp [FieldPath.Cuts]⟩

end Schema.KeyWritten

namespace FieldPath

variable {schema : Schema}
variable {run rest : List Word}

theorem Cuttable.append
    (cuttable : Cuttable schema run)
    (further : Cuttable schema rest) :
    Cuttable schema (run ++ rest) := by
  obtain ⟨cut, rfl⟩ := cuttable
  obtain ⟨others, rfl⟩ := further
  exact ⟨cut ++ others, List.flatMap_append⟩

theorem Cuttable.exists_resolveAll
    (cuttable : Cuttable schema run)
    (nonempty : run ≠ [])
    (texts : ∀ word ∈ run, word.text ≠ "") :
    ∃ paths, resolveAll schema run = .ok paths := by
  simp only [resolveAll_eq_ok_iff nonempty, cover_eq_search]
  exact (answers_search texts).exists_eq_ok_iff.mpr cuttable

end FieldPath

namespace Find

open FieldPath

variable {schema : Schema}
variable {run : List Word}
variable {fields : List SortField}

/-! ## What is read -/

/-- `Desc` belongs to the last path in front of it. -/
theorem markedRow_lastDescending
    {paths : List FieldPath}
    {desc : Word}
    (row : WrittenRow (fun path part => schema.KeyWritten path.key part ∧
      ∀ word ∈ part, word.is .desc = false) paths run)
    (nonempty : paths ≠ [])
    (isDesc : desc.is .desc) :
    WrittenRow (SortField.Marked schema) (lastDescending paths) (run ++ [desc]) := by
  induction row with
  | nil => exact absurd rfl nonempty
  | @cons path others run rest first row hypothesis =>
      obtain ⟨written, unmarked⟩ := first
      cases row with
      | nil =>
          have last := WrittenRow.cons
            (SortField.Marked.descending written.ne_nil written unmarked isDesc) .nil
          rwa [List.append_nil] at last ⊢
      | cons second row =>
          rw [List.append_assoc]
          exact .cons (.ascending written.ne_nil written unmarked) (hypothesis (by simp))

theorem is_desc_of_mem_takeWhile
    {word : Word}
    (member : word ∈ run.takeWhile (!·.is .desc)) :
    word.is .desc = false := by
  simpa using List.mem_takeWhile_imp member

/-- The sort keys of an `Order` clause are written as its words. -/
theorem markedRow_of_readSort
    (reads : readSort schema run = .ok fields) :
    WrittenRow (SortField.Marked schema) fields run := by
  have run_eq := (List.takeWhile_append_dropWhile (p := (!Word.is · .desc)) (l := run)).symm
  fun_induction readSort schema run generalizing fields with
  | case1 run segment noDesc =>
      rename_i nothing
      obtain rfl := Except.ok.inj reads
      rw [noDesc, List.append_nil] at run_eq
      rw [run_eq.trans (List.isEmpty_iff.mp nothing)]
      exact .nil
  | case2 => simp at reads
  | case3 run segment noDesc words paths =>
      rename_i resolved
      obtain rfl := Except.ok.inj reads
      obtain ⟨-, row⟩ := FieldPath.writtenRow_of_resolveAll resolved
      have unmarkedRow := row.forall_words fun _ => is_desc_of_mem_takeWhile
      rw [noDesc, List.append_nil] at run_eq
      rw [run_eq]
      exact unmarkedRow.map _ fun _ _ part => .ascending part.1.ne_nil part.1 part.2
  | case4 => simp at reads
  | case5 => simp at reads
  | case6 run segment desc after behind words paths resolved =>
      rename_i hypothesis
      obtain ⟨others, readsOthers, rfl⟩ := except_map_eq_ok_iff.mp reads
      obtain ⟨nonempty, row⟩ := FieldPath.writtenRow_of_resolveAll resolved
      have unmarkedRow := row.forall_words fun _ => is_desc_of_mem_takeWhile
      have isDesc : desc.is .desc := by
        have stops := List.head?_dropWhile_not (fun word : Word => !word.is .desc) run
        rw [behind] at stops
        simpa using stops
      have descending :=
        markedRow_lastDescending unmarkedRow (row.items_ne_nil nonempty) isDesc
      rw [behind, List.append_cons] at run_eq
      rw [run_eq]
      exact descending.append (hypothesis readsOthers List.takeWhile_append_dropWhile.symm)

theorem countP_desc_of_markedRow
    (row : WrittenRow (SortField.Marked schema) fields run) :
    run.countP (·.is .desc) = fields.countP (·.direction == .descending) := by
  induction row with
  | nil => rfl
  | @cons field fields run rest first row hypothesis =>
      rw [List.countP_append, hypothesis, first.countP_desc, ← List.countP_append]
      rfl

/-! ## What can be read -/

/-- The keys up to the first descending one are fields without `Desc`, and keys
follow behind its `Desc`. -/
theorem markedRow_cases
    (row : WrittenRow (SortField.Marked schema) fields run) :
    (Cuttable schema run ∧ ∀ word ∈ run, word.is .desc = false) ∨
    ∃ segment desc after others, run = segment ++ desc :: after ∧ segment ≠ [] ∧
      Cuttable schema segment ∧ (∀ word ∈ segment, word.is .desc = false) ∧ desc.is .desc ∧
      WrittenRow (SortField.Marked schema) others after := by
  induction row with
  | nil => exact .inl ⟨⟨[], rfl⟩, by simp⟩
  | @cons field fields part rest first row hypothesis =>
      cases first with
      | ascending nonempty written unmarked =>
          rcases hypothesis with ⟨further, unmarkedRest⟩ |
            ⟨segment, desc, after, others, rfl, -, further, unmarkedSegment, isDesc, behind⟩
          · exact .inl ⟨written.cuttable.append further,
              List.forall_mem_append.mpr ⟨unmarked, unmarkedRest⟩⟩
          · exact .inr ⟨part ++ segment, desc, after, others, by simp, by simp [nonempty],
              written.cuttable.append further,
              List.forall_mem_append.mpr ⟨unmarked, unmarkedSegment⟩, isDesc, behind⟩
      | @descending key words desc nonempty written unmarked isDesc =>
          exact .inr ⟨words, desc, rest, fields, by simp, nonempty,
            written.cuttable, unmarked, isDesc, row⟩

/-- Keys that are written one behind the other can be read. -/
theorem exists_readSort_of_markedRow
    (texts : ∀ word ∈ run, word.text ≠ "")
    (row : WrittenRow (SortField.Marked schema) fields run) :
    ∃ sort, readSort schema run = .ok sort := by
  induction length_eq : run.length using Nat.strong_induction_on generalizing run fields with
  | h length hypothesis =>
      rw [readSort_eq]
      rcases markedRow_cases row with ⟨cuttable, unmarked⟩ |
        ⟨segment, desc, after, others, rfl, nonempty, cuttable, unmarked, isDesc, behind⟩
      · have passed : ∀ word ∈ run, (!word.is .desc) := by simpa using unmarked
        rw [List.takeWhile_eq_self_iff.mpr passed, List.dropWhile_eq_nil_iff.mpr passed]
        by_cases nothing : run = []
        · exact ⟨[], by simp [nothing]⟩
        · obtain ⟨paths, resolved⟩ := cuttable.exists_resolveAll nothing texts
          exact ⟨paths.map fun path => ⟨path.key, .ascending⟩, by simp [nothing, resolved]⟩
      · have passed : ∀ word ∈ segment, (!word.is .desc) := by simpa using unmarked
        rw [List.forall_mem_append, List.forall_mem_cons] at texts
        obtain ⟨paths, resolved⟩ := cuttable.exists_resolveAll nonempty texts.1
        have shorter : after.length < length := by
          rw [← length_eq, List.length_append, List.length_cons]
          omega
        obtain ⟨sort, reads⟩ := hypothesis after.length shorter texts.2.2 behind rfl
        have front : (segment ++ desc :: after).takeWhile (!·.is .desc) = segment := by
          rw [List.takeWhile_append_of_pos passed, List.takeWhile_cons_of_neg (by simp [isDesc]),
            List.append_nil]
        have back : (segment ++ desc :: after).dropWhile (!·.is .desc) = desc :: after := by
          rw [List.dropWhile_append_of_pos passed, List.dropWhile_cons_of_neg (by simp [isDesc])]
        rw [front, back]
        exact ⟨lastDescending paths ++ sort, by simp [nonempty, resolved, reads, Except.map]⟩

/-- The sort keys read from an `Order` clause are at least one and are written as
its words, in their order: each by the names of a chain of fields with its key,
and by `Desc` behind them exactly if it is descending. There are as many
descending keys as words `Desc`. A clause written in this way is always read. -/
theorem readSort_marks
    (schema : Schema)
    (run : List Word)
    (nonempty : run ≠ []) :
    (∀ fields, readSort schema run = .ok fields ->
      fields ≠ [] ∧ WrittenRow (SortField.Marked schema) fields run ∧
        fields.countP (·.direction == .descending) = run.countP (·.is .desc)) ∧
    ((∀ word ∈ run, word.text ≠ "") ->
      ∀ fields, WrittenRow (SortField.Marked schema) fields run ->
        ∃ sort, readSort schema run = .ok sort) := by
  refine ⟨fun fields reads => ?_, fun texts fields row => exists_readSort_of_markedRow texts row⟩
  have row := markedRow_of_readSort reads
  exact ⟨row.items_ne_nil nonempty, row, (countP_desc_of_markedRow row).symm⟩

/-- One `Desc` behind the longer of two names that fit, and keys in ascending
order on both sides. -/
theorem readSort_marks_middle :
    let schema : Schema := ⟨"User", [⟨"Name", "name", .ident "string", none⟩,
      ⟨"NameHello", "name_hello", .ident "string", none⟩, ⟨"Age", "age", .ident "int", none⟩,
      ⟨"ID", "_id", .ident "string", none⟩]⟩
    let run := Word.segment "AgeNameHelloDescID"
    let fields : List SortField :=
      [⟨"age", .ascending⟩, ⟨"name_hello", .descending⟩, ⟨"_id", .ascending⟩]
    readSort schema run = .ok fields ∧ WrittenRow (SortField.Marked schema) fields run ∧
      fields.countP (·.direction == .descending) = run.countP (·.is .desc) := by
  intro schema run fields
  have nonempty : run ≠ [] := by decide +kernel
  have reads : readSort schema run = .ok fields := by
    rw [← except_toOption_eq_some_iff]
    decide +kernel
  exact ⟨reads, ((readSort_marks schema run nonempty).1 fields reads).2⟩

end Find
end DerivedQuery
