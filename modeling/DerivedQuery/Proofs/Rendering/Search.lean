import DerivedQuery.Proofs.Rendering.Write
import DerivedQuery.Proofs.SortOrder

/-!
# Words of searches

The clauses of a Find are cut out of its run without loss. Each of them adds
one setting to those settled before it, and every setting is written as its
clause.
-/

namespace DerivedQuery

variable {scope : Scope}
variable {params rest : List Param}

namespace Count

theorem written_of_yields_read
    {run : List Word}
    {count : Count}
    (free : scope.schema.BracketFree)
    (yields : (Count.read scope run).Yields params count rest) :
    count.query.Written scope.schema run := by
  obtain ⟨_, _, -, -, -, readsQuery, -⟩ := yields_read_iff.mp yields
  exact Query.written_of_yields_read free readsQuery

end Count

namespace Find

/-! ## Sort keys -/

/-- The sort keys of an `Order` clause are written as its words. -/
theorem writtenRow_of_readSort
    {schema : Schema}
    {run : List Word}
    {sort : List SortField}
    (reads : readSort schema run = .ok sort) :
    WrittenRow (SortField.Written schema) sort run :=
  (markedRow_of_readSort reads).mono fun _ _ marked => marked.written

/-! ## Clauses -/

theorem flatMap_run_ofRun (run : List Word) :
    (Clause.ofRun run).flatMap Clause.run = run := by
  fun_induction Clause.ofRun run with
  | case1 => rfl
  | case2 head rest hypothesis =>
      rw [List.flatMap_cons, hypothesis, Clause.run, List.cons_append,
        List.takeWhile_append_dropWhile]

/-- What clauses have settled, in the order of a finished record. -/
def Clauses.settings (settled : Clauses) : List Setting :=
  settled.sort.toList.map .order ++ settled.skip.toList.map .skip ++
    settled.limit.toList.map .limit ++ settled.query.toList.map .query

theorem Clauses.settings_put
    {settled : Clauses}
    {setting : Setting}
    (free : settled.get? setting.entry = none) :
    (setting :: settled.settings).Perm (settled.put setting).settings := by
  cases setting with
  | order fields =>
      have unsettled : settled.sort = none := by simpa [Setting.entry, get?] using free
      simp [settings, put, unsettled]
  | skip param =>
      have unsettled : settled.skip = none := by simpa [Setting.entry, get?] using free
      simpa [settings, put, unsettled] using List.perm_middle.symm
  | limit param =>
      have unsettled : settled.limit = none := by simpa [Setting.entry, get?] using free
      simp only [settings, put, unsettled, Option.toList_none, Option.toList_some,
        List.map_nil, List.map_singleton, List.append_nil, List.append_assoc _ [_]]
      exact List.perm_middle.symm
  | query query =>
      have unsettled : settled.query = none := by simpa [Setting.entry, get?] using free
      simp only [settings, put, unsettled, Option.toList_none, Option.toList_some, List.map_nil,
        List.map_singleton, List.append_nil]
      exact (List.perm_append_singleton _ _).symm

/-- What a clause settles is written as the clause. -/
theorem written_of_yields_readSetting
    {mode : Mode}
    {clause : Clause}
    {setting : Setting}
    (free : scope.schema.BracketFree)
    (yields : (readSetting scope mode clause).Yields params setting rest) :
    setting.Written scope.schema clause.run := by
  rcases yields_readSetting_iff.mp yields with
    ⟨isOrder, words, sort, rfl, reads, -⟩ | ⟨isSkip, name, rfl, reads⟩ |
    ⟨isLimit, -, name, rfl, reads⟩ | ⟨-, -, -, query, rfl, reads⟩
  · have row := writtenRow_of_readSort reads
    exact .order (Word.is_iff.mpr isOrder) (row.items_ne_nil words) row
  · rw [Clause.run, (yields_readPaging_iff.mp reads).1]
    exact .skip (Word.is_iff.mpr isSkip)
  · rw [Clause.run, (yields_readPaging_iff.mp reads).1]
    exact .limit (Word.is_iff.mpr isLimit)
  · exact .query (Query.written_of_yields_read free reads)

/-- Clauses add their settings one after the other. -/
theorem writtenRow_of_yields_readClauses
    {mode : Mode}
    {clauses : List Clause}
    {settled last : Clauses}
    (free : scope.schema.BracketFree)
    (yields : (readClauses scope mode settled clauses).Yields params last rest) :
    ∃ settings : List Setting,
      WrittenRow (Setting.Written scope.schema) settings (clauses.flatMap Clause.run) ∧
      (settings ++ settled.settings).Perm last.settings := by
  induction clauses generalizing settled params with
  | nil =>
      obtain ⟨rfl, -⟩ := Binding.yields_pure.mp yields
      exact ⟨[], .nil, .refl _⟩
  | cons clause clauses hypothesis =>
      obtain ⟨next, middle, readsClause, readsClauses⟩ := Binding.yields_bind.mp yields
      obtain ⟨setting, reads, unsettled, rfl⟩ := yields_readClause_iff.mp readsClause
      obtain ⟨settings, row, permuted⟩ := hypothesis readsClauses
      refine ⟨setting :: settings, .cons (written_of_yields_readSetting free reads) row, ?_⟩
      calc
        (setting :: settings ++ settled.settings).Perm
            (settings ++ setting :: settled.settings) := List.perm_middle.symm
        List.Perm _ (settings ++ (settled.put setting).settings) :=
          (Clauses.settings_put unsettled).append_left settings
        List.Perm _ last.settings := permuted

theorem writtenRow_of_readProjection
    {schema : Schema}
    {run : List Word}
    {keys : List String}
    (reads : readProjection schema run = .ok keys) :
    WrittenRow schema.KeyWritten keys run := by
  unfold readProjection at reads
  split at reads
  · rename_i nothing
    obtain rfl := Except.ok.inj reads
    rw [List.isEmpty_iff.mp nothing]
    exact .nil
  · split at reads
    · simp at reads
    · rename_i paths resolved
      obtain rfl := Except.ok.inj reads
      obtain ⟨-, row⟩ := FieldPath.writtenRow_of_resolveAll resolved
      exact row.map FieldPath.key fun _ _ written => written

theorem written_of_yields_read
    {run : List Word}
    {find : Find}
    (free : scope.schema.BracketFree)
    (yields : (Find.read scope run).Yields params find rest) :
    find.Written scope.schema run := by
  obtain ⟨_, _, settled, -, -, -, projects, readsClauses, settles, -, -, sort_eq, skip_eq, limit_eq,
    -⟩ := yields_read_iff.mp yields
  obtain ⟨settings, row, permuted⟩ := writtenRow_of_yields_readClauses free readsClauses
  rw [flatMap_run_ofRun] at row
  rw [← List.takeWhile_append_dropWhile (p := (!startsClause ·)) (l := run)]
  refine .intro (writtenRow_of_readProjection projects) ?_ row
  have none_settled : ({} : Clauses).settings = [] := rfl
  rw [none_settled, List.append_nil] at permuted
  -- A settled order has a key, so it is not taken for the lack of an order.
  have ordered (sort : List SortField) (sorts : settled.sort = some sort) : sort ≠ [] := by
    have member : Setting.order sort ∈ settings :=
      permuted.mem_iff.mpr (by simp [Clauses.settings, sorts])
    obtain ⟨part, written⟩ := row.exists_of_mem member
    cases written with
    | order isOrder nonempty keys => exact nonempty
  refine permuted.trans (.of_eq ?_)
  rw [Find.settings, Clauses.settings, settles, sort_eq, skip_eq, limit_eq]
  cases sorts : settled.sort with
  | none => rfl
  | some sort => simp [ordered sort sorts]

end Find

end DerivedQuery
