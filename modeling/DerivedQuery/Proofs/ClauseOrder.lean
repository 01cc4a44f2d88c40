import DerivedQuery.Proofs.ClauseReader
import DerivedQuery.Proofs.Locality
import DerivedQuery.Proofs.Signature

/-!
# The order of clauses

Each clause of a Find settles its entry from its own words and its own share of
the parameters. Settling different entries commutes, so the clauses of a Find,
moved together with their shares, may be written in any order.
-/

namespace DerivedQuery

variable {scope : Scope}
variable {mode : Mode}
variable {params rest : List Param}

namespace Find

theorem local_readSetting
    (scope : Scope)
    (mode : Mode)
    (clause : Clause) :
    (readSetting scope mode clause).Local := by
  have local_readPaging (option : Keyword) : (readPaging scope option clause).Local := by
    unfold readPaging
    split
    · apply (Binding.local_takeParam _).bind
      intro param
      split
      · exact Binding.local_pure _
      · exact Binding.local_refuse _ _
    · exact Binding.local_throw _
  unfold readSetting
  split
  · split
    · exact Binding.local_refuse _ _
    · exact (Binding.local_ofResult _).then_pure _
  · exact (local_readPaging .skip).then_pure _
  · split
    · exact Binding.local_refuse _ _
    · exact (local_readPaging .limit).then_pure _
  · exact (Query.local_read scope clause.run).then_pure _

/-- Clauses do not see the parameters of the method. -/
theorem readClauses_withParams
    (descriptor : String)
    (others : List Param)
    (settled : Clauses)
    (clauses : List Clause) :
    readClauses (scope.withParams descriptor others) mode settled clauses =
      readClauses scope mode settled clauses := by
  induction clauses generalizing settled with
  | nil => rfl
  | cons clause clauses hypothesis =>
      simp only [readClauses, hypothesis]
      unfold readClause
      rw [Query.read_withParams]
      rfl

/-! ## Clauses with their shares -/

/-- A clause and the share of parameters that goes with it. -/
structure Portion where
  clause : Clause
  share : List Param
  /-- The first word starts a clause. -/
  starts : startsClause clause.head
  /-- No other word does. -/
  single : ∀ word ∈ clause.body, startsClause word = false

namespace Portion

/-- The words of the clause. -/
def words (portion : Portion) : List Word :=
  portion.clause.run

end Portion

/-- The shares of parameters are those the clauses bind: when the first so many
clauses are read, just the shares of the others are left. -/
def Portioned
    (scope : Scope)
    (mode : Mode)
    (settled : Clauses)
    (portions : List Portion) : Prop :=
  ∀ count,
    ((readClauses scope mode settled ((portions.take count).map Portion.clause)).start
      (portions.flatMap Portion.share)).2 = (portions.drop count).flatMap Portion.share

/-- Portions that settle entries one after the other, each from its own share. -/
inductive Settles (scope : Scope) (mode : Mode) :
    Clauses -> List Portion -> Clauses -> Prop
  | nil
      {settled : Clauses} :
      Settles scope mode settled [] settled
  | cons
      {settled last : Clauses}
      {portion : Portion}
      {portions : List Portion}
      {setting : Setting}
      (reads : (readSetting scope mode portion.clause).Yields portion.share setting [])
      (free : settled.get? setting.entry = none)
      (further : Settles scope mode (settled.put setting) portions last) :
      Settles scope mode settled (portion :: portions) last

namespace Settles

variable {settled last : Clauses}
variable {portions others : List Portion}

/-- The steps of the readers, taken apart. -/
theorem of_portioned
    (portioned : Portioned scope mode settled portions)
    (yields : (readClauses scope mode settled (portions.map Portion.clause)).Yields
      (portions.flatMap Portion.share) last []) :
    Settles scope mode settled portions last := by
  induction portions generalizing settled with
  | nil =>
      obtain ⟨rfl, -⟩ := Binding.yields_pure.mp yields
      exact .nil
  | cons portion portions hypothesis =>
      obtain ⟨next, middle, readsClause, readsClauses⟩ := Binding.yields_bind.mp yields
      -- Every reading of a few clauses goes on from where the first one stopped.
      have left (count : Nat) :
          ((readClauses scope mode next ((portions.take count).map Portion.clause)).start
            middle).2 = (portions.drop count).flatMap Portion.share := by
        have behind := portioned (count + 1)
        rw [List.take_succ_cons, List.map_cons, readClauses, Binding.start_bind, readsClause]
          at behind
        exact behind
      have share_eq : middle = portions.flatMap Portion.share := left 0
      subst share_eq
      obtain ⟨setting, readsSetting, free, rfl⟩ := yields_readClause_iff.mp readsClause
      have readsShare := (local_readSetting scope mode portion.clause).yields_of_share
        readsSetting []
      rw [List.append_nil] at readsShare
      exact .cons readsShare free (hypothesis left readsClauses)

/-- Portions may change places. -/
theorem perm
    (permuted : portions.Perm others)
    (settles : Settles scope mode settled portions last) :
    Settles scope mode settled others last := by
  induction permuted generalizing settled with
  | nil => exact settles
  | cons portion permuted hypothesis =>
      cases settles with
      | cons reads free further => exact .cons reads free (hypothesis further)
  | swap second first portions =>
      cases settles with
      | @cons _ _ _ _ setting reads free further =>
          cases further with
          | @cons _ _ _ _ otherSetting otherReads otherFree further =>
              have distinct : otherSetting.entry ≠ setting.entry := by
                intro same
                simp [Clauses.get?_put, same] at otherFree
              rw [Clauses.get?_put, if_neg distinct] at otherFree
              rw [Clauses.put_comm settled distinct.symm] at further
              refine .cons otherReads otherFree (.cons reads ?_ further)
              rw [Clauses.get?_put, if_neg distinct.symm, free]
  | trans permuted permutedFurther hypothesis hypothesisFurther =>
      exact hypothesisFurther (hypothesis settles)

theorem yields_readClauses
    (settles : Settles scope mode settled portions last) :
    (readClauses scope mode settled (portions.map Portion.clause)).Yields
      (portions.flatMap Portion.share) last [] := by
  induction settles with
  | nil => exact Binding.yields_pure.mpr ⟨rfl, rfl⟩
  | @cons settled last portion portions setting reads free further hypothesis =>
      have readsShare := (local_readSetting scope mode portion.clause).yields_append reads
        (portions.flatMap Portion.share)
      refine Binding.yields_bind.mpr ⟨settled.put setting, _, ?_, hypothesis⟩
      exact yields_readClause_iff.mpr ⟨setting, readsShare, free, rfl⟩

end Settles

/-! ## Cutting a run into clauses -/

theorem takeWhile_words (portions : List Portion) :
    (portions.flatMap Portion.words).takeWhile (!startsClause ·) = [] := by
  cases portions with
  | nil => rfl
  | cons portion portions => simp [Portion.words, Clause.run, portion.starts]

theorem dropWhile_words (portions : List Portion) :
    (portions.flatMap Portion.words).dropWhile (!startsClause ·) =
      portions.flatMap Portion.words := by
  cases portions with
  | nil => rfl
  | cons portion portions => simp [Portion.words, Clause.run, portion.starts]

/-- Words without a clause keyword stay in front of the cut. -/
theorem takeWhile_append_words
    {plain : List Word}
    (noClause : ∀ word ∈ plain, startsClause word = false)
    (portions : List Portion) :
    (plain ++ portions.flatMap Portion.words).takeWhile (!startsClause ·) = plain := by
  rw [List.takeWhile_append_of_pos (by simpa using noClause), takeWhile_words, List.append_nil]

theorem dropWhile_append_words
    {plain : List Word}
    (noClause : ∀ word ∈ plain, startsClause word = false)
    (portions : List Portion) :
    (plain ++ portions.flatMap Portion.words).dropWhile (!startsClause ·) =
      portions.flatMap Portion.words := by
  rw [List.dropWhile_append_of_pos (by simpa using noClause), dropWhile_words]

/-- The cut finds the clauses that were put together. -/
theorem ofRun_words (portions : List Portion) :
    Clause.ofRun (portions.flatMap Portion.words) = portions.map Portion.clause := by
  induction portions with
  | nil => simp [Clause.ofRun]
  | cons portion portions hypothesis =>
      rw [List.flatMap_cons, Portion.words, Clause.run, List.cons_append, Clause.ofRun,
        takeWhile_append_words portion.single, dropWhile_append_words portion.single, hypothesis,
        List.map_cons]

end Find

/-! ## Reading in another order -/

namespace Find

/-- Only the context and the results of a method matter to the signature of a
Find. -/
theorem signature_withParams
    {descriptor : String}
    {context : Param}
    {others : List Param}
    {outcome : Mode × TypeExpr}
    (params_eq : scope.method.params = context :: rest)
    (signed : Signature.find scope.method scope.config = .ok outcome) :
    Signature.find (scope.withParams descriptor (context :: others)).method scope.config =
      .ok outcome := by
  obtain ⟨⟨_, _, opens, typed⟩, returns, shape⟩ := Signature.find_eq_ok_iff.mp signed
  obtain ⟨rfl, -⟩ := List.cons.inj (params_eq.symm.trans opens)
  exact Signature.find_eq_ok_iff.mpr ⟨⟨context, others, rfl, typed⟩, returns, shape⟩

/-- The clauses of an accepted Find, moved together with the parameters that
each of them binds, are accepted in any order and say the same. -/
theorem read_permuted_clauses
    (scope : Scope)
    (descriptor : String)
    (context : Param)
    (rest : List Param)
    (projection : List Word)
    (portions permuted : List Portion)
    (find : Find)
    (plain : ∀ word ∈ projection, startsClause word = false)
    (params_eq : scope.method.params = context :: portions.flatMap Portion.share)
    (accepted :
      (Find.read scope (projection ++ portions.flatMap Portion.words)).start
        scope.method.params = (.ok find, rest))
    (portioned : Portioned scope find.mode {} portions)
    (permutes : permuted.Perm portions) :
    (Find.read (scope.withParams descriptor (context :: permuted.flatMap Portion.share))
        (projection ++ permuted.flatMap Portion.words)).start
      (context :: permuted.flatMap Portion.share) = (.ok find, []) := by
  obtain ⟨_, _, settled, signed, same_params, queried, projects, reads, settles, method, named,
    sort, skip, limit, -⟩ := yields_read_iff.mp accepted
  obtain ⟨rfl, rfl⟩ := List.cons.inj (params_eq.symm.trans same_params)
  rw [takeWhile_append_words plain] at projects
  rw [dropWhile_append_words plain, ofRun_words] at reads
  have settlesPermuted := (Settles.of_portioned portioned reads).perm permutes.symm
  apply yields_read_iff.mpr
  refine ⟨context, _, settled, signature_withParams params_eq signed, rfl, ?_, ?_, ?_, settles,
    method, named, sort, skip, limit, rfl⟩
  · have sameWords := (permutes.flatMap_right Portion.words).append_left projection
    simpa only [sameWords.mem_iff] using queried
  · rw [takeWhile_append_words plain]
    exact projects
  · rw [dropWhile_append_words plain, ofRun_words, readClauses_withParams]
    exact settlesPermuted.yields_readClauses

/-- Four clauses that bind none, one and three parameters, in the reverse order. -/
theorem read_permuted_clauses_reversed :
    let context : Param := ⟨"ctx", .selector "context" "Context"⟩
    let order : Portion :=
      ⟨⟨⟨"Order", ⟨11, 16⟩⟩, Word.segment "AgeDescName"⟩, [], by decide +kernel, by decide +kernel⟩
    let query : Portion :=
      ⟨⟨⟨"By", ⟨27, 29⟩⟩, Word.segment "NameEqualAndAgeBetween"⟩,
        [⟨"name", .ident "string"⟩, ⟨"low", .ident "int"⟩, ⟨"high", .ident "int"⟩],
        by decide +kernel, by decide +kernel⟩
    let limit : Portion :=
      ⟨⟨⟨"Limit", ⟨51, 56⟩⟩, []⟩, [⟨"limit", .ident "int64"⟩], by decide +kernel, by decide +kernel⟩
    let skip : Portion :=
      ⟨⟨⟨"Skip", ⟨56, 60⟩⟩, []⟩, [⟨"skip", .ident "int64"⟩], by decide +kernel, by decide +kernel⟩
    let portions := [order, query, limit, skip]
    let scope : Scope := {
      method := ⟨"Adults", "", context :: portions.flatMap Portion.share,
        [.slice (.ident "User"), .ident "error"]⟩
      schema := ⟨"User",
        [⟨"Name", "name", .ident "string", none⟩, ⟨"Age", "age", .ident "int", none⟩]⟩
      config := Config.standard.withSplitStrategy .nested }
    let projection := Word.segment "NameAge"
    let find : Find := ⟨"Adults", .many, "ctx", .slice (.ident "User"), ["name", "age"],
      [⟨"age", .descending⟩, ⟨"name", .ascending⟩], some "skip", some "limit",
      .matching (.node .and (.leaf ⟨.equal, "name", ["name"]⟩)
        (.leaf ⟨.between, "age", ["low", "high"]⟩))⟩
    (∀ word ∈ projection, startsClause word = false) ∧
      (Find.read scope (projection ++ portions.flatMap Portion.words)).start
        scope.method.params = (.ok find, []) ∧
      Portioned scope find.mode {} portions ∧
      portions.reverse.Perm portions ∧
      (Find.read (scope.withParams "" (context :: portions.reverse.flatMap Portion.share))
          (projection ++ portions.reverse.flatMap Portion.words)).start
        (context :: portions.reverse.flatMap Portion.share) = (.ok find, []) := by
  intro context order query limit skip portions scope projection find
  have plain : ∀ word ∈ projection, startsClause word = false := by decide +kernel
  have accepted : (Find.read scope (projection ++ portions.flatMap Portion.words)).start
      scope.method.params = (.ok find, []) := by
    apply toOption_pair_eq_iff.mp
    decide +kernel
  have portioned : Portioned scope find.mode {} portions := by
    intro count
    rcases count with _ | _ | _ | _ | count
    · decide +kernel
    · decide +kernel
    · decide +kernel
    · decide +kernel
    · have all : portions.take (count + 4) = portions := by simp [portions]
      have none_left : portions.drop (count + 4) = [] := by simp [portions]
      rw [all, none_left]
      decide +kernel
  refine ⟨plain, accepted, portioned, portions.reverse_perm, ?_⟩
  exact read_permuted_clauses scope "" context [] projection portions portions.reverse find plain
    rfl accepted portioned portions.reverse_perm

end Find
end DerivedQuery
