import DerivedQuery.Codec.Record
import DerivedQuery.Proofs.Binding
import DerivedQuery.Proofs.TypeSpelling

/-!
# Laws of codecs

A value is read back when reading what was written for it yields the value
again, whatever order the members of objects are put in. A codec ensures a
property when everything it reads has it, from whatever document. Both laws
hold of the basic codecs and carry over to lists, tagged values, records and
recursive types.
-/

namespace DerivedQuery

/-! ## The order of members -/

namespace Json

/-- The values of the members with a given key, in order. -/
def valuesOf (key : String) (members : List (String × Json)) : List Json :=
  (members.filter (·.1 = key)).map Prod.snd

@[simp] theorem valuesOf_nil (key : String) : valuesOf key [] = [] := rfl

theorem valuesOf_cons
    (key : String)
    (member : String × Json)
    (members : List (String × Json)) :
    valuesOf key (member :: members) =
      if member.1 = key then member.2 :: valuesOf key members else valuesOf key members := by
  by_cases same : member.1 = key <;> simp [valuesOf, same]

@[simp] theorem valuesOf_append
    (key : String)
    (front back : List (String × Json)) :
    valuesOf key (front ++ back) = valuesOf key front ++ valuesOf key back := by
  simp [valuesOf]

theorem valuesOf_eq_nil
    {key : String}
    {members : List (String × Json)}
    (fresh : ∀ member ∈ members, member.1 ≠ key) :
    valuesOf key members = [] := by
  simpa [valuesOf] using fresh

theorem depth_le_of_mem_valuesOf
    {key : String}
    {members : List (String × Json)}
    {json : Json}
    (present : json ∈ valuesOf key members) :
    json.depth ≤ membersDepth members := by
  induction members with
  | nil => simp at present
  | cons member members hypothesis =>
      have bound := Nat.le_max_right member.2.depth (membersDepth members)
      rw [valuesOf_cons] at present
      rw [membersDepth]
      split at present
      · rcases List.mem_cons.mp present with rfl | later
        · exact Nat.le_max_left _ _
        · exact Nat.le_trans (hypothesis later) bound
      · exact Nat.le_trans (hypothesis present) bound

theorem valuesOf_of_distinct
    {members : List (String × Json)}
    (distinct : (members.map Prod.fst).Nodup)
    (key : String) :
    valuesOf key members = [] ∨ ∃ json, valuesOf key members = [json] := by
  induction members with
  | nil => exact .inl rfl
  | cons member members hypothesis =>
      rw [List.map_cons, List.nodup_cons] at distinct
      rw [valuesOf_cons]
      split
      · rename_i same
        have others : valuesOf key members = [] := by
          apply valuesOf_eq_nil
          intro other present equal
          exact distinct.1 (List.mem_map.mpr ⟨other, present, equal.trans same.symm⟩)
        exact .inr ⟨member.2, by rw [others]⟩
      · exact hypothesis distinct.2

/-- A way to put the members of objects in order. Only objects without repeated
keys need to keep all of their members. -/
structure Arrangement where
  apply : Json -> Json
  apply_scalar : ∀ json, json.depth = 0 -> apply json = json
  apply_array : ∀ elements, apply (.array elements) = .array (elements.map apply)
  apply_object : ∀ members : List (String × Json), (members.map Prod.fst).Nodup ->
    ∃ arranged, apply (.object members) = .object arranged ∧
      arranged.Perm (members.map fun member => (member.1, apply member.2))
  eq_null_of_apply : ∀ json, apply json = .null -> json = .null

namespace Arrangement

/-- The order in which members are written. -/
def written : Arrangement where
  apply := id
  apply_scalar _ _ := rfl
  apply_array elements := by simp
  apply_object members _ := ⟨members, rfl, by simp⟩
  eq_null_of_apply _ isNull := isNull

end Arrangement

theorem sortedElements_eq_map (elements : List Json) :
    sortedElements elements = elements.map sorted := by
  induction elements with
  | nil => rfl
  | cons element elements hypothesis => rw [sortedElements, hypothesis, List.map_cons]

theorem insertMember_perm
    {key : String}
    {value : Json}
    {members : List (String × Json)}
    (fresh : key ∉ members.map Prod.fst) :
    (insertMember key value members).Perm ((key, value) :: members) := by
  induction members with
  | nil => exact .refl _
  | cons member members hypothesis =>
      simp only [List.map_cons, List.mem_cons, not_or] at fresh
      rw [insertMember]
      split
      · exact .refl _
      · rw [if_neg fresh.1]
        exact ((hypothesis fresh.2).cons member).trans (.swap _ _ _)

/-- The induction is on the members that are still to be inserted. -/
theorem sortedMembers_perm
    {done members : List (String × Json)}
    (distinct : ((done ++ members).map Prod.fst).Nodup) :
    (sortedMembers done members).Perm
      (done ++ members.map fun member => (member.1, member.2.sorted)) := by
  induction members generalizing done with
  | nil => simp [sortedMembers]
  | cons member members hypothesis =>
      obtain ⟨key, value⟩ := member
      have fresh : key ∉ done.map Prod.fst := by
        rw [List.map_append, List.map_cons, List.nodup_append] at distinct
        intro present
        exact distinct.2.2 key present key List.mem_cons_self rfl
      have inserted : (insertMember key value.sorted done).Perm ((key, value.sorted) :: done) :=
        insertMember_perm fresh
      have moved : ((insertMember key value.sorted done ++ members).map Prod.fst).Perm
          ((done ++ (key, value) :: members).map Prod.fst) := by
        have keys := (inserted.append_right members).map Prod.fst
        refine keys.trans ?_
        simp only [List.cons_append, List.map_cons, List.map_append]
        exact List.perm_middle.symm
      rw [sortedMembers, List.map_cons]
      refine (hypothesis (moved.nodup_iff.mpr distinct)).trans ?_
      exact (inserted.append_right _).trans List.perm_middle.symm

/-- Members in the order of their keys. -/
def Arrangement.byKey : Arrangement where
  apply := sorted
  apply_scalar json isScalar := by
    cases json with
    | array elements => simp [depth] at isScalar
    | object members => simp [depth] at isScalar
    | _ => rfl
  apply_array elements := by rw [sorted, sortedElements_eq_map]
  apply_object members distinct := ⟨sortedMembers [] members, by rw [sorted],
    sortedMembers_perm distinct⟩
  eq_null_of_apply json isNull := by
    cases json with
    | null => rfl
    | _ => simp [sorted] at isNull

end Json

namespace Codec

variable {α β : Type}

/-! ## Reading back -/

section ReadsBack

variable (arrangement : Json.Arrangement)

/-- With fewer than `bound` levels, `reader` reads back what `writer` has
written for a value. The two differ inside a recursive type, where a codec is
approximated for reading and for writing. -/
def ReadsBack (bound : Nat) (reader writer : Codec α) (value : α) : Prop :=
  ∀ levels < bound, (arrangement.apply (writer.write value)).depth ≤ levels ->
    reader.read levels (arrangement.apply (writer.write value)) = .ok value

variable {arrangement}
variable {bound : Nat}
variable {reader writer : Codec α}
variable {value : α}

theorem ReadsBack.mono
    {less : Nat}
    (back : ReadsBack arrangement bound reader writer value)
    (atMost : less ≤ bound) :
    ReadsBack arrangement less reader writer value := by
  intro levels enough deep
  exact back levels (Nat.lt_of_lt_of_le enough atMost) deep

/-- A scalar is written in one way only. -/
theorem readsBack_of_scalar
    (isScalar : (writer.write value).depth = 0)
    (reads : ∀ levels, reader.read levels (writer.write value) = .ok value) :
    ReadsBack arrangement bound reader writer value := by
  intro levels _ _
  rw [arrangement.apply_scalar _ isScalar]
  exact reads levels

theorem readsBack_string (text : String) : ReadsBack arrangement bound string string text :=
  readsBack_of_scalar rfl fun _ => rfl

theorem readsBack_bool (truth : Bool) : ReadsBack arrangement bound bool bool truth :=
  readsBack_of_scalar rfl fun _ => rfl

theorem readsBack_typeExpr
    {type : TypeExpr}
    (wellNamed : type.WellNamed) :
    ReadsBack arrangement bound typeExpr typeExpr type := by
  refine readsBack_of_scalar rfl ?_
  intro levels
  have reads : TypeExpr.parse type.render = .ok type := by
    rw [TypeExpr.parse, TypeExpr.render, String.toList_ofList]
    exact TypeExpr.read_of_spells wellNamed.spells_spelling
  change (TypeExpr.parse type.render).mapError DecodeError.badType = .ok type
  rw [reads]
  rfl

theorem ReadsBack.list
    {values : List α}
    (back : ∀ value ∈ values, ReadsBack arrangement bound reader writer value) :
    ReadsBack arrangement bound reader.list writer.list values := by
  intro levels enough deep
  change (arrangement.apply (.array (values.map writer.write))).depth ≤ levels at deep
  change reader.list.read levels (arrangement.apply (.array (values.map writer.write))) = _
  rw [arrangement.apply_array, List.map_map] at deep ⊢
  cases levels with
  | zero => simp [Json.depth] at deep
  | succ inner =>
      rw [Json.depth, Nat.add_le_add_iff_right] at deep
      change (values.map (arrangement.apply ∘ writer.write)).mapM (reader.read inner) = _
      induction values with
      | nil => rfl
      | cons value values hypothesis =>
          rw [List.forall_mem_cons] at back
          rw [List.map_cons, Json.elementsDepth, Nat.max_le] at deep
          have first := back.1 inner (Nat.lt_of_succ_lt enough) deep.1
          rw [List.map_cons, List.mapM_cons, hypothesis back.2 deep.2, Function.comp_apply, first]
          rfl

/-- A value that may be null is told from null. -/
theorem ReadsBack.optional
    {value? : Option α}
    (back : ∀ value, value? = some value -> ReadsBack arrangement bound reader writer value)
    (notNull : ∀ value, value? = some value -> writer.write value ≠ .null) :
    ReadsBack arrangement bound reader.optional writer.optional value? := by
  cases value? with
  | none =>
      refine readsBack_of_scalar rfl ?_
      intro levels
      rfl
  | some value =>
      intro levels enough deep
      have reads := back value rfl levels enough deep
      have arranged : arrangement.apply (writer.write value) ≠ .null :=
        fun isNull => notNull value rfl (arrangement.eq_null_of_apply _ isNull)
      change reader.optional.read levels (arrangement.apply (writer.write value)) = _
      simp only [Codec.optional]
      rw [reads]
      rfl

/-- A value in a form without content is written as the name of the form. -/
theorem readsBack_plain
    {readers writers : List (Variant α)}
    {write other : α -> Json}
    {name : String}
    (found : readers.find? (·.name == name) = some (Variant.plain name value))
    (written : write value = .string name) :
    ReadsBack arrangement bound (tagged readers other) (tagged writers write) value := by
  refine readsBack_of_scalar ?_ ?_
  · change (write value).depth = 0
    rw [written]
    rfl
  · intro levels
    change (tagged readers other).read levels (write value) = _
    rw [written]
    change Variant.readNamed readers levels name none = _
    rw [Variant.readNamed, found]
    rfl

/-- A value in a form with content is written as its content under the name of
the form. -/
theorem ReadsBack.holding
    {readers writers : List (Variant α)}
    {write other : α -> Json}
    {name : String}
    {inReader inWriter : Codec β}
    {make : β -> α}
    {content : β}
    (back : ReadsBack arrangement bound inReader inWriter content)
    (found : readers.find? (·.name == name) = some (Variant.holding name inReader make))
    (written : write value = .tagged name (inWriter.write content))
    (made : make content = value) :
    ReadsBack arrangement bound (tagged readers other) (tagged writers write) value := by
  intro levels enough deep
  change (arrangement.apply (write value)).depth ≤ levels at deep
  change (tagged readers other).read levels (arrangement.apply (write value)) = _
  obtain ⟨arranged, applied, permuted⟩ :=
    arrangement.apply_object [(name, inWriter.write content)] (by simp)
  rw [List.map_singleton, List.perm_singleton] at permuted
  rw [written, Json.tagged, applied, permuted] at deep ⊢
  cases levels with
  | zero => simp [Json.depth] at deep
  | succ inner =>
      simp only [Json.depth, Json.membersDepth, Nat.add_le_add_iff_right, Nat.max_le] at deep
      change Variant.readNamed readers inner name (some (arrangement.apply _)) = _
      rw [Variant.readNamed, found]
      change (inReader.read inner (arrangement.apply _)).map make = _
      rw [back inner (Nat.lt_of_succ_lt enough) deep.1, ← made]
      rfl

/-- Values of an enumeration are told apart by their names. -/
theorem readsBack_enumeration
    {values : List α}
    {name : α -> String}
    (member : value ∈ values)
    (distinct : ∀ other ∈ values, name other = name value -> other = value) :
    ReadsBack arrangement bound (enumeration values name) (enumeration values name) value := by
  refine readsBack_plain ?_ rfl
  induction values with
  | nil => simp at member
  | cons first values hypothesis =>
      rw [List.map_cons]
      by_cases same : name first = name value
      · obtain rfl := distinct first List.mem_cons_self same
        exact List.find?_cons_of_pos (by simp [Variant.plain])
      · have later : value ∈ values := by
          rcases List.mem_cons.mp member with rfl | later
          · exact absurd rfl same
          · exact later
        rw [List.forall_mem_cons] at distinct
        rw [List.find?_cons_of_neg (by simpa [Variant.plain] using same)]
        exact hypothesis later distinct.2

/-- A value of a recursive type is read back if every layer reads back what
holds smaller values that are. -/
theorem readsBack_fix
    {layer : Codec α -> Codec α}
    {height : α -> Nat}
    (property : α -> Prop)
    (notNull : ∀ codec value, (layer codec).write value ≠ .null)
    (step : ∀ {bound reader writer value}, property value ->
      (∀ inner, property inner -> height inner < height value ->
        ReadsBack arrangement bound reader writer inner ∧ writer.write inner ≠ .null) ->
      ReadsBack arrangement (bound + 1) (layer reader) (layer writer) value)
    (holds : property value) :
    ReadsBack arrangement bound (fix layer height) (fix layer height) value := by
  -- More layers than the height are enough to write, more than the levels to read.
  have approximated (count : Nat) : ∀ value, property value -> height value < count -> ∀ bound,
      ReadsBack arrangement bound (approximation layer bound) (approximation layer count) value ∧
        (approximation layer count).write value ≠ .null := by
    induction count with
    | zero =>
        intro value _ low
        exact absurd low (Nat.not_lt_zero _)
    | succ count hypothesis =>
        intro value holds low bound
        refine ⟨?_, notNull _ _⟩
        cases bound with
        | zero =>
            intro levels enough
            exact absurd enough (Nat.not_lt_zero _)
        | succ bound =>
            apply step holds
            intro inner innerHolds lower
            exact hypothesis inner innerHolds (by omega) bound
  intro levels _ deep
  exact (approximated (height value + 1) value holds (Nat.lt_succ_self _) (levels + 1)).1
    levels (Nat.lt_succ_self _) deep

end ReadsBack

/-! ## Properties of what is read -/

/-- Everything that a codec reads has a property. -/
def Ensures (codec : Codec α) (property : α -> Prop) : Prop :=
  ∀ levels json value, codec.read levels json = .ok value -> property value

section Ensures

variable {codec : Codec α}
variable {property : α -> Prop}

theorem ensures_nothing (codec : Codec α) : codec.Ensures fun _ => True := by
  intro levels json value _
  trivial

theorem ensures_typeExpr : typeExpr.Ensures TypeExpr.WellNamed := by
  intro levels json type reads
  simp only [typeExpr] at reads
  split at reads
  · rw [except_mapError_eq_ok_iff] at reads
    exact (TypeExpr.spells_of_read reads).wellNamed
  · simp at reads

theorem Ensures.list (ensures : codec.Ensures property) :
    codec.list.Ensures fun values => ∀ value ∈ values, property value := by
  intro levels json values reads
  simp only [Codec.list] at reads
  split at reads
  · simp at reads
  · rename_i elements inner
    induction elements generalizing values with
    | nil =>
        obtain rfl := Except.ok.inj reads
        simp
    | cons element elements hypothesis =>
        rw [List.mapM_cons] at reads
        obtain ⟨value, readsFirst, reads⟩ := except_bind_eq_ok_iff.mp reads
        obtain ⟨others, readsOthers, reads⟩ := except_bind_eq_ok_iff.mp reads
        obtain rfl := Except.ok.inj reads
        exact List.forall_mem_cons.mpr ⟨ensures _ _ _ readsFirst, hypothesis _ readsOthers⟩
  · simp at reads

theorem Ensures.optional (ensures : codec.Ensures property) :
    codec.optional.Ensures fun value? => ∀ value, value? = some value -> property value := by
  intro levels json value? reads value isSome
  simp only [Codec.optional] at reads
  split at reads
  · obtain rfl := Except.ok.inj reads
    simp at isSome
  · obtain ⟨_, readsValue, rfl⟩ := except_map_eq_ok_iff.mp reads
    obtain rfl := Option.some.inj isSome
    exact ensures _ _ _ readsValue

/-- Everything that a form reads has a property. -/
def Variant.Ensures (variant : Variant α) (property : α -> Prop) : Prop :=
  ∀ levels content value, variant.read levels content = .ok value -> property value

theorem Variant.ensures_holding
    {name : String}
    {content : Codec β}
    {make : β -> α}
    (ensures : content.Ensures fun value => property (make value)) :
    (holding name content make).Ensures property := by
  intro levels content? value reads
  cases content? with
  | none => simp [holding] at reads
  | some json =>
      obtain ⟨inner, readsInner, rfl⟩ := except_map_eq_ok_iff.mp reads
      exact ensures _ _ _ readsInner

theorem ensures_tagged
    {variants : List (Variant α)}
    {write : α -> Json}
    (ensures : ∀ variant ∈ variants, variant.Ensures property) :
    (tagged variants write).Ensures property := by
  have named {levels name content value}
      (reads : Variant.readNamed variants levels name content = .ok value) : property value := by
    rw [Variant.readNamed] at reads
    split at reads
    · rename_i found
      exact ensures _ (List.mem_of_find?_eq_some found) _ _ _ reads
    · simp at reads
  intro levels json value reads
  simp only [tagged] at reads
  split at reads
  · exact named reads
  · simp at reads
  · exact named reads
  · simp at reads

/-- A recursive type has a property that every layer keeps. -/
theorem ensures_fix
    {layer : Codec α -> Codec α}
    {height : α -> Nat}
    (step : ∀ codec, codec.Ensures property -> (layer codec).Ensures property) :
    (fix layer height).Ensures property := by
  have approximated (count : Nat) : (approximation layer count).Ensures property := by
    induction count with
    | zero =>
        intro levels json value reads
        simp [approximation, refusal] at reads
    | succ count hypothesis => exact step _ hypothesis
  intro levels json value reads
  exact approximated _ levels json value reads

end Ensures

/-! ## Records -/

namespace Record

variable {Whole : Type}
variable {key : String}
variable {content : Codec α}
variable {absent : Option α}
variable {levels : Nat}
variable {members : List (String × Json)}
variable {value : α}

theorem map_fst_occurrences
    (key : String)
    (members : List (String × Json)) :
    (occurrences key members).map Prod.fst = Json.valuesOf key members := by
  have behind (start : Nat) :
      ((members.zipIdx start).filterMap fun entry =>
        if entry.1.1 = key then some (entry.1.2, entry.2) else none).map Prod.fst =
          Json.valuesOf key members := by
    induction members generalizing start with
    | nil => rfl
    | cons member members hypothesis =>
        rw [List.zipIdx_cons, List.filterMap_cons, Json.valuesOf_cons]
        by_cases same : member.1 = key
        · simp only [if_pos same, List.map_cons, hypothesis]
        · simp only [if_neg same, hypothesis]
  exact behind 0

theorem readMember_of_absent
    (none_there : Json.valuesOf key members = [])
    (stands : absent = some value) :
    readMember key content absent levels members = .ok value := by
  rw [← map_fst_occurrences, List.map_eq_nil_iff] at none_there
  simp only [readMember, none_there, stands]

theorem readMember_of_single
    {json : Json}
    (single : Json.valuesOf key members = [json])
    (reads : content.read levels json = .ok value) :
    readMember key content absent levels members = .ok value := by
  rw [← map_fst_occurrences, List.map_eq_singleton_iff] at single
  obtain ⟨⟨_, position⟩, occurs, rfl⟩ := single
  simp only [readMember, occurs, reads]

/-- A member that was read was there, or something stands for its absence. -/
theorem of_readMember
    (reads : readMember key content absent levels members = .ok value) :
    absent = some value ∨ ∃ json, content.read levels json = .ok value := by
  unfold readMember at reads
  split at reads
  · split at reads
    · exact .inl (congrArg some (Except.ok.inj reads))
    · simp at reads
  · rename_i json position others _
    split at reads
    · simp at reads
    · rename_i readsJson _
      obtain rfl := Except.ok.inj reads
      exact .inr ⟨json, readsJson⟩
    · simp at reads

/-- An element that was read was there, or something stands for its absence. -/
theorem of_readElement
    {elements rest : List Json}
    (reads : readElement content absent levels elements = .ok (value, rest)) :
    absent = some value ∨ ∃ json, content.read levels json = .ok value := by
  unfold readElement at reads
  split at reads
  · split at reads
    · obtain ⟨rfl, -⟩ := Prod.mk.inj (Except.ok.inj reads)
      exact .inl rfl
    · simp at reads
  · rename_i json _
    obtain ⟨read, readsJson, same⟩ := except_map_eq_ok_iff.mp reads
    obtain ⟨rfl, -⟩ := Prod.mk.inj same
    exact .inr ⟨json, readsJson⟩

theorem join_eq_ok_iff
    {make : Except Blame (α -> β)}
    {argument : Except Blame α}
    {result : β} :
    join make argument = .ok result ↔
      ∃ function value, make = .ok function ∧ argument = .ok value ∧ function value = result := by
  cases make <;> cases argument <;> simp [join]

section Faithful

variable (arrangement : Json.Arrangement)

/-- The members a record writes for a whole have the given keys, each at most
once, and a value is read from them in whatever order and among whatever other
members they stand. -/
structure Faithful
    (bound : Nat)
    (keys : List String)
    (reader writer : Record Whole α)
    (whole : Whole)
    (value : α) : Prop where
  distinct : ((writer.write whole).map Prod.fst).Nodup
  keyed : ∀ member ∈ writer.write whole, member.1 ∈ keys
  reads : ∀ levels < bound, ∀ members, Json.membersDepth members ≤ levels ->
    (∀ key ∈ keys, Json.valuesOf key members =
      (Json.valuesOf key (writer.write whole)).map arrangement.apply) ->
    reader.read levels members = .ok value

variable {arrangement}
variable {bound : Nat}
variable {keys : List String}
variable {whole : Whole}
variable {reader writer : Record Whole (α -> β)}
variable {make : α -> β}
variable {inReader inWriter : Codec α}
variable {get otherGet : Whole -> α}
variable {omitted otherOmitted : α -> Bool}
variable {absence otherAbsence : Absence α}

theorem Faithful.build (make : α) :
    Faithful arrangement bound [] (build make) (build make) whole make where
  distinct := List.nodup_nil
  keyed := by simp [Record.build]
  reads _ _ _ _ _ := rfl

/-- One more member, under a key of its own. Where it is left out, its value is
the one that stands for its absence. -/
theorem Faithful.member
    (faithful : Faithful arrangement bound keys reader writer whole make)
    (fresh : key ∉ keys)
    (back : omitted (get whole) = false ->
      ReadsBack arrangement bound inReader inWriter (get whole))
    (stands : omitted (get whole) = true -> absence.inObject = some (get whole)) :
    Faithful arrangement bound (key :: keys)
      (reader.member key inReader otherGet absence otherOmitted)
      (writer.member key inWriter get otherAbsence omitted) whole (make (get whole)) := by
  have others : Json.valuesOf key (writer.write whole) = [] := by
    apply Json.valuesOf_eq_nil
    intro member present same
    exact fresh (same ▸ faithful.keyed member present)
  refine ⟨?_, ?_, ?_⟩
  · simp only [Record.member, List.map_append]
    split
    · simpa using faithful.distinct
    · rw [List.nodup_append]
      refine ⟨faithful.distinct, by simp, ?_⟩
      intro other present
      obtain ⟨member, inWritten, rfl⟩ := List.mem_map.mp present
      simp only [List.map_singleton, List.mem_singleton, forall_eq]
      intro same
      exact fresh (same ▸ faithful.keyed member inWritten)
  · intro member present
    simp only [Record.member, List.mem_append] at present
    rcases present with earlier | added
    · exact List.mem_cons_of_mem _ (faithful.keyed member earlier)
    · split at added
      · simp at added
      · rw [List.mem_singleton.mp added]
        exact List.mem_cons_self
  · intro levels enough members deep values
    have earlier : reader.read levels members = .ok make := by
      apply faithful.reads levels enough members deep
      intro other present
      have unequal : key ≠ other := fun same => fresh (same ▸ present)
      rw [values other (List.mem_cons_of_mem _ present)]
      simp only [Record.member, Json.valuesOf_append]
      split <;> simp [Json.valuesOf_cons, unequal]
    have added := values key List.mem_cons_self
    simp only [Record.member, Json.valuesOf_append, others, List.nil_append] at added
    refine join_eq_ok_iff.mpr ⟨make, get whole, earlier, ?_, rfl⟩
    split at added
    · rename_i isOmitted
      exact readMember_of_absent added (stands isOmitted)
    · rename_i isWritten
      rw [Json.valuesOf_cons, if_pos rfl, Json.valuesOf_nil, List.map_singleton] at added
      apply readMember_of_single added
      apply back (by simpa using isWritten) levels enough
      have present : arrangement.apply (inWriter.write (get whole)) ∈
          Json.valuesOf key members := by simp [added]
      exact Nat.le_trans (Json.depth_le_of_mem_valuesOf present) deep

theorem valuesOf_eq_of_perm
    {written arranged : List (String × Json)}
    (distinct : (written.map Prod.fst).Nodup)
    (permuted : arranged.Perm (written.map fun member => (member.1, arrangement.apply member.2)))
    (key : String) :
    Json.valuesOf key arranged = (Json.valuesOf key written).map arrangement.apply := by
  have values : (Json.valuesOf key arranged).Perm
      ((Json.valuesOf key written).map arrangement.apply) := by
    have filtered := (permuted.filter (·.1 = key)).map Prod.snd
    simpa [Json.valuesOf, List.filter_map, Function.comp_def] using filtered
  rcases Json.valuesOf_of_distinct distinct key with nothing | ⟨json, single⟩
  · rw [nothing, List.map_nil] at values ⊢
    exact List.perm_nil.mp values
  · rw [single, List.map_singleton] at values ⊢
    exact List.perm_singleton.mp values

/-- A record stands one level above its members. -/
theorem Faithful.codec_succ
    {reader writer : Record Whole Whole}
    (faithful : Faithful arrangement bound keys reader writer whole whole) :
    ReadsBack arrangement (bound + 1) reader.codec writer.codec whole := by
  intro levels enough deep
  obtain ⟨arranged, applied, permuted⟩ :=
    arrangement.apply_object (writer.write whole) faithful.distinct
  change (arrangement.apply (.object (writer.write whole))).depth ≤ levels at deep
  change reader.codec.read levels (arrangement.apply (.object (writer.write whole))) = _
  rw [applied] at deep ⊢
  cases levels with
  | zero => simp [Json.depth] at deep
  | succ inner =>
      rw [Json.depth, Nat.add_le_add_iff_right] at deep
      have reads := faithful.reads inner (Nat.lt_of_succ_lt_succ enough) arranged deep
        fun key _ => valuesOf_eq_of_perm faithful.distinct permuted key
      change (reader.read inner arranged).mapError Blame.error = _
      rw [reads]
      rfl

theorem Faithful.codec
    {reader writer : Record Whole Whole}
    (faithful : Faithful arrangement bound keys reader writer whole whole) :
    ReadsBack arrangement bound reader.codec writer.codec whole :=
  faithful.codec_succ.mono (Nat.le_succ bound)

theorem Faithful.required
    (faithful : Faithful arrangement bound keys reader writer whole make)
    (key : String)
    (fresh : key ∉ keys)
    (back : ReadsBack arrangement bound inReader inWriter (get whole)) :
    Faithful arrangement bound (key :: keys) (reader.required key inReader get)
      (writer.required key inWriter get) whole (make (get whole)) :=
  faithful.member fresh (fun _ => back) (by simp)

theorem Faithful.defaulted
    {default : α}
    (faithful : Faithful arrangement bound keys reader writer whole make)
    (key : String)
    (fresh : key ∉ keys)
    (back : ReadsBack arrangement bound inReader inWriter (get whole)) :
    Faithful arrangement bound (key :: keys) (reader.defaulted key inReader get default)
      (writer.defaulted key inWriter get default) whole (make (get whole)) :=
  faithful.member fresh (fun _ => back) (by simp)

variable {optionReader optionWriter : Record Whole (Option α -> β)}
variable {optionMake : Option α -> β}
variable {getOption : Whole -> Option α}

theorem Faithful.optional
    (faithful : Faithful arrangement bound keys optionReader optionWriter whole optionMake)
    (key : String)
    (fresh : key ∉ keys)
    (back : ReadsBack arrangement bound inReader.optional inWriter.optional (getOption whole)) :
    Faithful arrangement bound (key :: keys) (optionReader.optional key inReader getOption)
      (optionWriter.optional key inWriter getOption) whole (optionMake (getOption whole)) :=
  faithful.member fresh (fun _ => back) (by simp)

/-- A member that is left out is none. -/
theorem Faithful.omissible
    (faithful : Faithful arrangement bound keys optionReader optionWriter whole optionMake)
    (key : String)
    (fresh : key ∉ keys)
    (back : ReadsBack arrangement bound inReader.optional inWriter.optional (getOption whole)) :
    Faithful arrangement bound (key :: keys) (optionReader.omissible key inReader getOption)
      (optionWriter.omissible key inWriter getOption) whole (optionMake (getOption whole)) := by
  refine faithful.member fresh (fun _ => back) ?_
  intro isNone
  rw [Option.isNone_iff_eq_none.mp isNone]

end Faithful

/-- Everything that a record reads has a property. -/
structure Ensures (record : Record Whole α) (property : α -> Prop) : Prop where
  /-- What is read from the members of an object. -/
  of_read : ∀ levels members value,
    record.read levels members = .ok value -> property value
  /-- What is read from the first elements of an array. -/
  of_readRow : ∀ levels elements value rest,
    record.readRow levels elements = .ok (value, rest) -> property value

section Ensures

variable {record : Record Whole (α -> β)}
variable {absence : Absence α}
variable {get : Whole -> α}
variable {property : α -> Prop}
variable {result : β -> Prop}

theorem ensures_build
    {property : α -> Prop}
    {make : α}
    (holds : property make) :
    (build make : Record Whole α).Ensures property := by
  constructor
  · intro levels members value reads
    obtain rfl := Except.ok.inj reads
    exact holds
  · intro levels elements value rest reads
    obtain ⟨rfl, -⟩ := Prod.mk.inj (Except.ok.inj reads)
    exact holds

/-- What is built from the members has a property if it follows from those of
the members. -/
theorem Ensures.member
    {omitted : α -> Bool}
    (ensures : record.Ensures fun make => ∀ value, property value -> result (make value))
    (contentEnsures : content.Ensures property)
    (absentHolds : ∀ value,
      absence.inObject = some value ∨ absence.inArray = some value -> property value) :
    (record.member key content get absence omitted).Ensures result := by
  constructor
  · intro levels members whole reads
    obtain ⟨make, value, readsRecord, readsValue, rfl⟩ := join_eq_ok_iff.mp reads
    apply ensures.of_read levels members make readsRecord
    rcases of_readMember readsValue with isAbsent | ⟨json, readsJson⟩
    · exact absentHolds value (.inl isAbsent)
    · exact contentEnsures _ _ _ readsJson
  · intro levels elements whole rest reads
    obtain ⟨⟨make, behind⟩, readsRecord, reads⟩ := except_bind_eq_ok_iff.mp reads
    obtain ⟨⟨value, _⟩, readsValue, reads⟩ := except_bind_eq_ok_iff.mp reads
    obtain ⟨rfl, -⟩ := Prod.mk.inj (Except.ok.inj reads)
    apply ensures.of_readRow levels elements make behind readsRecord
    rcases of_readElement readsValue with isAbsent | ⟨json, readsJson⟩
    · exact absentHolds value (.inr isAbsent)
    · exact contentEnsures _ _ _ readsJson

theorem Ensures.required
    (contentEnsures : content.Ensures property)
    (ensures : record.Ensures fun make => ∀ value, property value -> result (make value)) :
    (record.required key content get).Ensures result :=
  ensures.member contentEnsures (by simp)

theorem Ensures.defaulted
    {default : α}
    (contentEnsures : content.Ensures property)
    (defaultHolds : property default)
    (ensures : record.Ensures fun make => ∀ value, property value -> result (make value)) :
    (record.defaulted key content get default).Ensures result :=
  ensures.member contentEnsures (by simpa using defaultHolds)

theorem Ensures.optional
    {record : Record Whole (Option α -> β)}
    {get : Whole -> Option α}
    (contentEnsures : content.Ensures property)
    (ensures : record.Ensures fun make => ∀ value?,
      (∀ value, value? = some value -> property value) -> result (make value?)) :
    (record.optional key content get).Ensures result :=
  ensures.member contentEnsures.optional (by simp)

theorem Ensures.omissible
    {record : Record Whole (Option α -> β)}
    {get : Whole -> Option α}
    (contentEnsures : content.Ensures property)
    (ensures : record.Ensures fun make => ∀ value?,
      (∀ value, value? = some value -> property value) -> result (make value?)) :
    (record.omissible key content get).Ensures result :=
  ensures.member contentEnsures.optional (by simp)

theorem Ensures.codec
    {record : Record Whole Whole}
    {property : Whole -> Prop}
    (ensures : record.Ensures property) :
    record.codec.Ensures property := by
  intro levels json whole reads
  simp only [Record.codec] at reads
  split at reads
  · simp at reads
  · simp at reads
  · rw [except_mapError_eq_ok_iff] at reads
    exact ensures.of_read _ _ _ reads
  · obtain ⟨⟨read, rest⟩, readsRow, reads⟩ := except_bind_eq_ok_iff.mp reads
    split at reads
    · obtain rfl := Except.ok.inj reads
      exact ensures.of_readRow _ _ _ _ readsRow
    · cases reads
  · simp at reads

end Ensures

end Record
end Codec
end DerivedQuery
