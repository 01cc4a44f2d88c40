import DerivedQuery.Proofs.Binding
import DerivedQuery.Proofs.Blank
import DerivedQuery.TypeExpr.Reader

/-!
# Spellings of types

A text spells a type in its canonical form up to blanks, which may surround the
type and each of its parts. A text is read as a type exactly if it spells it.
Since the brackets of a spelling are balanced, the key of a map ends where its
spelling ends. It follows that reading undoes rendering, that rendering a type
that was read removes the blanks of its text, and that types with proper names
are told apart by their renderings.
-/

namespace DerivedQuery

namespace TypeExpr

/-! ## Names -/

/-- Whether a character may stand in a plain or package-qualified name. -/
def isNameChar (char : Char) : Bool :=
  continuesIdentifier char || char == '.'

theorem toNat_of_isNameChar
    {char : Char}
    (named : isNameChar char) :
    46 ≤ char.toNat ∧ char.toNat ≤ 122 := by
  simp only [isNameChar, continuesIdentifier, Char.isAlphanum, Bool.or_eq_true,
    beq_iff_eq] at named
  rcases named with ((letter | digit) | rfl) | rfl
  · rcases Bool.or_eq_true_iff.mp letter with upper | lower
    · have range := of_decide_eq_true upper
      exact ⟨Nat.le_trans (by decide) range.1, Nat.le_trans range.2 (by decide)⟩
    · have range := Bool.and_eq_true_iff.mp lower
      rw [decide_eq_true_eq, decide_eq_true_eq] at range
      exact ⟨Nat.le_trans (by decide) range.1, Nat.le_trans range.2 (by decide)⟩
  · have range := Bool.and_eq_true_iff.mp digit
    rw [decide_eq_true_eq, decide_eq_true_eq] at range
    exact ⟨Nat.le_trans (by decide) range.1, Nat.le_trans range.2 (by decide)⟩
  · decide
  · decide

theorem isBlank_eq_false_of_isNameChar
    {char : Char}
    (named : isNameChar char) :
    Text.isBlank char = false := by
  have range := toNat_of_isNameChar named
  simp only [Text.isBlank, Bool.or_eq_false_iff, Bool.and_eq_false_iff, decide_eq_false_iff_not,
    beq_eq_false_iff_ne]
  omega

/-- No name has one of the characters in it that mark other types. -/
theorem ne_of_isNameChar
    {char mark : Char}
    (named : isNameChar char)
    (isMark : isNameChar mark = false) :
    char ≠ mark := by
  rintro rfl
  simp [named] at isMark

theorem continuesIdentifier_of_mem
    {name : List Char}
    (identifier : isIdentifier name)
    {char : Char}
    (member : char ∈ name) :
    continuesIdentifier char := by
  cases name with
  | nil => simp at member
  | cons first rest =>
      simp only [isIdentifier, Bool.and_eq_true, List.all_eq_true] at identifier
      rcases List.mem_cons.mp member with rfl | later
      · simp only [startsIdentifier, continuesIdentifier, Char.isAlphanum,
          Bool.or_eq_true] at identifier ⊢
        exact identifier.1.imp_left Or.inl
      · exact identifier.2 char later

theorem isNameChar_of_mem_ident
    {name : List Char}
    (identifier : isIdentifier name) :
    ∀ char ∈ name, isNameChar char := by
  intro char member
  simp [isNameChar, continuesIdentifier_of_mem identifier member]

theorem isNameChar_of_mem_selector
    {package name : List Char}
    (packageIdentifier : isIdentifier package)
    (nameIdentifier : isIdentifier name) :
    ∀ char ∈ package ++ '.' :: name, isNameChar char := by
  intro char member
  rw [List.mem_append, List.mem_cons] at member
  rcases member with inPackage | rfl | inName
  · exact isNameChar_of_mem_ident packageIdentifier char inPackage
  · decide
  · exact isNameChar_of_mem_ident nameIdentifier char inName

theorem noPoint_of_isIdentifier
    {name : List Char}
    (identifier : isIdentifier name) :
    ∀ char ∈ name, (char != '.') = true := by
  intro char member
  have continues := continuesIdentifier_of_mem identifier member
  rw [bne_iff_ne]
  rintro rfl
  exact absurd continues (by decide)

theorem ne_nil_of_isIdentifier
    {name : List Char}
    (identifier : isIdentifier name) :
    name ≠ [] := by
  rintro rfl
  simp [isIdentifier] at identifier

/-- A name without a point is read as it stands. -/
theorem readName_ident
    {name : List Char}
    (identifier : isIdentifier name) :
    readName name = .ok (.ident (String.ofList name)) := by
  have noPoint := noPoint_of_isIdentifier identifier
  have before : name.takeWhile (· != '.') = name := List.takeWhile_eq_self_iff.mpr noPoint
  have behind : name.dropWhile (· != '.') = [] := List.dropWhile_eq_nil_iff.mpr noPoint
  simp [readName, before, behind, identifier]

/-- A name is divided at its point. -/
theorem readName_selector
    {package name : List Char}
    (packageIdentifier : isIdentifier package)
    (nameIdentifier : isIdentifier name) :
    readName (package ++ '.' :: name) =
      .ok (.selector (String.ofList package) (String.ofList name)) := by
  have noPoint := noPoint_of_isIdentifier packageIdentifier
  have before : (package ++ '.' :: name).takeWhile (· != '.') = package := by
    rw [List.takeWhile_append_of_pos noPoint]
    simp
  have behind : (package ++ '.' :: name).dropWhile (· != '.') = '.' :: name := by
    rw [List.dropWhile_append_of_pos noPoint]
    simp
  simp [readName, before, behind, packageIdentifier, nameIdentifier]

/-- Only identifiers are read as names, with one point between them at most. -/
theorem readName_eq_ok
    {text : List Char}
    {type : TypeExpr}
    (reads : readName text = .ok type) :
    (∃ name : List Char, isIdentifier name ∧ text = name ∧ type = .ident (String.ofList name)) ∨
      (∃ package name : List Char, isIdentifier package ∧ isIdentifier name ∧
        text = package ++ '.' :: name ∧
        type = .selector (String.ofList package) (String.ofList name)) := by
  have whole := List.takeWhile_append_dropWhile (p := (· != '.')) (l := text)
  simp only [readName] at reads
  split at reads
  · rename_i behind
    rw [behind, List.append_nil] at whole
    split at reads
    · rename_i identifier
      exact .inl ⟨_, identifier, whole.symm, (Except.ok.inj reads).symm⟩
    · simp at reads
  · rename_i point name behind
    have isPoint : point = '.' := by
      have stops := List.head_dropWhile_not (· != '.') (l := text) (by simp [behind])
      simpa [behind] using stops
    rw [behind, isPoint] at whole
    split at reads
    · rename_i identifiers
      rw [Bool.and_eq_true] at identifiers
      exact .inr ⟨_, name, identifiers.1, identifiers.2, whole.symm, (Except.ok.inj reads).symm⟩
    · simp at reads

/-! ## Spellings -/

/-- Whether blanks may surround a spelling. -/
inductive SpellingPart
  | bare
  | padded
  deriving DecidableEq, Repr

/-- A text spells a type. -/
inductive Spells : SpellingPart -> TypeExpr -> List Char -> Prop
  | ident
      {name : String}
      (identifier : isIdentifier name.toList) :
      Spells .bare (.ident name) name.toList
  | selector
      {package name : String}
      (packageIdentifier : isIdentifier package.toList)
      (nameIdentifier : isIdentifier name.toList) :
      Spells .bare (.selector package name) (package.toList ++ '.' :: name.toList)
  | emptyInterface :
      Spells .bare .emptyInterface "interface\x7b\x7d".toList
  | pointer
      {target : TypeExpr}
      {text : List Char}
      (spells : Spells .padded target text) :
      Spells .bare (.pointer target) ('*' :: text)
  | slice
      {element : TypeExpr}
      {text : List Char}
      (spells : Spells .padded element text) :
      Spells .bare (.slice element) ('[' :: ']' :: text)
  | map
      {key value : TypeExpr}
      {keyText valueText : List Char}
      (spellsKey : Spells .padded key keyText)
      (spellsValue : Spells .padded value valueText) :
      Spells .bare (.map key value)
        ('m' :: 'a' :: 'p' :: '[' :: keyText ++ ']' :: valueText)
  | padded
      {type : TypeExpr}
      {front text back : List Char}
      (frontBlank : ∀ char ∈ front, Text.isBlank char)
      (backBlank : ∀ char ∈ back, Text.isBlank char)
      (spells : Spells .bare type text) :
      Spells .padded type (front ++ text ++ back)

/-! ## The end of a map key -/

/-- A text whose brackets are balanced: the search for a closing bracket goes
through it. -/
def Passed (text : List Char) : Prop :=
  ∀ (depth : Nat) (rest : List Char),
    splitClosing depth (text ++ rest) =
      (splitClosing depth rest).map fun (inside, after) => (text ++ inside, after)

namespace Passed

theorem nil : Passed [] := by
  intro depth rest
  simp

theorem cons
    {char : Char}
    {text : List Char}
    (notOpening : char ≠ '[')
    (notClosing : char ≠ ']')
    (passed : Passed text) :
    Passed (char :: text) := by
  intro depth rest
  simp only [List.cons_append, splitClosing, if_neg notClosing, if_neg notOpening, passed depth,
    Option.map_map]
  rfl

theorem append
    {left right : List Char}
    (leftPassed : Passed left)
    (rightPassed : Passed right) :
    Passed (left ++ right) := by
  intro depth rest
  rw [List.append_assoc, leftPassed, rightPassed, Option.map_map]
  congr 1
  funext parts
  simp

theorem of_forall
    {text : List Char}
    (others : ∀ char ∈ text, char ≠ '[' ∧ char ≠ ']') :
    Passed text := by
  induction text with
  | nil => exact nil
  | cons char rest hypothesis =>
      rw [List.forall_mem_cons] at others
      exact cons others.1.1 others.1.2 (hypothesis others.2)

theorem of_name
    {text : List Char}
    (named : ∀ char ∈ text, isNameChar char) :
    Passed text := by
  apply of_forall
  intro char member
  exact ⟨ne_of_isNameChar (named char member) rfl, ne_of_isNameChar (named char member) rfl⟩

/-- Brackets around a balanced text are partners. -/
theorem wrap
    {text : List Char}
    (passed : Passed text) :
    Passed ('[' :: text ++ [']']) := by
  intro depth rest
  have step : splitClosing depth ('[' :: (text ++ ']' :: rest)) =
      (splitClosing (depth + 1) (text ++ ']' :: rest)).map
        fun (inside, after) => ('[' :: inside, after) := by
    simp [splitClosing]
  have back : splitClosing (depth + 1) (']' :: rest) =
      (splitClosing depth rest).map fun (inside, after) => (']' :: inside, after) := by
    simp [splitClosing]
  rw [List.cons_append, List.cons_append, List.append_assoc, List.singleton_append, step, passed,
    back, Option.map_map, Option.map_map]
  congr 1
  funext parts
  simp

end Passed

namespace Spells

variable {part : SpellingPart}
variable {type : TypeExpr}
variable {text : List Char}

/-- The brackets of a spelling are balanced. -/
theorem passed (spells : Spells part type text) : Passed text := by
  induction spells with
  | ident identifier => exact .of_name (isNameChar_of_mem_ident identifier)
  | selector packageIdentifier nameIdentifier =>
      exact .of_name (isNameChar_of_mem_selector packageIdentifier nameIdentifier)
  | emptyInterface =>
      apply Passed.of_forall
      simp
  | pointer spells hypothesis => exact hypothesis.cons (by decide) (by decide)
  | slice spells hypothesis => exact Passed.nil.wrap.append hypothesis
  | @map key value keyText valueText spellsKey spellsValue keyHypothesis valueHypothesis =>
      have inBrackets := keyHypothesis.wrap.append valueHypothesis
      rw [List.cons_append, List.cons_append, List.append_assoc,
        List.singleton_append] at inBrackets
      exact ((inBrackets.cons (by decide) (by decide)).cons (by decide) (by decide)).cons
        (by decide) (by decide)
  | @padded type front text back frontBlank backBlank spells hypothesis =>
      have noBrackets {blanks : List Char} (blank : ∀ char ∈ blanks, Text.isBlank char) :
          Passed blanks := by
        apply Passed.of_forall
        intro char member
        constructor
        · rintro rfl
          exact absurd (blank _ member) (by decide)
        · rintro rfl
          exact absurd (blank _ member) (by decide)
      exact ((noBrackets frontBlank).append hypothesis).append (noBrackets backBlank)

/-- The key of a map ends at the bracket behind its spelling. -/
theorem splitClosing_eq
    (spells : Spells part type text)
    (rest : List Char) :
    splitClosing 0 (text ++ ']' :: rest) = some (text, rest) := by
  rw [spells.passed]
  simp [splitClosing]

end Spells

/-! ## Reading spellings -/

/-- What is read depends on the trimmed text only. -/
theorem read_congr
    {source other : List Char}
    (same : Text.trim source = Text.trim other) :
    read source = read other := by
  rw [read, read, same]

theorem read_pointer
    {source rest : List Char}
    (trimmed : Text.trim source = '*' :: rest) :
    read source = (read rest).map .pointer := by
  rw [read, trimmed]
  rfl

theorem read_slice
    {source rest : List Char}
    (trimmed : Text.trim source = '[' :: ']' :: rest) :
    read source = (read rest).map .slice := by
  rw [read, trimmed]
  rfl

theorem read_map
    {source rest keyText valueText : List Char}
    {key : TypeExpr}
    (trimmed : Text.trim source = 'm' :: 'a' :: 'p' :: '[' :: rest)
    (divided : splitClosing 0 rest = some (keyText, valueText))
    (readsKey : read keyText = .ok key) :
    read source = (read valueText).map (.map key) := by
  rw [read, trimmed]
  simp only
  rw [divided]
  simp only [readsKey]

/-- A text made of characters of names is read as a name. -/
theorem read_eq_readName
    {text : List Char}
    (nonempty : text ≠ [])
    (named : ∀ char ∈ text, isNameChar char) :
    read text = readName text := by
  have trimmed : Text.trim text = text :=
    Text.trim_eq_self fun char member => isBlank_eq_false_of_isNameChar (named char member)
  rw [read, trimmed]
  split
  · exact absurd rfl nonempty
  · exact absurd (named '*' (by simp)) (by decide)
  · exact absurd (named '[' (by simp)) (by decide)
  · exact absurd (named '[' (by simp)) (by decide)
  · split
    · rename_i isInterface
      have member : '\x7b' ∈ text := by
        rw [isInterface]
        decide
      exact absurd (named _ member) (by decide)
    · rfl

/-- Only spellings of a type are read as that type. -/
theorem spells_of_read
    {source : List Char}
    {type : TypeExpr}
    (reads : read source = .ok type) :
    Spells .padded type source := by
  have surround {core : List Char} {source : List Char} {type : TypeExpr}
      (trimmed : Text.trim source = core)
      (spells : Spells .bare type core) :
      Spells .padded type source := by
    obtain ⟨front, back, source_eq, frontBlank, backBlank⟩ := Text.exists_eq_trim source
    rw [trimmed] at source_eq
    rw [source_eq]
    exact .padded frontBlank backBlank spells
  fun_induction read source generalizing type with
  | case1 source trimmed => simp at reads
  | case2 source rest trimmed hypothesis =>
      obtain ⟨target, readsTarget, rfl⟩ := except_map_eq_ok_iff.mp reads
      exact surround trimmed (.pointer (hypothesis readsTarget))
  | case3 source rest trimmed hypothesis =>
      obtain ⟨element, readsElement, rfl⟩ := except_map_eq_ok_iff.mp reads
      exact surround trimmed (.slice (hypothesis readsElement))
  | case4 source rest trimmed divided => simp at reads
  | case5 source rest trimmed keyText valueText divided error readsKey keyHypothesis =>
      simp at reads
  | case6 source rest trimmed keyText valueText divided key readsKey keyHypothesis
      valueHypothesis =>
      obtain ⟨value, readsValue, rfl⟩ := except_map_eq_ok_iff.mp reads
      rw [append_of_splitClosing divided] at trimmed
      exact surround trimmed (.map (keyHypothesis readsKey) (valueHypothesis readsValue))
  | case7 source notEmpty notPointer notSlice notMap isInterface =>
      obtain rfl := Except.ok.inj reads
      exact surround isInterface .emptyInterface
  | case8 source notEmpty notPointer notSlice notMap notInterface =>
      rcases readName_eq_ok reads with
        ⟨name, identifier, trimmed, rfl⟩ |
        ⟨package, name, packageIdentifier, nameIdentifier, trimmed, rfl⟩
      · have spells : Spells .bare (.ident (String.ofList name)) (String.ofList name).toList :=
          .ident (by simpa using identifier)
        rw [String.toList_ofList] at spells
        exact surround trimmed spells
      · have spells : Spells .bare (.selector (String.ofList package) (String.ofList name))
            ((String.ofList package).toList ++ '.' :: (String.ofList name).toList) :=
          .selector (by simpa using packageIdentifier) (by simpa using nameIdentifier)
        rw [String.toList_ofList, String.toList_ofList] at spells
        exact surround trimmed spells

/-- Every spelling of a type is read as that type. -/
theorem read_of_spells
    {part : SpellingPart}
    {type : TypeExpr}
    {text : List Char}
    (spells : Spells part type text) :
    read text = .ok type := by
  induction spells with
  | ident identifier =>
      rw [read_eq_readName (ne_nil_of_isIdentifier identifier) (isNameChar_of_mem_ident identifier),
        readName_ident identifier, String.ofList_toList]
  | selector packageIdentifier nameIdentifier =>
      rw [read_eq_readName (by simp)
          (isNameChar_of_mem_selector packageIdentifier nameIdentifier),
        readName_selector packageIdentifier nameIdentifier, String.ofList_toList,
        String.ofList_toList]
  | emptyInterface => decide +kernel
  | @pointer target text spells hypothesis =>
      rw [read_pointer (Text.trim_cons (by decide) text), read_congr (Text.trim_rdropWhile text),
        hypothesis]
      rfl
  | @slice element text spells hypothesis =>
      have trimmed : Text.trim ('[' :: ']' :: text) =
          '[' :: ']' :: text.rdropWhile Text.isBlank := by
        rw [Text.trim_cons (by decide)]
        exact congrArg _ (Text.rdropWhile_append_cons (by decide) [] text)
      rw [read_slice trimmed, read_congr (Text.trim_rdropWhile text), hypothesis]
      rfl
  | @map key value keyText valueText spellsKey spellsValue keyHypothesis valueHypothesis =>
      have trimmed : Text.trim ('m' :: 'a' :: 'p' :: '[' :: keyText ++ ']' :: valueText) =
          'm' :: 'a' :: 'p' :: '[' :: (keyText ++ ']' :: valueText.rdropWhile Text.isBlank) := by
        rw [List.cons_append, Text.trim_cons (by decide)]
        exact congrArg _ (Text.rdropWhile_append_cons (by decide) ('a' :: 'p' :: '[' :: keyText)
          valueText)
      rw [read_map trimmed (spellsKey.splitClosing_eq _) keyHypothesis,
        read_congr (Text.trim_rdropWhile valueText), valueHypothesis]
      rfl
  | @padded type front text back frontBlank backBlank spells hypothesis =>
      rw [read_congr (Text.trim_surround frontBlank backBlank text), hypothesis]

theorem read_eq_ok_iff
    {source : List Char}
    {type : TypeExpr} :
    read source = .ok type ↔ Spells .padded type source :=
  ⟨spells_of_read, read_of_spells⟩

/-! ## Rendering -/

/-- All names of a type are identifiers. -/
def WellNamed : TypeExpr -> Prop
  | .ident name => isIdentifier name.toList
  | .selector package name => isIdentifier package.toList ∧ isIdentifier name.toList
  | .pointer target => target.WellNamed
  | .slice element => element.WellNamed
  | .map key value => key.WellNamed ∧ value.WellNamed
  | .emptyInterface => True

/-- Whether all names of a type are identifiers can be decided. -/
instance decidableWellNamed : (type : TypeExpr) -> Decidable type.WellNamed
  | .ident name => inferInstanceAs (Decidable (isIdentifier name.toList))
  | .selector package name =>
      inferInstanceAs (Decidable (isIdentifier package.toList ∧ isIdentifier name.toList))
  | .pointer target => decidableWellNamed target
  | .slice element => decidableWellNamed element
  | .map key value =>
      @instDecidableAnd _ _ (decidableWellNamed key) (decidableWellNamed value)
  | .emptyInterface => .isTrue trivial

theorem Spells.pad
    {type : TypeExpr}
    {text : List Char}
    (spells : Spells .bare type text) :
    Spells .padded type text := by
  have padded : Spells .padded type ([] ++ text ++ []) := .padded (by simp) (by simp) spells
  rwa [List.nil_append, List.append_nil] at padded

/-- The canonical spelling has no blanks around any part. -/
theorem WellNamed.spells_spelling
    {type : TypeExpr}
    (wellNamed : type.WellNamed) :
    Spells .bare type type.spelling := by
  induction type with
  | ident name => exact .ident wellNamed
  | selector package name => exact .selector wellNamed.1 wellNamed.2
  | pointer target hypothesis => exact .pointer (hypothesis wellNamed).pad
  | slice element hypothesis => exact .slice (hypothesis wellNamed).pad
  | map key value keyHypothesis valueHypothesis =>
      exact .map (keyHypothesis wellNamed.1).pad (valueHypothesis wellNamed.2).pad
  | emptyInterface => exact .emptyInterface

/-- Only types with proper names can be spelled. -/
theorem Spells.wellNamed
    {part : SpellingPart}
    {type : TypeExpr}
    {text : List Char}
    (spells : Spells part type text) :
    type.WellNamed := by
  induction spells with
  | ident identifier => exact identifier
  | selector packageIdentifier nameIdentifier => exact ⟨packageIdentifier, nameIdentifier⟩
  | emptyInterface => trivial
  | pointer spells hypothesis => exact hypothesis
  | slice spells hypothesis => exact hypothesis
  | map spellsKey spellsValue keyHypothesis valueHypothesis =>
      exact ⟨keyHypothesis, valueHypothesis⟩
  | padded frontBlank backBlank spells hypothesis => exact hypothesis

theorem filter_eq_self_of_isNameChar
    {name : List Char}
    (named : ∀ char ∈ name, isNameChar char) :
    name.filter (!Text.isBlank ·) = name := by
  rw [List.filter_eq_self]
  intro char member
  simp [isBlank_eq_false_of_isNameChar (named char member)]

/-- Without its blanks every spelling is the canonical one. -/
theorem Spells.filter_eq_spelling
    {part : SpellingPart}
    {type : TypeExpr}
    {text : List Char}
    (spells : Spells part type text) :
    text.filter (!Text.isBlank ·) = type.spelling := by
  have kept {char : Char} (notBlank : Text.isBlank char = false) (rest : List Char) :
      (char :: rest).filter (!Text.isBlank ·) = char :: rest.filter (!Text.isBlank ·) := by
    simp [notBlank]
  have removed {blanks : List Char} (blank : ∀ char ∈ blanks, Text.isBlank char) :
      blanks.filter (!Text.isBlank ·) = [] := by
    rw [List.filter_eq_nil_iff]
    intro char member
    simp [blank char member]
  induction spells with
  | ident identifier => exact filter_eq_self_of_isNameChar (isNameChar_of_mem_ident identifier)
  | selector packageIdentifier nameIdentifier =>
      exact filter_eq_self_of_isNameChar
        (isNameChar_of_mem_selector packageIdentifier nameIdentifier)
  | emptyInterface => decide +kernel
  | pointer spells hypothesis =>
      rw [kept (by decide), hypothesis]
      rfl
  | slice spells hypothesis =>
      rw [kept (by decide), kept (by decide), hypothesis]
      rfl
  | map spellsKey spellsValue keyHypothesis valueHypothesis =>
      rw [List.filter_append, kept (by decide), kept (by decide), kept (by decide),
        kept (by decide), kept (by decide), keyHypothesis, valueHypothesis]
      rfl
  | padded frontBlank backBlank spells hypothesis =>
      rw [List.filter_append, List.filter_append, removed frontBlank, removed backBlank,
        hypothesis, List.nil_append, List.append_nil]

/-- A text is read as a type exactly if it spells that type. So reading undoes
rendering, rendering what was read removes the blanks, and types with proper
names are equal if they are rendered alike. -/
theorem parse_spellings :
    (∀ (source : String) (type : TypeExpr),
      parse source = .ok type ↔ Spells .padded type source.toList) ∧
    (∀ type : TypeExpr, type.WellNamed -> parse type.render = .ok type) ∧
    (∀ (source : String) (type : TypeExpr), parse source = .ok type ->
      type.render = String.ofList (source.toList.filter (!Text.isBlank ·))) ∧
    (∀ type other : TypeExpr, type.WellNamed -> other.WellNamed ->
      (type = other ↔ type.render = other.render)) := by
  have parse_render (type : TypeExpr) (wellNamed : type.WellNamed) :
      parse type.render = .ok type := by
    rw [parse, render, String.toList_ofList]
    exact read_of_spells wellNamed.spells_spelling
  refine ⟨?_, parse_render, ?_, ?_⟩
  · intro source type
    exact read_eq_ok_iff
  · intro source type reads
    rw [(spells_of_read reads).filter_eq_spelling, render]
  · intro type other wellNamed otherWellNamed
    constructor
    · exact congrArg render
    · intro same
      have reads := parse_render type wellNamed
      rw [same, parse_render other otherWellNamed] at reads
      exact (Except.ok.inj reads).symm

/-- A map with a map as its key and blanks of several kinds in it. -/
theorem parse_spellings_nested_map :
    let source := " map[\u00a0map[ [] string ]*\tpkg.Name ]  interface\x7b\x7d\n"
    let type : TypeExpr := .map
      (.map (.slice (.ident "string")) (.pointer (.selector "pkg" "Name"))) .emptyInterface
    Spells .padded type source.toList ∧
      type.WellNamed ∧
      parse type.render = .ok type ∧
      parse source = .ok type ∧
      type.render = "map[map[[]string]*pkg.Name]interface\x7b\x7d" ∧
      type.render ≠ (TypeExpr.slice type).render := by
  intro source type
  obtain ⟨exact, undone, stripped, told⟩ := parse_spellings
  have reads : parse source = .ok type := by
    apply except_toOption_eq_some_iff.mp
    decide +kernel
  have wellNamed : type.WellNamed := ⟨⟨rfl, rfl, rfl⟩, trivial⟩
  refine ⟨(exact source type).mp reads, wellNamed, undone type wellNamed, reads, ?_, ?_⟩
  · rw [stripped source type reads]
    decide +kernel
  · intro same
    exact absurd ((told type (.slice type) wellNamed wellNamed).mpr same) (by decide)

end TypeExpr
end DerivedQuery
