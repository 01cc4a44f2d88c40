import DerivedQuery.Word.Segmentation
import Mathlib.Data.List.Chain

/-!
# Where words begin and end

Two neighbouring letters or digits are cut apart where the class changes, save
from a capital to a small letter, and between two capitals in front of a small
letter. Words are the stretches of letters and digits that lie between cuts.
Runs of one class that have handed over their capitals begin and end at just
these places.
-/

namespace DerivedQuery

namespace CharClass

theorem of_eq_upper_iff {char : Char} : of char = .upper ↔ char.isUpper := by
  unfold of
  grind

/-- Small letters, capitals and digits lie apart. -/
theorem classes_apart (char : Char) :
    (char.isLower -> ¬char.isUpper) ∧ (char.isDigit -> ¬char.isUpper) ∧
      (char.isDigit -> ¬char.isLower) := by
  unfold Char.isUpper Char.isLower Char.isDigit
  simp only [UInt32.le_iff_toNat_le, Bool.and_eq_true, decide_eq_true_eq, Char.reduceVal,
    UInt32.reduceToNat]
  omega

theorem of_eq_lower_iff {char : Char} : of char = .lower ↔ char.isLower := by
  have apart := classes_apart char
  unfold of
  grind

theorem of_eq_digit_iff {char : Char} : of char = .digit ↔ char.isDigit := by
  have apart := classes_apart char
  unfold of
  grind

theorem of_ne_other_iff {char : Char} : of char ≠ .other ↔ char.isAlphanum := by
  unfold of Char.isAlphanum Char.isAlpha
  grind

end CharClass

namespace Word

variable {prior before text after part rest : List Char}
variable {left right : Char}

/-! ## Boundaries -/

/-- Neighbouring letters or digits that do not belong to one word, given what
is behind them. -/
def Cut (left right : Char) (behind : List Char) : Prop :=
  (CharClass.of left ≠ CharClass.of right ∧
      ¬(CharClass.of left = .upper ∧ CharClass.of right = .lower)) ∨
    (CharClass.of left = .upper ∧ CharClass.of right = .upper ∧
      behind.head?.map CharClass.of = some .lower)

/-- A place where a word may begin or end: at the end of the text, beside a
character that is neither letter nor digit, or at a cut. -/
def Boundary (before after : List Char) : Prop :=
  ∀ left ∈ before.getLast?, ∀ right ∈ after.head?,
    left.isAlphanum -> right.isAlphanum -> Cut left right after.tail

/-- A text with no boundary inside. -/
def Unbroken (text after : List Char) : Prop :=
  ∀ front back, text = front ++ back -> front ≠ [] -> back ≠ [] ->
    ¬Boundary front (back ++ after)

/-- A stretch of letters and digits from one boundary to the next. -/
structure IsWord (before text after : List Char) : Prop where
  nonempty : text ≠ []
  alphanumeric : ∀ char ∈ text, char.isAlphanum
  starts : Boundary before (text ++ after)
  stops : Boundary text after
  unbroken : Unbroken text after

theorem boundary_nil_left : Boundary [] after := nofun

/-- Only the last character in front of a place matters. -/
theorem boundary_append_iff (nonempty : text ≠ []) :
    Boundary (before ++ text) after ↔ Boundary text after := by
  unfold Boundary
  rw [List.getLast?_append, List.getLast?_eq_some_getLast nonempty, Option.some_or]

/-- A text of one class ends where another class begins, unless small letters
follow capitals. -/
theorem boundary_of_class
    (kind : CharClass)
    (lasts : ∀ char ∈ text.getLast?, CharClass.of char = kind)
    (changes : ∀ next, after.head?.map CharClass.of = some next ->
      kind ≠ next ∧ ¬(kind = .upper ∧ next = .lower)) :
    Boundary text after := by
  intro left isLast right isFirst _ _
  have next := changes (CharClass.of right) (by rw [Option.mem_def.mp isFirst, Option.map_some])
  rw [← lasts left isLast] at next
  exact .inl next

theorem unbroken_singleton : Unbroken [left] after := by
  intro front back same frontNonempty backNonempty
  have lengths := congrArg List.length same
  have frontLength := List.length_pos_iff.mpr frontNonempty
  have backLength := List.length_pos_iff.mpr backNonempty
  simp only [List.length_singleton, List.length_append] at lengths
  omega

theorem unbroken_cons
    (leftLetter : CharClass.of left ≠ .other)
    (rightLetter : CharClass.of right ≠ .other)
    (joined : ¬Cut left right (text ++ after))
    (unbroken : Unbroken (right :: text) after) :
    Unbroken (left :: right :: text) after := by
  intro front back same frontNonempty backNonempty boundary
  cases front with
  | nil => exact frontNonempty rfl
  | cons head front =>
      rw [List.cons_append, List.cons.injEq] at same
      obtain ⟨rfl, same⟩ := same
      cases front with
      | nil =>
          obtain rfl : right :: text = back := same
          have cut := boundary left rfl right rfl
          exact joined (cut (CharClass.of_ne_other_iff.mp leftLetter)
            (CharClass.of_ne_other_iff.mp rightLetter))
      | cons second front =>
          change Boundary ([left] ++ second :: front) (back ++ after) at boundary
          rw [boundary_append_iff (List.cons_ne_nil _ _)] at boundary
          exact unbroken _ back same (List.cons_ne_nil _ _) backNonempty boundary

/-- Characters of one class belong together, unless a small letter claims the
last of several capitals. -/
theorem unbroken_of_class
    (kind : CharClass)
    (uniform : ∀ char ∈ text, CharClass.of char = kind)
    (alphanumeric : kind ≠ .other)
    (keeps : kind = .upper -> after.head?.map CharClass.of ≠ some .lower) :
    Unbroken text after := by
  induction text with
  | nil =>
      intro front back same frontNonempty
      exact absurd (List.append_eq_nil_iff.mp same.symm).1 frontNonempty
  | cons left text hypothesis =>
      cases text with
      | nil => exact unbroken_singleton
      | cons right text =>
          have leftClass := uniform left (by simp)
          have rightClass := uniform right (by simp)
          have unbroken := hypothesis fun char present =>
            uniform char (List.mem_cons_of_mem _ present)
          refine unbroken_cons (leftClass ▸ alphanumeric) (rightClass ▸ alphanumeric) ?_ unbroken
          rintro (⟨differ, -⟩ | ⟨isUpper, -, claimed⟩)
          · exact differ (leftClass.trans rightClass.symm)
          · obtain rfl := leftClass.symm.trans isUpper
            cases text with
            | nil => exact keeps rfl claimed
            | cons next text =>
                have nextClass := uniform next (by simp)
                simp [nextClass] at claimed

/-! ## Words do not overlap -/

/-- A word does not go on behind a boundary. -/
theorem IsWord.eq_nil_of_boundary
    (isWord : IsWord before (part ++ rest) after)
    (nonempty : part ≠ [])
    (stops : Boundary part (rest ++ after)) :
    rest = [] := by
  by_contra more
  exact isWord.unbroken part rest rfl nonempty more stops

/-- Words that begin at one place are the same. -/
theorem IsWord.eq_of_append_eq
    (isWord : IsWord prior part rest)
    (other : IsWord before text after)
    (same : part ++ rest = text ++ after) :
    part = text ∧ rest = after := by
  rcases List.append_eq_append_iff.mp same with ⟨excess, rfl, rfl⟩ | ⟨missing, rfl, rfl⟩
  · obtain rfl := other.eq_nil_of_boundary isWord.nonempty isWord.stops
    exact ⟨(List.append_nil part).symm, rfl⟩
  · obtain rfl := isWord.eq_nil_of_boundary other.nonempty other.stops
    exact ⟨List.append_nil text, rfl⟩

/-- Two words of one text are the same, or one is behind the other. -/
theorem IsWord.eq_or_behind
    (isWord : IsWord prior part rest)
    (other : IsWord (prior ++ before) text after)
    (same : part ++ rest = before ++ (text ++ after)) :
    (before = [] ∧ text = part ∧ after = rest) ∨
      ∃ between, before = part ++ between ∧ rest = between ++ (text ++ after) := by
  rcases List.append_eq_append_iff.mp same with ⟨between, before_eq, rest_eq⟩ | ⟨tail, rfl, tail_eq⟩
  · exact .inr ⟨between, before_eq, rest_eq⟩
  · by_cases atStart : before = []
    · subst atStart
      obtain ⟨rfl, rfl⟩ := other.eq_of_append_eq isWord tail_eq
      exact .inl ⟨rfl, rfl, rfl⟩
    · -- The other word begins at a boundary, so it does not begin inside this one.
      have starts : Boundary before (tail ++ rest) := by
        rw [← tail_eq, ← boundary_append_iff atStart]
        exact other.starts
      obtain rfl := isWord.eq_nil_of_boundary atStart starts
      exact .inr ⟨[], by simp, tail_eq.symm⟩

/-- A word is behind characters that are neither letters nor digits. -/
theorem IsWord.behind_of_separator
    (separates : ∀ char ∈ part, char.isAlphanum = false)
    (isWord : IsWord prior text after)
    (same : part ++ rest = before ++ (text ++ after)) :
    ∃ between, before = part ++ between ∧ rest = between ++ (text ++ after) := by
  rcases List.append_eq_append_iff.mp same with ⟨between, before_eq, rest_eq⟩ |
    ⟨tail, part_eq, tail_eq⟩
  · exact ⟨between, before_eq, rest_eq⟩
  · cases tail with
    | nil => exact ⟨[], by simpa using part_eq.symm, by simpa using tail_eq.symm⟩
    | cons head tail =>
        have separator := separates head (by simp [part_eq])
        have isFirst : head ∈ text := by
          obtain ⟨first, others, rfl⟩ := List.exists_cons_of_ne_nil isWord.nonempty
          rw [List.cons_append, List.cons_append, List.cons.injEq] at tail_eq
          simp [tail_eq.1]
        have alphanumeric := isWord.alphanumeric head isFirst
        rw [separator] at alphanumeric
        exact absurd alphanumeric nofun

/-! ## Maximal runs -/

/-- The characters of a row of runs. -/
def chars (row : List Run) : List Char :=
  row.flatMap Run.text

@[simp] theorem chars_nil : chars [] = [] := rfl

@[simp] theorem chars_cons (run : Run) (row : List Run) :
    chars (run :: row) = run.text ++ chars row := by
  simp [chars]

/-- A run has characters, all of its class. -/
structure Run.Uniform (run : Run) : Prop where
  nonempty : run.text ≠ []
  class_eq : ∀ char ∈ run.text, CharClass.of char = run.kind

/-- Runs of one class each that go as far as their class does. -/
structure MaximalRuns (row : List Run) : Prop where
  uniform : ∀ run ∈ row, run.Uniform
  alternating : row.IsChain (·.kind ≠ ·.kind)

namespace MaximalRuns

variable {run : Run}
variable {row : List Run}

theorem head (maximal : MaximalRuns (run :: row)) : run.Uniform :=
  maximal.uniform run List.mem_cons_self

theorem tail (maximal : MaximalRuns (run :: row)) : MaximalRuns row where
  uniform := (List.forall_mem_cons.mp maximal.uniform).2
  alternating := maximal.alternating.tail

/-- The first character has the class of the first run. -/
theorem class_head (maximal : MaximalRuns row) :
    (chars row).head?.map CharClass.of = row.head?.map Run.kind := by
  cases row with
  | nil => rfl
  | cons run row =>
      obtain ⟨first, others, text_eq⟩ := List.exists_cons_of_ne_nil maximal.head.nonempty
      have firstClass := maximal.head.class_eq first (by simp [text_eq])
      simp [text_eq, firstClass]

/-- The next run is of another class. -/
theorem ne_of_class_head
    {next : CharClass}
    (maximal : MaximalRuns (run :: row))
    (follows : (chars row).head?.map CharClass.of = some next) :
    run.kind ≠ next := by
  rw [maximal.tail.class_head, Option.map_eq_some_iff] at follows
  obtain ⟨second, isSecond, rfl⟩ := follows
  obtain ⟨others, rfl⟩ := List.head?_eq_some_iff.mp isSecond
  exact (List.isChain_cons_cons.mp maximal.alternating).1

end MaximalRuns

theorem chars_runs (text : List Char) : chars (runs text) = text := by
  fun_induction runs text with
  | case1 => rfl
  | case2 char rest nothing hypothesis =>
      rw [nothing] at hypothesis
      simp [← hypothesis]
  | case3 char rest run others joint joins hypothesis =>
      rw [joint] at hypothesis
      simp [← hypothesis]
  | case4 char rest run others joint parts hypothesis =>
      rw [joint] at hypothesis
      simp [← hypothesis]

theorem maximalRuns_runs (text : List Char) : MaximalRuns (runs text) := by
  fun_induction runs text with
  | case1 => exact ⟨nofun, .nil⟩
  | case2 char rest nothing hypothesis =>
      refine ⟨List.forall_mem_singleton.mpr ⟨List.cons_ne_nil _ _, ?_⟩, .singleton _⟩
      simp
  | case3 char rest run others joint joins hypothesis =>
      rw [joint] at hypothesis
      have longer : Run.Uniform ⟨run.kind, char :: run.text⟩ :=
        ⟨List.cons_ne_nil _ _, List.forall_mem_cons.mpr ⟨joins.symm, hypothesis.head.class_eq⟩⟩
      refine ⟨List.forall_mem_cons.mpr ⟨longer, hypothesis.tail.uniform⟩, ?_⟩
      exact List.isChain_cons.mpr (List.isChain_cons.mp hypothesis.alternating)
  | case4 char rest run others joint parts hypothesis =>
      rw [joint] at hypothesis
      have alone : Run.Uniform ⟨.of char, [char]⟩ := ⟨List.cons_ne_nil _ _, by simp⟩
      refine ⟨List.forall_mem_cons.mpr ⟨alone, hypothesis.uniform⟩, ?_⟩
      exact List.isChain_cons_cons.mpr ⟨Ne.symm parts, hypothesis.alternating⟩

/-! ## Capitals handed over -/

/-- Handing over moves no character. -/
theorem chars_handOver (row : List Run) : chars (handOver row) = chars row := by
  fun_induction handOver row with
  | case1 upper lower rest handsOver hypothesis =>
      have whole : upper.text.dropLast ++ upper.text.getLast?.toList = upper.text := by
        cases last : upper.text.getLast? with
        | none => simp [List.getLast?_eq_none_iff.mp last]
        | some capital => simp [List.dropLast_append_getLast? capital last]
      simp only [chars_cons, hypothesis]
      rw [← List.append_assoc, ← List.append_assoc, whole, List.append_assoc]
  | case2 upper lower rest keeps hypothesis => rw [chars_cons, hypothesis, ← chars_cons]
  | case3 others short => rfl

/-- The texts that words have: digits, capitals, or small letters that may have
a capital in front. -/
def Shaped (text : List Char) : Prop :=
  (∀ char ∈ text, char.isDigit) ∨ (∀ char ∈ text, char.isUpper) ∨
    ∃ capital small, text = capital ++ small ∧ capital.length ≤ 1 ∧
      (∀ char ∈ capital, char.isUpper) ∧ small ≠ [] ∧ ∀ char ∈ small, char.isLower

/-- What a run consists of once capitals are handed over. -/
structure Run.Formed (run : Run) : Prop where
  separates : run.kind = .other -> ∀ char ∈ run.text, char.isAlphanum = false
  alphanumeric : run.kind ≠ .other -> ∀ char ∈ run.text, char.isAlphanum
  shaped : run.kind ≠ .other -> Shaped run.text

/-- Runs with a boundary behind each of them and, but for separators, none
inside. -/
inductive Parted : List Run -> Prop
  | nil : Parted []
  | cons
      {run : Run}
      {row : List Run}
      (formed : run.Formed)
      (stops : Boundary run.text (chars row))
      (unbroken : run.kind ≠ .other -> Unbroken run.text (chars row))
      (further : Parted row) :
      Parted (run :: row)

theorem Run.formed_of_class
    {run : Run}
    (classes : ∀ char ∈ run.text, CharClass.of char = run.kind)
    (nonempty : run.kind = .lower -> run.text ≠ []) :
    run.Formed where
  separates isOther char present := by
    have noLetter : ¬char.isAlphanum := by
      rw [← CharClass.of_ne_other_iff, not_not, classes char present, isOther]
    simpa using noLetter
  alphanumeric notOther char present := by
    rw [← classes char present] at notOther
    exact CharClass.of_ne_other_iff.mp notOther
  shaped notOther := by
    cases kind : run.kind with
    | other => exact absurd kind notOther
    | digit =>
        refine .inl fun char present => ?_
        exact CharClass.of_eq_digit_iff.mp ((classes char present).trans kind)
    | upper =>
        refine .inr (.inl fun char present => ?_)
        exact CharClass.of_eq_upper_iff.mp ((classes char present).trans kind)
    | lower =>
        refine .inr (.inr ⟨[], run.text, rfl, by simp, by simp, nonempty kind, ?_⟩)
        intro char present
        exact CharClass.of_eq_lower_iff.mp ((classes char present).trans kind)

theorem Run.Uniform.formed
    {run : Run}
    (uniform : run.Uniform) :
    run.Formed :=
  run.formed_of_class uniform.class_eq fun _ => uniform.nonempty

namespace MaximalRuns

variable {run : Run}
variable {row : List Run}

theorem stops
    (maximal : MaximalRuns (run :: row))
    (keeps : run.kind = .upper -> (chars row).head?.map CharClass.of ≠ some .lower) :
    Boundary run.text (chars row) := by
  apply boundary_of_class run.kind
  · intro char isLast
    exact maximal.head.class_eq char (List.mem_of_getLast? isLast)
  · intro next follows
    refine ⟨maximal.ne_of_class_head follows, ?_⟩
    rintro ⟨isUpper, rfl⟩
    exact keeps isUpper follows

theorem unbroken
    (maximal : MaximalRuns (run :: row))
    (keeps : run.kind = .upper -> (chars row).head?.map CharClass.of ≠ some .lower)
    (alphanumeric : run.kind ≠ .other) :
    Unbroken run.text (chars row) :=
  unbroken_of_class run.kind maximal.head.class_eq alphanumeric keeps

end MaximalRuns

/-- Capitals are cut in front of the last one when small letters follow, and
the last one stays with the small letters. -/
theorem parted_of_capitals
    {upper : List Char}
    {capital : Char}
    {lower : Run}
    {row : List Run}
    (capitals : ∀ char ∈ upper ++ [capital], CharClass.of char = .upper)
    (maximal : MaximalRuns (lower :: row))
    (isLower : lower.kind = .lower)
    (further : Parted (handOver row)) :
    Parted (⟨.upper, upper⟩ :: ⟨.lower, capital :: lower.text⟩ :: handOver row) := by
  have capitalClass := capitals capital (by simp)
  have upperClass (char : Char) (present : char ∈ upper) : CharClass.of char = .upper :=
    capitals char (List.mem_append_left _ present)
  have lowerClass (char : Char) (present : char ∈ lower.text) : CharClass.of char = .lower :=
    (maximal.head.class_eq char present).trans isLower
  have keeps : lower.kind = .upper -> (chars row).head?.map CharClass.of ≠ some .lower := by
    simp [isLower]
  obtain ⟨first, small, lower_eq⟩ := List.exists_cons_of_ne_nil maximal.head.nonempty
  have firstClass := lowerClass first (by simp [lower_eq])
  have upperStops : Boundary upper (capital :: lower.text ++ chars row) := by
    intro left isLast right isFirst _ _
    obtain rfl : capital = right := by simpa using isFirst
    refine .inr ⟨upperClass left (List.mem_of_getLast? isLast), capitalClass, ?_⟩
    simp [lower_eq, firstClass]
  have upperUnbroken : Unbroken upper (capital :: lower.text ++ chars row) := by
    apply unbroken_of_class .upper upperClass (by simp)
    simp [capitalClass]
  have lowerFormed : Run.Formed ⟨.lower, capital :: lower.text⟩ := by
    have capitalUpper := CharClass.of_eq_upper_iff.mp capitalClass
    have smallLower (char : Char) (present : char ∈ lower.text) : char.isLower :=
      CharClass.of_eq_lower_iff.mp (lowerClass char present)
    refine ⟨by simp, fun _ => ?_, fun _ => .inr (.inr ⟨[capital], lower.text, rfl, ?_⟩)⟩
    · rw [List.forall_mem_cons]
      simp only [← CharClass.of_ne_other_iff]
      exact ⟨by simp [capitalClass], fun char present => by simp [lowerClass char present]⟩
    · exact ⟨Nat.le_refl 1, by simpa, maximal.head.nonempty, smallLower⟩
  have lowerStops : Boundary (capital :: lower.text) (chars row) := by
    change Boundary ([capital] ++ lower.text) (chars row)
    rw [boundary_append_iff maximal.head.nonempty]
    exact maximal.stops keeps
  have lowerUnbroken : Unbroken (capital :: lower.text) (chars row) := by
    have unbroken := maximal.unbroken keeps (by simp [isLower])
    rw [lower_eq] at unbroken ⊢
    refine unbroken_cons (by simp [capitalClass]) (by simp [firstClass]) ?_ unbroken
    simp [Cut, capitalClass, firstClass]
  rw [← chars_handOver row] at upperStops upperUnbroken lowerStops lowerUnbroken
  exact .cons (Run.formed_of_class upperClass (by simp)) (by simpa using upperStops)
    (fun _ => by simpa using upperUnbroken)
    (.cons lowerFormed lowerStops (fun _ => lowerUnbroken) further)

/-- Once capitals are handed over, runs lie between boundaries. -/
theorem parted_handOver
    {row : List Run}
    (maximal : MaximalRuns row) :
    Parted (handOver row) := by
  fun_induction handOver row with
  | case1 upper lower rest handsOver hypothesis =>
      obtain ⟨isUpper, isLower⟩ := handsOver
      have capitals := maximal.head.class_eq
      rcases List.eq_nil_or_concat upper.text with nothing | ⟨front, capital, text_eq⟩
      · exact absurd nothing maximal.head.nonempty
      · rw [List.concat_eq_append] at text_eq
        rw [text_eq, isUpper] at capitals
        rw [text_eq, List.dropLast_concat, List.getLast?_concat]
        exact parted_of_capitals capitals maximal.tail isLower (hypothesis maximal.tail.tail)
  | case2 run next rest keeps hypothesis =>
      have keepsCapital (isUpper : run.kind = .upper) :
          (chars (next :: rest)).head?.map CharClass.of ≠ some .lower := by
        rw [maximal.tail.class_head]
        intro follows
        exact keeps ⟨isUpper, Option.some.inj follows⟩
      have further := hypothesis maximal.tail
      refine .cons maximal.head.formed ?_ ?_ further
      · rw [chars_handOver]
        exact maximal.stops keepsCapital
      · rw [chars_handOver]
        exact maximal.unbroken keepsCapital
  | case3 others short =>
      cases others with
      | nil => exact .nil
      | cons run others =>
          cases others with
          | nil =>
              have keeps (_ : run.kind = .upper) :
                  (chars []).head?.map CharClass.of ≠ some .lower := nofun
              exact .cons maximal.head.formed (maximal.stops keeps) (maximal.unbroken keeps) .nil
          | cons next others => exact absurd rfl (short run next others)

end Word
end DerivedQuery
