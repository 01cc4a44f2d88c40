import DerivedQuery.Json.Printer
import DerivedQuery.Json.Reader
import Mathlib.Data.List.TakeWhile

/-!
# Written JSON texts are read back

A plain value is written so that reading the text gives it back, whatever blanks
the layout puts between the tokens. Strings come back through their escapes and
numbers through their digits. The text of a part is read as that part wherever it
stands and whatever is still open around it, so the induction is on the value.
-/

namespace DerivedQuery
namespace Json

/-! ## Strings -/

namespace Quoted

/-- The letter in an escape tells the character. -/
theorem ofLetter?_of_letterOf?
    {char letter : Char}
    (named : letterOf? char = some letter) :
    letter ≠ 'u' ∧ ofLetter? letter = some char := by
  unfold letterOf? at named
  repeat' split at named
  all_goals cases named
  all_goals
    subst char
    decide

theorem digit?_digitChar
    {value : Nat}
    (small : value < 16) :
    digit? (Nat.digitChar value) = some value := by
  revert value
  decide

/-- The digits in an escape tell a control character. -/
theorem readEscape_digits
    {char : Char}
    (control : char.toNat < 0x20)
    (rest : List Char) :
    readEscape ('u' :: '0' :: '0' :: Nat.digitChar (char.toNat / 16) ::
      Nat.digitChar (char.toNat % 16) :: rest) = some (some char, rest) := by
  have unit_eq : readUnit ('0' :: '0' :: Nat.digitChar (char.toNat / 16) ::
      Nat.digitChar (char.toNat % 16) :: rest) = some (char.toNat, rest) := by
    have zero : digit? '0' = some 0 := rfl
    have high := digit?_digitChar (show char.toNat / 16 < 16 by omega)
    have low := digit?_digitChar (show char.toNat % 16 < 16 by omega)
    simp only [readUnit, zero, high, low, Option.some.injEq, Prod.mk.injEq, and_true]
    omega
  have notHigh : isHighSurrogate char.toNat = false := by
    simp only [isHighSurrogate, Bool.and_eq_false_iff, decide_eq_false_iff_not]
    omega
  have notLow : isLowSurrogate char.toNat = false := by
    simp only [isLowSurrogate, Bool.and_eq_false_iff, decide_eq_false_iff_not]
    omega
  simp [readEscape, unit_eq, finishUnit, notHigh, notLow]

theorem readBehind_escape
    {char : Char}
    {text rest : List Char}
    (done : List Char)
    (escape : readEscape text = some (some char, rest)) :
    readBehind (some done) ('\\' :: text) = readBehind (some (char :: done)) rest := by
  rw [readBehind, if_neg (by decide), if_pos rfl]
  split
  · next refused =>
      rw [escape] at refused
      cases refused
  · next found =>
      rw [escape] at found
      cases found
      rfl

/-- A written character is read as that character. -/
theorem readBehind_encodeChar
    (char : Char)
    (done rest : List Char) :
    readBehind (some done) (encodeChar char ++ rest) = readBehind (some (char :: done)) rest := by
  unfold encodeChar
  split
  · next letter named =>
      obtain ⟨notDigits, means⟩ := ofLetter?_of_letterOf? named
      have escape : readEscape (letter :: rest) = some (some char, rest) := by
        simp [readEscape, notDigits, means]
      exact readBehind_escape done escape
  · next unnamed =>
      split
      · next control =>
          exact readBehind_escape done (readEscape_digits control rest)
      · next visible =>
          have notQuote : char ≠ '"' := by
            rintro rfl
            cases unnamed
          have notBackslash : char ≠ '\\' := by
            rintro rfl
            cases unnamed
          rw [List.cons_append, List.nil_append, readBehind, if_neg notQuote, if_neg notBackslash,
            if_neg visible]
          rfl

/-- A written string is read up to its closing quotation mark. -/
theorem readBehind_flatMap_encodeChar
    (text done rest : List Char) :
    readBehind (some done) (text.flatMap encodeChar ++ '"' :: rest) =
      some (some (String.ofList (done.reverse ++ text)), rest) := by
  induction text generalizing done with
  | nil => simp [readBehind]
  | cons char text hypothesis =>
      rw [List.flatMap_cons, List.append_assoc, readBehind_encodeChar, hypothesis]
      simp

theorem read_encode
    (text : String)
    (rest : List Char) :
    (encode text).toList ++ rest = '"' :: (text.toList.flatMap encodeChar ++ '"' :: rest) ∧
      read (text.toList.flatMap encodeChar ++ '"' :: rest) = some (some text, rest) := by
  refine ⟨by simp [encode], ?_⟩
  rw [read, readBehind_flatMap_encodeChar]
  simp

end Quoted

/-! ## Numbers -/

namespace Token

theorem valueOfDigits_toDigits (value : Nat) : valueOfDigits (Nat.toDigits 10 value) = value := by
  have read := Nat.ofDigitChars_ten_toDigits (n := value)
  rw [Nat.ofDigitChars_eq_foldl] at read
  simpa only [valueOfDigits, Nat.mul_comm] using read

/-- The digits of a number other than zero do not start with zero. -/
theorem head?_toDigits_ne_zero
    {value : Nat}
    (positive : 0 < value) :
    (Nat.toDigits 10 value).head? ≠ some '0' := by
  induction value using Nat.strong_induction_on with
  | h value hypothesis =>
      rw [Nat.toDigits_eq_if (by decide)]
      split
      · next small =>
          simp only [List.head?_cons, ne_eq, Option.some.injEq, Nat.digitChar_eq_zero]
          omega
      · next large =>
          have leading := hypothesis (value / 10) (by omega) (by omega)
          obtain ⟨first, digits, digits_eq⟩ :=
            List.exists_cons_of_ne_nil (Nat.toDigits_ne_nil (n := value / 10) (b := 10))
          rw [digits_eq] at leading ⊢
          exact leading

theorem isDigits_toDigits (value : Nat) : isDigits (Nat.toDigits 10 value) = true := by
  rw [isDigits, Bool.and_eq_true, List.all_eq_true]
  refine ⟨by simp [Nat.toDigits_ne_nil], ?_⟩
  intro char member
  exact Nat.isDigit_of_mem_toDigits (by decide) (by decide) member

/-- A row of digits is a number unless it has a superfluous zero in front. -/
theorem isNumeral_of_isDigits
    {text : List Char}
    (digits : isDigits text = true)
    (leading : text.head? = some '0' -> text = ['0']) :
    isNumeral text = true := by
  obtain ⟨nonempty, all⟩ := Bool.and_eq_true_iff.1 digits
  have magnitude : isMagnitude text = true := by
    unfold isMagnitude
    split
    · next rest =>
        obtain ⟨-, rfl⟩ := List.cons.inj (leading rfl)
        rfl
    · rw [List.takeWhile_eq_self_iff.2 (List.all_eq_true.1 all),
        List.dropWhile_eq_nil_iff.2 (List.all_eq_true.1 all), digits]
      rfl
  unfold isNumeral
  split
  · cases all
  · exact magnitude

theorem ofNumeral?_toDigits (value : Nat) :
    ofNumeral? (Nat.toDigits 10 value) = some (.natural value) := by
  have digits := isDigits_toDigits value
  have numeral : isNumeral (Nat.toDigits 10 value) = true := by
    refine isNumeral_of_isDigits digits ?_
    intro leading
    rcases Nat.eq_zero_or_pos value with rfl | positive
    · exact Nat.toDigits_zero 10
    · exact absurd leading (head?_toDigits_ne_zero positive)
  rw [ofNumeral?, if_pos numeral, if_pos digits, valueOfDigits_toDigits]

/-! ## Tokens -/

theorem isNumeralChar_of_isDigit
    {char : Char}
    (digit : char.isDigit = true) :
    isNumeralChar char = true := by
  simp [isNumeralChar, digit]

/-- Blanks belong to no token outside strings. -/
theorem of_isBlank
    {char : Char}
    (blank : isBlank char = true) :
    isNumeralChar char = false ∧ punctuation? char = none := by
  simp only [isBlank, Bool.or_eq_true, beq_iff_eq] at blank
  rcases blank with ((rfl | rfl) | rfl) | rfl <;> exact ⟨rfl, rfl⟩

/-- No digit at the front of the text extends a number that stands before it. -/
def Ends (text : List Char) : Prop :=
  ∀ char ∈ text.head?, isNumeralChar char = false

theorem ends_blanks
    {blanks rest : List Char}
    (blank : ∀ char ∈ blanks, isBlank char = true)
    (ends : Ends rest) :
    Ends (blanks ++ rest) := by
  cases blanks with
  | nil => exact ends
  | cons char blanks =>
      rintro _ ⟨⟩
      exact (of_isBlank (blank char List.mem_cons_self)).1

theorem readNext_string
    (text : String)
    (rest : List Char) :
    readNext '"' (text.toList.flatMap Quoted.encodeChar ++ '"' :: rest) =
      some (.string (some text), rest) := by
  simp [readNext, punctuation?, (Quoted.read_encode text rest).2]

/-- A digit starts a number, not one of the other tokens. -/
theorem readNext_of_isDigit
    {char : Char}
    (digit : char.isDigit = true)
    (rest : List Char) :
    isBlank char = false ∧
      readNext char rest = (ofNumeral? (char :: rest.takeWhile isNumeralChar)).map fun value =>
        (.scalar value, rest.dropWhile isNumeralChar) := by
  have other : ∀ mark : Char, mark.isDigit = false -> char ≠ mark := by
    rintro mark noDigit rfl
    rw [digit] at noDigit
    cases noDigit
  simp [isBlank, readNext, punctuation?, other]

theorem readNext_toDigits
    {value : Nat}
    {char : Char}
    {digits rest : List Char}
    (digits_eq : Nat.toDigits 10 value = char :: digits)
    (ends : Ends rest) :
    isBlank char = false ∧
      readNext char (digits ++ rest) = some (.scalar (.natural value), rest) := by
  have all : ∀ digit ∈ char :: digits, digit.isDigit = true := by
    intro digit member
    rw [← digits_eq] at member
    exact Nat.isDigit_of_mem_toDigits (by decide) (by decide) member
  have numeral : ∀ digit ∈ digits, isNumeralChar digit = true :=
    fun digit member => isNumeralChar_of_isDigit (all digit (List.mem_cons_of_mem char member))
  have nothing : rest.takeWhile isNumeralChar = [] ∧ rest.dropWhile isNumeralChar = rest := by
    cases rest with
    | nil => exact ⟨rfl, rfl⟩
    | cons first rest => simp [ends first rfl]
  obtain ⟨notBlank, next⟩ := readNext_of_isDigit (all char List.mem_cons_self) (digits ++ rest)
  refine ⟨notBlank, ?_⟩
  rw [next, List.takeWhile_append_of_pos numeral, List.dropWhile_append_of_pos numeral, nothing.1,
    nothing.2, List.append_nil, ← digits_eq, ofNumeral?_toDigits]
  rfl

theorem scan_blank
    {char : Char}
    (done : List Token)
    (blank : isBlank char = true)
    (rest : List Char) :
    scan done (char :: rest) = scan done rest := by
  rw [scan, if_pos blank]

theorem scan_next
    {char : Char}
    {token : Token}
    {text rest : List Char}
    (done : List Token)
    (visible : isBlank char = false)
    (next : readNext char text = some (token, rest)) :
    scan done (char :: text) = scan (token :: done) rest := by
  rw [scan, if_neg (by simp [visible])]
  split
  · next refused =>
      rw [next] at refused
      cases refused
  · next found =>
      rw [next] at found
      cases found
      rfl

/-- The tokens read so far stand in front of the others. -/
theorem scan_append
    (front done : List Token)
    (text : List Char) :
    scan (front ++ done) text = (scan front text).map (done.reverse ++ ·) := by
  fun_induction scan front text with
  | case1 front => simp [scan]
  | case2 front char rest blank hypothesis =>
      rw [scan_blank _ blank, hypothesis]
  | case3 front char rest visible refused =>
      rw [scan, if_neg visible]
      split
      · rfl
      · next found =>
          rw [refused] at found
          cases found
  | case4 front char rest visible token after next hypothesis =>
      rw [scan_next _ (Bool.eq_false_iff.2 visible) next, ← hypothesis, List.cons_append]

end Token

/-! ## Reading on from a state -/

namespace Reader

open Token (isBlank punctuation? readNext)

/-- What a reader comes to behind a text. -/
def readFrom (state : State) (text : List Char) : Option State := do
  let tokens ← Token.scan [] text
  tokens.foldlM step state

variable {state after : State}

theorem readFrom_blanks
    {blanks : List Char}
    (blank : ∀ char ∈ blanks, isBlank char = true)
    (rest : List Char) :
    readFrom state (blanks ++ rest) = readFrom state rest := by
  induction blanks with
  | nil => rfl
  | cons char blanks hypothesis =>
      rw [List.forall_mem_cons] at blank
      rw [← hypothesis blank.2, List.cons_append, readFrom, Token.scan_blank [] blank.1]
      rfl

/-- The first token of a text takes the reader to its next state. -/
theorem readFrom_next
    {char : Char}
    {token : Token}
    {text rest : List Char}
    (visible : isBlank char = false)
    (next : readNext char text = some (token, rest))
    (taken : step state token = some after) :
    readFrom state (char :: text) = readFrom after rest := by
  have scanned := Token.scan_append [] [token] rest
  rw [List.nil_append] at scanned
  rw [readFrom, Token.scan_next [] visible next, scanned, readFrom]
  cases Token.scan [] rest with
  | none => rfl
  | some tokens => simp [taken]

theorem readFrom_mark
    {char : Char}
    {token : Token}
    (mark : String)
    (single : mark.toList = [char])
    (means : punctuation? char = some token)
    (taken : step state token = some after)
    (rest : List Char) :
    readFrom state (mark.toList ++ rest) = readFrom after rest := by
  rw [single]
  refine readFrom_next ?_ (by rw [readNext, means]; rfl) taken
  rw [Bool.eq_false_iff]
  intro blank
  rw [(Token.of_isBlank blank).2] at means
  cases means

theorem readFrom_scalar
    (word : String)
    {char : Char}
    {letters rest : List Char}
    {value : Json}
    (letters_eq : word.toList = char :: letters)
    (visible : isBlank char = false)
    (next : readNext char (letters ++ rest) = some (.scalar value, rest))
    (taken : step state (.scalar value) = some after) :
    readFrom state (word.toList ++ rest) = readFrom after rest := by
  rw [letters_eq]
  exact readFrom_next visible next taken

theorem readFrom_string
    (text : String)
    (taken : step state (.string (some text)) = some after)
    (rest : List Char) :
    readFrom state ((Quoted.encode text).toList ++ rest) = readFrom after rest := by
  rw [(Quoted.read_encode text rest).1]
  exact readFrom_next rfl (Token.readNext_string text rest) taken

theorem readFrom_natural
    (value : Nat)
    (taken : step state (.scalar (.natural value)) = some after)
    {rest : List Char}
    (ends : Token.Ends rest) :
    readFrom state (value.repr.toList ++ rest) = readFrom after rest := by
  obtain ⟨char, digits, digits_eq⟩ :=
    List.exists_cons_of_ne_nil (Nat.toDigits_ne_nil (n := value) (b := 10))
  obtain ⟨visible, next⟩ := Token.readNext_toDigits digits_eq ends
  rw [Nat.toList_repr, digits_eq]
  exact readFrom_next visible next taken

/-- The reader takes the first token of a value as one inside the given frames. -/
def State.Expects (state : State) (stack : List Frame) : Prop :=
  ∀ token, token ≠ .closeArray -> step state token = readValue stack token

theorem State.Expects.value (stack : List Frame) : (State.value stack).Expects stack :=
  fun _ _ => rfl

theorem State.Expects.arrayStart (stack : List Frame) :
    (State.arrayStart stack).Expects (.element [] :: stack) := by
  intro token notClosed
  cases token with
  | closeArray => exact absurd rfl notClosed
  | _ => rfl

theorem ofMembers_written (members : List (String × Json)) :
    ofMembers (members.map fun member => (some member.1, member.2)).reverse = .object members := by
  have read : (members.map fun member => ((some member.1, member.2) : Key × Json)).mapM
      (fun member => member.1.map fun key => (key, member.2)) = some members := by
    induction members with
    | nil => rfl
    | cons member members hypothesis => simp [hypothesis]
  rw [ofMembers, List.reverse_reverse, read]

end Reader

/-! ## Values -/

/-- A value that has no numbers other than natural ones and can be read
everywhere. -/
inductive Plain : Json -> Prop
  | null : Plain .null
  | bool (value : Bool) : Plain (.bool value)
  | natural (value : Nat) : Plain (.natural value)
  | string (text : String) : Plain (.string text)
  | array
      {elements : List Json}
      (plain : ∀ element ∈ elements, element.Plain) :
      Plain (.array elements)
  | object
      {members : List (String × Json)}
      (plain : ∀ member ∈ members, member.2.Plain) :
      Plain (.object members)

/-- The layout has only blanks. -/
structure Layout.Blank (layout : Layout) : Prop where
  lineBreak : ∀ depth, ∀ char ∈ (layout.lineBreak depth).toList, Token.isBlank char = true
  afterColon : ∀ char ∈ layout.afterColon.toList, Token.isBlank char = true

theorem Layout.Blank.compact : Layout.compact.Blank where
  lineBreak := by simp [Layout.compact]
  afterColon := by simp [Layout.compact]

theorem Layout.Blank.pretty : Layout.pretty.Blank where
  lineBreak depth := by
    simp [Layout.pretty, Token.isBlank]
  afterColon := by simp [Layout.pretty, Token.isBlank]

/-- Wherever the text of the value stands, it is read as the value. -/
def ReadBack (layout : Layout) (json : Json) : Prop :=
  ∀ (depth : Nat) (state : Reader.State) (stack : List Reader.Frame) (rest : List Char),
    state.Expects stack -> Token.Ends rest ->
      Reader.readFrom state ((renderAt layout depth json).toList ++ rest) =
        Reader.readFrom (.complete json stack) rest

section

open Reader

variable {layout : Layout}

theorem ends_renderElements
    (blank : layout.Blank)
    (depth : Nat)
    (elements : List Json)
    (rest : List Char) :
    Token.Ends ((renderElements layout depth elements).toList ++ rest) := by
  cases elements with
  | nil =>
      simp only [renderElements, String.toList_append, List.append_assoc]
      refine Token.ends_blanks (blank.lineBreak depth) ?_
      rintro _ ⟨⟩
      rfl
  | cons element elements =>
      simp only [renderElements, String.toList_append, List.append_assoc]
      rintro _ ⟨⟩
      rfl

/-- The elements behind the first one are added to those that are done. -/
theorem readFrom_renderElements
    (blank : layout.Blank)
    (depth : Nat)
    {elements : List Json}
    (back : ∀ element ∈ elements, ReadBack layout element)
    (value : Json)
    (done : List Json)
    (stack : List Frame)
    (rest : List Char) :
    readFrom (.complete value (.element done :: stack))
        ((renderElements layout depth elements).toList ++ rest) =
      readFrom (.complete (.array ((value :: done).reverse ++ elements)) stack) rest := by
  induction elements generalizing value done with
  | nil =>
      simp only [renderElements, String.toList_append, List.append_assoc, List.append_nil]
      rw [readFrom_blanks (blank.lineBreak depth)]
      exact readFrom_mark "]" rfl rfl rfl rest
  | cons element elements hypothesis =>
      rw [List.forall_mem_cons] at back
      simp only [renderElements, String.toList_append, List.append_assoc]
      refine (readFrom_mark "," rfl rfl rfl _).trans ?_
      rw [readFrom_blanks (blank.lineBreak (depth + 1)),
        back.1 _ _ _ _ (.value _) (ends_renderElements blank depth elements rest),
        hypothesis back.2]
      simp

theorem ends_renderMembers
    (blank : layout.Blank)
    (depth : Nat)
    (members : List (String × Json))
    (rest : List Char) :
    Token.Ends ((renderMembers layout depth members).toList ++ rest) := by
  cases members with
  | nil =>
      simp only [renderMembers, String.toList_append, List.append_assoc]
      refine Token.ends_blanks (blank.lineBreak depth) ?_
      rintro _ ⟨⟩
      rfl
  | cons member members =>
      simp only [renderMembers, String.toList_append, List.append_assoc]
      rintro _ ⟨⟩
      rfl

/-- A member is read where a key may come. -/
theorem readFrom_member
    (blank : layout.Blank)
    (depth : Nat)
    {key : String}
    {value : Json}
    {done : List (Key × Json)}
    {stack : List Frame}
    {state : State}
    {rest : List Char}
    (back : ReadBack layout value)
    (taken : step state (.string (some key)) = some (.colon done (some key) stack))
    (ends : Token.Ends rest) :
    readFrom state ((layout.lineBreak depth).toList ++ ((Quoted.encode key).toList ++ (":".toList ++
        (layout.afterColon.toList ++ ((renderAt layout depth value).toList ++ rest))))) =
      readFrom (.complete value (.member done (some key) :: stack)) rest := by
  rw [readFrom_blanks (blank.lineBreak depth), readFrom_string key taken]
  refine (readFrom_mark ":" rfl rfl rfl _).trans ?_
  rw [readFrom_blanks blank.afterColon, back _ _ _ _ (.value _) ends]

/-- The members behind the first one are added to those that are done. -/
theorem readFrom_renderMembers
    (blank : layout.Blank)
    (depth : Nat)
    {members : List (String × Json)}
    (back : ∀ member ∈ members, ReadBack layout member.2)
    (key : String)
    (value : Json)
    (done : List (String × Json))
    (stack : List Frame)
    (rest : List Char) :
    readFrom
        (.complete value (.member (done.map fun member => (some member.1, member.2)).reverse
          (some key) :: stack))
        ((renderMembers layout depth members).toList ++ rest) =
      readFrom (.complete (.object (done ++ (key, value) :: members)) stack) rest := by
  induction members generalizing key value done with
  | nil =>
      simp only [renderMembers, String.toList_append, List.append_assoc]
      rw [readFrom_blanks (blank.lineBreak depth), ← ofMembers_written]
      simp only [List.map_append, List.reverse_append]
      exact readFrom_mark "\x7d" rfl rfl rfl rest
  | cons member members hypothesis =>
      rw [List.forall_mem_cons] at back
      simp only [renderMembers, String.toList_append, List.append_assoc]
      refine (readFrom_mark "," rfl rfl rfl _).trans ?_
      refine (readFrom_member blank (depth + 1) back.1 rfl
        (ends_renderMembers blank depth members rest)).trans ?_
      have added := hypothesis back.2 member.1 member.2 (done ++ [(key, value)])
      simpa using added

/-- The text of a plain value is read as the value. -/
theorem Plain.readBack
    {json : Json}
    (plain : json.Plain)
    (blank : layout.Blank) :
    ReadBack layout json := by
  induction plain with
  | null =>
      intro depth state stack rest expects ends
      rw [renderAt]
      exact readFrom_scalar "null" rfl rfl rfl (expects (.scalar .null) (by simp))
  | bool value =>
      intro depth state stack rest expects ends
      cases value with
      | false =>
          rw [renderAt]
          exact readFrom_scalar "false" rfl rfl rfl (expects (.scalar (.bool false)) (by simp))
      | true =>
          rw [renderAt]
          exact readFrom_scalar "true" rfl rfl rfl (expects (.scalar (.bool true)) (by simp))
  | natural value =>
      intro depth state stack rest expects ends
      exact readFrom_natural value (expects (.scalar (.natural value)) (by simp)) ends
  | string text =>
      intro depth state stack rest expects ends
      exact readFrom_string text (expects (.string (some text)) (by simp)) rest
  | @array elements plain hypothesis =>
      intro depth state stack rest expects ends
      have opened := expects .openArray (by simp)
      cases elements with
      | nil =>
          rw [renderAt]
          refine (readFrom_mark "[" rfl rfl opened (']' :: rest)).trans ?_
          exact readFrom_mark "]" rfl rfl rfl rest
      | cons element elements =>
          rw [List.forall_mem_cons] at hypothesis
          simp only [renderAt, String.toList_append, List.append_assoc]
          have followed := ends_renderElements blank depth elements rest
          rw [readFrom_mark "[" rfl rfl opened, readFrom_blanks (blank.lineBreak (depth + 1)),
            hypothesis.1 _ _ _ _ (.arrayStart stack) followed,
            readFrom_renderElements blank depth hypothesis.2]
          rfl
  | @object members plain hypothesis =>
      intro depth state stack rest expects ends
      have opened := expects .openObject (by simp)
      cases members with
      | nil =>
          rw [renderAt]
          refine (readFrom_mark "\x7b" rfl rfl opened ('\x7d' :: rest)).trans ?_
          exact readFrom_mark "\x7d" rfl rfl rfl rest
      | cons member members =>
          rw [List.forall_mem_cons] at hypothesis
          simp only [renderAt, String.toList_append, List.append_assoc]
          rw [readFrom_mark "\x7b" rfl rfl opened]
          refine (readFrom_member blank (depth + 1) hypothesis.1 rfl
            (ends_renderMembers blank depth members rest)).trans ?_
          exact readFrom_renderMembers blank depth hypothesis.2 member.1 member.2 [] stack rest

theorem parse?_eq_bind (text : String) :
    parse? text = (readFrom (.value []) text.toList).bind finish := by
  rw [parse?, Token.ofText?, readFrom]
  cases Token.scan [] text.toList with
  | none => rfl
  | some tokens => rfl

/-- Reading the text of a plain value gives the value, also if blanks follow. -/
theorem Plain.parse?_render
    {json : Json}
    {blanks : String}
    (plain : json.Plain)
    (blank : layout.Blank)
    (blanksFollow : ∀ char ∈ blanks.toList, Token.isBlank char = true) :
    parse? (json.render layout ++ blanks) = some json := by
  have ends : Token.Ends blanks.toList := by
    rw [← List.append_nil blanks.toList]
    exact Token.ends_blanks blanksFollow (by rintro _ ⟨⟩)
  have read := plain.readBack blank 0 (.value []) [] blanks.toList (.value []) ends
  have complete : readFrom (.complete json []) blanks.toList = some (.complete json []) := by
    rw [← List.append_nil blanks.toList, readFrom_blanks blanksFollow]
    simp [readFrom, Token.scan]
  rw [parse?_eq_bind, String.toList_append, render, read, complete]
  rfl

end

end Json
end DerivedQuery
