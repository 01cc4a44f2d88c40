import DerivedQuery.Json
import DerivedQuery.Json.Quoted

/-!
# Tokens of a JSON text

Brackets, commas, colons, strings and the scalars, with blanks between them
left out.
-/

namespace DerivedQuery

namespace Json

/-- A token. -/
inductive Token
  | openArray
  | closeArray
  | openObject
  | closeObject
  | comma
  | colon
  /-- A string, or nothing if it holds an escape standing for no character. -/
  | string (text : Option String)
  | scalar (value : Json)
  deriving Inhabited, Repr

namespace Token

/-- Blanks between tokens. -/
def isBlank (char : Char) : Bool :=
  char == ' ' || char == '\n' || char == '\t' || char == '\r'

/-- Characters that numbers are made of. -/
def isNumeralChar (char : Char) : Bool :=
  char.isDigit || char == '-' || char == '+' || char == '.' || char == 'e' || char == 'E'

/-- Whether a text is a row of at least one digit. -/
def isDigits (text : List Char) : Bool :=
  !text.isEmpty && text.all Char.isDigit

/-- Whether a text is empty or the exponent of a number. -/
def isExponent : List Char -> Bool
  | [] => true
  | mark :: rest =>
      (mark == 'e' || mark == 'E') &&
        match rest with
        | [] => false
        | sign :: digits =>
            if sign == '+' || sign == '-' then isDigits digits else isDigits rest

/-- Whether a text is what may follow the whole part of a number. -/
def isFraction : List Char -> Bool
  | '.' :: rest =>
      isDigits (rest.takeWhile Char.isDigit) && isExponent (rest.dropWhile Char.isDigit)
  | text => isExponent text

/-- Whether a text is a number without a sign. A whole part of several digits
does not start with zero. -/
def isMagnitude : List Char -> Bool
  | '0' :: rest => isFraction rest
  | text => isDigits (text.takeWhile Char.isDigit) && isFraction (text.dropWhile Char.isDigit)

/-- Whether a text is a number. -/
def isNumeral : List Char -> Bool
  | '-' :: rest => isMagnitude rest
  | text => isMagnitude text

/-- The number that a row of digits stands for. -/
def valueOfDigits (digits : List Char) : Nat :=
  digits.foldl (fun value digit => value * 10 + (digit.toNat - '0'.toNat)) 0

/-- The scalar of a number. -/
def ofNumeral? (text : List Char) : Option Json :=
  if isNumeral text then
    if isDigits text then
      some (.natural (valueOfDigits text))
    else
      some (.numeral (String.ofList text))
  else
    none

/-- The tokens that are one character long. -/
def punctuation? (char : Char) : Option Token :=
  if char = '[' then some .openArray
  else if char = ']' then some .closeArray
  else if char = '\x7b' then some .openObject
  else if char = '\x7d' then some .closeObject
  else if char = ',' then some .comma
  else if char = ':' then some .colon
  else none

/-- Read the token that starts with a character, which is not a blank. -/
def readNext (char : Char) (rest : List Char) : Option (Token × List Char) :=
  match punctuation? char with
  | some token => some (token, rest)
  | none =>
      if char = '"' then
        (Quoted.read rest).map fun found => (.string found.1, found.2)
      else if char = 'n' then
        if rest.take 3 = ['u', 'l', 'l'] then some (.scalar .null, rest.drop 3) else none
      else if char = 't' then
        if rest.take 3 = ['r', 'u', 'e'] then some (.scalar (.bool true), rest.drop 3) else none
      else if char = 'f' then
        if rest.take 4 = ['a', 'l', 's', 'e'] then
          some (.scalar (.bool false), rest.drop 4)
        else
          none
      else
        (ofNumeral? (char :: rest.takeWhile isNumeralChar)).map fun value =>
          (.scalar value, rest.dropWhile isNumeralChar)

theorem length_of_readNext
    {char : Char}
    {rest after : List Char}
    {token : Token}
    (found : readNext char rest = some (token, after)) :
    after.length ≤ rest.length := by
  unfold readNext at found
  split at found
  · simp only [Option.some.injEq, Prod.mk.injEq] at found
    obtain ⟨-, rfl⟩ := found
    exact Nat.le_refl _
  · split at found
    · obtain ⟨⟨content, behind⟩, stringRead, parts⟩ := Option.map_eq_some_iff.1 found
      have behindAfter : behind = after := congrArg Prod.snd parts
      rw [← behindAfter]
      exact Nat.le_of_lt (Quoted.length_of_readBehind stringRead)
    · split at found
      · split at found
        · simp only [Option.some.injEq, Prod.mk.injEq] at found
          obtain ⟨-, rfl⟩ := found
          simp
        · simp at found
      · split at found
        · split at found
          · simp only [Option.some.injEq, Prod.mk.injEq] at found
            obtain ⟨-, rfl⟩ := found
            simp
          · simp at found
        · split at found
          · split at found
            · simp only [Option.some.injEq, Prod.mk.injEq] at found
              obtain ⟨-, rfl⟩ := found
              simp
            · simp at found
          · obtain ⟨_, -, parts⟩ := Option.map_eq_some_iff.1 found
            have dropped : rest.dropWhile isNumeralChar = after := congrArg Prod.snd parts
            rw [← dropped]
            exact (rest.dropWhile_suffix isNumeralChar).length_le

/-- Cut a text into tokens. `done` are the tokens read so far in reverse. -/
def scan (done : List Token) : List Char -> Option (List Token)
  | [] => some done.reverse
  | char :: rest =>
      if isBlank char then
        scan done rest
      else
        match _next : readNext char rest with
        | none => none
        | some (token, after) => scan (token :: done) after
termination_by text => text.length
decreasing_by
  · exact Nat.lt_succ_self _
  · exact Nat.lt_succ_of_le (length_of_readNext _next)

/-- The tokens of a text. -/
def ofText? (text : String) : Option (List Token) :=
  scan [] text.toList

end Token

end Json

end DerivedQuery
