/-!
# Quoted strings

Strings of a JSON text stand between quotation marks. A backslash starts an
escape: a letter for a common control character, or `u` and the four
hexadecimal digits of a UTF-16 unit. Two units that form a surrogate pair
stand for one character; a surrogate on its own stands for none.

Writing escapes only quotation marks, backslashes and characters below a space.
-/

namespace DerivedQuery

namespace Json

namespace Quoted

/-- The letter that stands for a character in an escape. -/
def letterOf? (char : Char) : Option Char :=
  if char = '"' then some '"'
  else if char = '\\' then some '\\'
  else if char = '\x08' then some 'b'
  else if char = '\x0c' then some 'f'
  else if char = '\n' then some 'n'
  else if char = '\r' then some 'r'
  else if char = '\t' then some 't'
  else none

/-- The character that a letter stands for in an escape. -/
def ofLetter? (letter : Char) : Option Char :=
  if letter = '"' then some '"'
  else if letter = '\\' then some '\\'
  else if letter = '/' then some '/'
  else if letter = 'b' then some '\x08'
  else if letter = 'f' then some '\x0c'
  else if letter = 'n' then some '\n'
  else if letter = 'r' then some '\r'
  else if letter = 't' then some '\t'
  else none

/-- A character as it is written between quotation marks. -/
def encodeChar (char : Char) : List Char :=
  match letterOf? char with
  | some letter => ['\\', letter]
  | none =>
      if char.toNat < 0x20 then
        ['\\', 'u', '0', '0', Nat.digitChar (char.toNat / 16), Nat.digitChar (char.toNat % 16)]
      else
        [char]

/-- A text in quotation marks. -/
def encode (text : String) : String :=
  String.ofList ('"' :: text.toList.flatMap encodeChar ++ ['"'])

/-- The value of a hexadecimal digit. -/
def digit? (char : Char) : Option Nat :=
  if '0' ≤ char ∧ char ≤ '9' then some (char.toNat - '0'.toNat)
  else if 'a' ≤ char ∧ char ≤ 'f' then some (char.toNat - 'a'.toNat + 10)
  else if 'A' ≤ char ∧ char ≤ 'F' then some (char.toNat - 'A'.toNat + 10)
  else none

/-- Read four hexadecimal digits. -/
def readUnit : List Char -> Option (Nat × List Char)
  | first :: second :: third :: fourth :: rest =>
      match digit? first, digit? second, digit? third, digit? fourth with
      | some a, some b, some c, some d => some (((a * 16 + b) * 16 + c) * 16 + d, rest)
      | _, _, _, _ => none
  | _ => none

/-- Whether a unit is the first half of a surrogate pair. -/
def isHighSurrogate (unit : Nat) : Bool :=
  0xD800 ≤ unit && unit < 0xDC00

/-- Whether a unit is the second half of a surrogate pair. -/
def isLowSurrogate (unit : Nat) : Bool :=
  0xDC00 ≤ unit && unit < 0xE000

/-- The second half of a surrogate pair, if its escape comes next. -/
def readLowSurrogate : List Char -> Option (Nat × List Char)
  | '\\' :: 'u' :: digits =>
      (readUnit digits).filter fun found => isLowSurrogate found.1
  | _ => none

/-- The character of a unit that has been read, and the text behind it. A
surrogate on its own gives no character. -/
def finishUnit (unit : Nat) (rest : List Char) : Option Char × List Char :=
  if isHighSurrogate unit then
    match readLowSurrogate rest with
    | some (low, after) =>
        (some (Char.ofNat (0x10000 + (unit - 0xD800) * 0x400 + (low - 0xDC00))), after)
    | none => (none, rest)
  else if isLowSurrogate unit then
    (none, rest)
  else
    (some (Char.ofNat unit), rest)

/-- Read an escape behind its backslash. -/
def readEscape : List Char -> Option (Option Char × List Char)
  | [] => none
  | letter :: rest =>
      if letter = 'u' then
        (readUnit rest).map fun found => finishUnit found.1 found.2
      else
        (ofLetter? letter).map fun char => (some char, rest)

theorem length_of_readUnit
    {text rest : List Char}
    {unit : Nat}
    (found : readUnit text = some (unit, rest)) :
    rest.length ≤ text.length := by
  unfold readUnit at found
  split at found
  · split at found
    · simp only [Option.some.injEq, Prod.mk.injEq] at found
      obtain ⟨-, rfl⟩ := found
      simp only [List.length_cons]
      omega
    · simp at found
  · simp at found

theorem length_of_readLowSurrogate
    {text rest : List Char}
    {unit : Nat}
    (found : readLowSurrogate text = some (unit, rest)) :
    rest.length ≤ text.length := by
  unfold readLowSurrogate at found
  split at found
  · rw [Option.filter_eq_some_iff] at found
    have shorter := length_of_readUnit found.1
    simp only [List.length_cons]
    omega
  · simp at found

theorem length_finishUnit_le (unit : Nat) (rest : List Char) :
    (finishUnit unit rest).2.length ≤ rest.length := by
  unfold finishUnit
  split
  · split
    · rename_i found
      exact length_of_readLowSurrogate found
    · exact Nat.le_refl _
  · split <;> exact Nat.le_refl _

theorem length_of_readEscape
    {text rest : List Char}
    {char? : Option Char}
    (found : readEscape text = some (char?, rest)) :
    rest.length < text.length := by
  cases text with
  | nil => simp [readEscape] at found
  | cons letter after =>
      simp only [readEscape] at found
      split at found
      · obtain ⟨⟨unit, digitsRest⟩, unitRead, finished⟩ := Option.map_eq_some_iff.1 found
        have shorter := length_of_readUnit unitRead
        have finishedRest : (finishUnit unit digitsRest).2 = rest := congrArg Prod.snd finished
        have behind := length_finishUnit_le unit digitsRest
        rw [finishedRest] at behind
        simp only [List.length_cons]
        omega
      · obtain ⟨_, -, finished⟩ := Option.map_eq_some_iff.1 found
        have afterRest : after = rest := congrArg Prod.snd finished
        rw [afterRest]
        exact Nat.lt_succ_self _

/-- Read the rest of a string behind its opening quotation mark. `done` are
the characters read so far in reverse, or nothing once an escape stood for no
character. -/
def readBehind (done : Option (List Char)) : List Char -> Option (Option String × List Char)
  | [] => none
  | char :: rest =>
      if char = '"' then
        some (done.map fun chars => String.ofList chars.reverse, rest)
      else if char = '\\' then
        match _escape : readEscape rest with
        | none => none
        | some (char?, after) =>
            readBehind (char?.bind fun escaped => done.map (escaped :: ·)) after
      else if char.toNat < 0x20 then
        none
      else
        readBehind (done.map (char :: ·)) rest
termination_by text => text.length
decreasing_by
  · have shorter := length_of_readEscape _escape
    simp only [List.length_cons]
    omega
  · exact Nat.lt_succ_self _

/-- Read a string behind its opening quotation mark. -/
def read (text : List Char) : Option (Option String × List Char) :=
  readBehind (some []) text

theorem length_of_readBehind
    {done : Option (List Char)}
    {text rest : List Char}
    {content : Option String}
    (found : readBehind done text = some (content, rest)) :
    rest.length < text.length := by
  fun_induction readBehind done text with
  | case1 => simp at found
  | case2 =>
      simp only [Option.some.injEq, Prod.mk.injEq] at found
      obtain ⟨-, rfl⟩ := found
      exact Nat.lt_succ_self _
  | case3 => simp at found
  | case4 done after char? behind escape _ ih =>
      have shorter := length_of_readEscape escape
      have further := ih found
      simp only [List.length_cons]
      omega
  | case5 => simp at found
  | case6 done char after _ _ _ ih =>
      exact Nat.lt_succ_of_lt (ih found)

end Quoted

end Json

end DerivedQuery
