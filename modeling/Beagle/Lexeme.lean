import Beagle.Token.Basic

/-!
Lexemes: what the text at the end of a gap turns out to be, and how many characters it takes.  A gap is
made of blanks, comments to the end of the line, and block comments, which do not nest.  A quoted string
is read after its opening quote.  A decimal numeral is an optional sign and one or more digits, with any
number of leading zeros; a reader of numerals answers only if the whole text is one and its value is in
range.
-/

namespace Beagle

namespace Numeral

def value (digits : List Char) : Nat :=
  digits.foldl (fun total digit => 10 * total + (digit.toNat - '0'.toNat)) 0

def unsigned? (chars : List Char) : Option Nat :=
  if !chars.isEmpty && chars.all Char.isDigit then some (value chars) else none

def signed? : List Char → Option Int
  | '-' :: digits => (unsigned? digits).map fun magnitude => -(magnitude : Int)
  | '+' :: digits => (unsigned? digits).map Int.ofNat
  | digits => (unsigned? digits).map Int.ofNat

def maxInt64 : Nat := 9223372036854775807

def maxWord64 : Nat := 18446744073709551615

def int32? (text : String) : Option Int32 := do
  let number ← signed? text.toList
  if -2147483648 ≤ number ∧ number ≤ 2147483647 then some (Int32.ofInt number) else none

def word64? (text : String) : Option Nat := do
  let number ← match text.toList with
    | '+' :: digits => unsigned? digits
    | digits => unsigned? digits
  if number ≤ maxWord64 then some number else none

end Numeral

namespace Gap

def isBlank (char : Char) : Bool :=
  char = ' ' || char = '\t' || char = '\r' || char = '\n'

/-- What surrounds the character being read.  An open block comment remembers how many characters
were read before it. -/
inductive Mode
  | blank
  | lineComment
  | blockComment (opener : Nat)

/-- Where a gap ends: after a number of characters, or nowhere, because the block comment after
`opener` characters is never closed. -/
inductive Reach
  | closed (length : Nat)
  | unclosed (opener : Nat)
deriving DecidableEq

def reachFrom : Mode → Nat → List Char → Reach
  | .blank, count, [] => .closed count
  | .blank, count, '/' :: '/' :: rest => reachFrom .lineComment (count + 2) rest
  | .blank, count, '/' :: '*' :: rest => reachFrom (.blockComment count) (count + 2) rest
  | .blank, count, char :: rest =>
    if isBlank char then reachFrom .blank (count + 1) rest else .closed count
  | .lineComment, count, [] => .closed count
  | .lineComment, count, char :: rest =>
    reachFrom (if char = '\n' then .blank else .lineComment) (count + 1) rest
  | .blockComment opener, _, [] => .unclosed opener
  | .blockComment _, count, '*' :: '/' :: rest => reachFrom .blank (count + 2) rest
  | .blockComment opener, count, _ :: rest => reachFrom (.blockComment opener) (count + 1) rest

def reach (chars : List Char) : Reach :=
  reachFrom .blank 0 chars

end Gap

namespace Quoted

def unescape? : (letter : Char) → Option Char
  | 'n' => some '\n'
  | 't' => some '\t'
  | 'r' => some '\r'
  | '\\' => some '\\'
  | '"' => some '"'
  | '0' => some '\x00'
  | _ => none

/-- How a quoted string ends: closed after `length` characters, the closing quote included; at an
escape that stands for nothing; or at the end of the text, perhaps in the middle of an escape. -/
inductive Ending
  | closed (content : List Char) (length : Nat)
  | unknownEscape (letter : Char) (length : Nat)
  | unclosed
  | cutShort
deriving DecidableEq

def Ending.cons (char : Char) (length : Nat) : Ending → Ending
  | .closed content rest => .closed (char :: content) (length + rest)
  | .unknownEscape letter rest => .unknownEscape letter (length + rest)
  | .unclosed => .unclosed
  | .cutShort => .cutShort

def read : List Char → Ending
  | [] => .unclosed
  | '"' :: _ => .closed [] 1
  | ['\\'] => .cutShort
  | '\\' :: letter :: rest =>
    match unescape? letter with
    | some char => (read rest).cons char 2
    | none => .unknownEscape letter 2
  | char :: rest => (read rest).cons char 1

end Quoted

inductive LexFault
  | strayCharacter (char : Char)
  | unclosedString
  | stringCutShort
  | unknownEscape (letter : Char)
  | integerTooLarge (digits : String)
  | unclosedComment
deriving DecidableEq

def LexFault.message : LexFault → String
  | .strayCharacter char => s!"Unexpected character: '{char}'"
  | .unclosedString => "Unterminated string literal"
  | .stringCutShort => "Unexpected end of file in string literal"
  | .unknownEscape letter => s!"Unknown escape sequence: \\{letter}"
  | .integerTooLarge digits => s!"Invalid integer literal: {digits}"
  | .unclosedComment => "Unterminated block comment"

/-- A lexeme is a token, or a fault that is blamed on the character after `blame` others. -/
inductive Lexeme
  | token (kind : Kind) (text : String) (length : Nat)
  | fault (fault : LexFault) (blame length : Nat)
deriving DecidableEq

namespace Lexeme

def startsWord (char : Char) : Bool :=
  char.isAlpha || char = '_'

def continuesWord (char : Char) : Bool :=
  char.isAlphanum || char = '_'

def string (rest : List Char) : Lexeme :=
  match Quoted.read rest with
  | .closed content length => .token .string (String.ofList content) (length + 1)
  | .unknownEscape letter length => .fault (.unknownEscape letter) (length + 1) (length + 1)
  | .unclosed => .fault .unclosedString 0 (rest.length + 1)
  | .cutShort => .fault .stringCutShort (rest.length + 1) (rest.length + 1)

def integer (chars : List Char) : Lexeme :=
  let digits := chars.takeWhile Char.isDigit
  if Numeral.value digits ≤ Numeral.maxInt64 then
    .token .integer (String.ofList digits) digits.length
  else .fault (.integerTooLarge (String.ofList digits)) 0 digits.length

def word (chars : List Char) : Lexeme :=
  let letters := chars.takeWhile continuesWord
  let text := String.ofList letters
  .token ((Kind.ofWord? text).getD .identifier) text letters.length

def read? : List Char → Option Lexeme
  | [] => none
  | char :: rest => some <|
    if char = '"' then string rest
    else if char.isDigit then integer (char :: rest)
    else if startsWord char then word (char :: rest)
    else match Mark.ofChar? char with
      | some mark => .token (.mark mark) mark.spelling 1
      | none => .fault (.strayCharacter char) 0 1

def length : Lexeme → Nat
  | .token _ _ length => length
  | .fault _ _ length => length

theorem startsWord_continuesWord {char : Char} (starts : startsWord char = true) :
    continuesWord char = true := by
  simp only [startsWord, continuesWord, Char.isAlphanum, Bool.or_eq_true] at *
  rcases starts with starts | starts
  · exact .inl (.inl starts)
  · exact .inr starts

theorem read?_length_pos {chars : List Char} {lexeme : Lexeme} (found : read? chars = some lexeme) :
    0 < lexeme.length := by
  cases chars with
  | nil => simp [read?] at found
  | cons char rest =>
      simp only [read?, Option.some.injEq] at found
      subst found
      split
      · unfold string
        split <;> simp [length]
      · split
        · rename_i digit
          simp only [integer, List.takeWhile_cons, digit, if_true]
          split <;> simp [length]
        · split
          · rename_i starts
            simp [word, length, startsWord_continuesWord starts]
          · split <;> simp [length]

end Lexeme

end Beagle
