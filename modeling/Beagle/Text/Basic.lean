import Beagle.Text.Tables

/-!
Texts.  A text is cut at a mark, or into lines, and the stem of a path is its last part without the
extension.  Between double quotes every character can be seen.  Written as bytes, printable ASCII stands
for itself, and every other byte, a quote and a backslash are written as a backslash and two hexadecimal
digits.
-/

namespace Beagle.Text

def pieces (mark : Char) : List Char → List (List Char)
  | [] => [[]]
  | char :: rest =>
    if char = mark then [] :: pieces mark rest
    else match pieces mark rest with
      | [] => [[char]]
      | piece :: others => (char :: piece) :: others

def dropReturn (line : List Char) : List Char :=
  if line.getLast? = some '\r' then line.dropLast else line

/-- The lines of a text.  A line feed ends a line, together with a carriage return before it; what
follows the last line feed is a line only if it is not empty. -/
def lines (text : String) : List String :=
  let parts := pieces '\n' text.toList
  let ended := parts.dropLast.map dropReturn
  let unended := parts.getLast?.toList.filter fun part => !part.isEmpty
  (ended ++ unended).map String.ofList

def pathParts (path : String) : List (List Char) :=
  match pieces '/' path.toList with
  | [] => []
  | first :: others =>
    [first].filter (fun part => !part.isEmpty) ++
      others.filter fun part => !part.isEmpty && part ≠ ['.']

def dropExtension (part : List Char) : List Char :=
  match part.reverse.dropWhile (· ≠ '.') with
  | [] | [_] => part
  | _ :: stem => stem.reverse

def fileStem? (path : String) : Option String :=
  match (pathParts path).getLast? with
  | some part =>
    if part = ['.'] || part = ['.', '.'] then none else some (String.ofList (dropExtension part))
  | none => none

def hexadecimal (number : Nat) : String :=
  String.ofList (Nat.toDigits 16 number)

def isFiller (char : Char) : Bool :=
  char = '\u115f' || char = '\u1160' || char = '\u3164' || char = '\uffa0'

/-- The halfwidth katakana sound marks: they extend the character before them, and are still letters with
a place of their own. -/
def isSoundMark (char : Char) : Bool :=
  char = '\uff9e' || char = '\uff9f'

def isVisible (char : Char) : Bool :=
  !isUnprintable char && !isFiller char && (!extendsGrapheme char || isSoundMark char)

def quoteChar (char : Char) : String :=
  match char with
  | '"' => "\\\""
  | '\\' => "\\\\"
  | '\n' => "\\n"
  | '\r' => "\\r"
  | '\t' => "\\t"
  | '\x00' => "\\0"
  | _ =>
    if isVisible char then String.singleton char
    else "\\u\x7b" ++ hexadecimal char.toNat ++ "\x7d"

def quote (text : String) : String :=
  "\"" ++ String.join (text.toList.map quoteChar) ++ "\""

def standsForItself (byte : UInt8) : Bool :=
  0x20 ≤ byte && byte < 0x7f && byte ≠ 0x22 && byte ≠ 0x5c

def hexDigit (value : Nat) : Char :=
  (Nat.digitChar value).toUpper

def escapeByte (byte : UInt8) : List Char :=
  if standsForItself byte then [Char.ofNat byte.toNat]
  else ['\\', hexDigit (byte.toNat / 16), hexDigit (byte.toNat % 16)]

def bytes (text : String) : List UInt8 :=
  text.toUTF8.data.toList

def escapeBytes (text : String) : String :=
  String.ofList ((bytes text).flatMap escapeByte)

end Beagle.Text
