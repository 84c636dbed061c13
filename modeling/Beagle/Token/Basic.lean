/-!
Tokens: a kind, the text it was written with, and where it starts.  Every kind has a spelling, which is
also what a diagnostic calls it.  Lines and columns count from one, a column counts characters, and only
a line feed starts a new line.
-/

namespace Beagle

structure Position where
  line : Nat
  column : Nat
deriving DecidableEq

namespace Position

def start : Position := ⟨1, 1⟩

def next (position : Position) (char : Char) : Position :=
  if char = '\n' then ⟨position.line + 1, 1⟩ else ⟨position.line, position.column + 1⟩

def advance (position : Position) (chars : List Char) : Position :=
  chars.foldl next position

def text (position : Position) : String :=
  s!"{position.line}:{position.column}"

@[simp] theorem advance_nil (position : Position) : position.advance [] = position := rfl

@[simp] theorem advance_cons (position : Position) (char : Char) (rest : List Char) :
    position.advance (char :: rest) = (position.next char).advance rest := rfl

theorem advance_append (position : Position) (first second : List Char) :
    position.advance (first ++ second) = (position.advance first).advance second := by
  simp [advance]

end Position

inductive Keyword
  | packageWord
  | importWord
  | classWord
  | varWord
  | constWord
  | defWord
  | trueWord
  | falseWord
deriving DecidableEq

inductive Modifier
  | publicAccess
  | protectedAccess
  | privateAccess
  | static
deriving DecidableEq

inductive Mark
  | dot
  | comma
  | colon
  | semicolon
  | leftParen
  | rightParen
  | leftBrace
  | rightBrace
  | assign
  | atSign
  | star
deriving DecidableEq

inductive Kind
  | keyword (word : Keyword)
  | modifier (word : Modifier)
  | mark (sign : Mark)
  | identifier
  | string
  | integer
  | invalid
  | lineEnd
  | fileEnd
deriving DecidableEq

namespace Keyword

def all : List Keyword :=
  [.packageWord, .importWord, .classWord, .varWord, .constWord, .defWord, .trueWord, .falseWord]

def spelling : Keyword → String
  | .packageWord => "package"
  | .importWord => "import"
  | .classWord => "class"
  | .varWord => "var"
  | .constWord => "const"
  | .defWord => "def"
  | .trueWord => "true"
  | .falseWord => "false"

end Keyword

namespace Modifier

def all : List Modifier :=
  [.publicAccess, .protectedAccess, .privateAccess, .static]

def spelling : Modifier → String
  | .publicAccess => "public"
  | .protectedAccess => "protected"
  | .privateAccess => "private"
  | .static => "static"

end Modifier

namespace Mark

def all : List Mark :=
  [.dot, .comma, .colon, .semicolon, .leftParen, .rightParen, .leftBrace, .rightBrace, .assign,
    .atSign, .star]

def char : Mark → Char
  | .dot => '.'
  | .comma => ','
  | .colon => ':'
  | .semicolon => ';'
  | .leftParen => '('
  | .rightParen => ')'
  | .leftBrace => '\x7b'
  | .rightBrace => '\x7d'
  | .assign => '='
  | .atSign => '@'
  | .star => '*'

def spelling (mark : Mark) : String :=
  String.singleton mark.char

def ofChar? (char : Char) : Option Mark :=
  all.find? fun mark => mark.char = char

end Mark

namespace Kind

def spelling : Kind → String
  | .keyword word => word.spelling
  | .modifier word => word.spelling
  | .mark sign => sign.spelling
  | .identifier => "identifier"
  | .string => "string literal"
  | .integer => "integer literal"
  | .invalid => "invalid token"
  | .lineEnd => "end of line"
  | .fileEnd => "end of file"

def carriesText : Kind → Bool
  | .identifier | .string | .integer | .invalid => true
  | _ => false

def reserved : List Kind :=
  Keyword.all.map .keyword ++ Modifier.all.map .modifier

def ofWord? (word : String) : Option Kind :=
  reserved.find? fun kind => kind.spelling = word

end Kind

structure Modifiers where
  isPublic : Bool
  isProtected : Bool
  isPrivate : Bool
  isStatic : Bool
deriving DecidableEq

namespace Modifiers

def empty : Modifiers :=
  ⟨false, false, false, false⟩

def contains (modifiers : Modifiers) : Modifier → Bool
  | .publicAccess => modifiers.isPublic
  | .protectedAccess => modifiers.isProtected
  | .privateAccess => modifiers.isPrivate
  | .static => modifiers.isStatic

def insert (modifiers : Modifiers) : Modifier → Modifiers
  | .publicAccess => { modifiers with isPublic := true }
  | .protectedAccess => { modifiers with isProtected := true }
  | .privateAccess => { modifiers with isPrivate := true }
  | .static => { modifiers with isStatic := true }

def ofList (words : List Modifier) : Modifiers :=
  words.foldl insert empty

end Modifiers

structure Token where
  kind : Kind
  text : String
  position : Position
deriving DecidableEq

namespace Token

def symbol (kind : Kind) (position : Position) : Token :=
  ⟨kind, kind.spelling, position⟩

def display (token : Token) : String :=
  if token.kind.carriesText then token.text else token.kind.spelling

end Token

structure FileEnd where
  text : String
  position : Position
deriving DecidableEq

namespace FileEnd

def token (fileEnd : FileEnd) : Token :=
  ⟨.fileEnd, fileEnd.text, fileEnd.position⟩

def ofPosition (position : Position) : FileEnd :=
  ⟨Kind.fileEnd.spelling, position⟩

@[simp] theorem token_kind (fileEnd : FileEnd) : fileEnd.token.kind = .fileEnd := rfl

end FileEnd

def Token.fileEnd (token : Token) : FileEnd :=
  ⟨token.text, token.position⟩

theorem Token.fileEnd_token {token : Token} (last : token.kind = .fileEnd) :
    token.fileEnd.token = token := by
  cases token
  simp_all [Token.fileEnd, FileEnd.token]

end Beagle
