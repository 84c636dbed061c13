import Beagle.Proofs.Identifiers
import Beagle.Proofs.LazyScanning
import Mathlib.Data.List.Chain
import Mathlib.Data.Nat.Digits.Defs

/-!
Scanning undoes rendering.  However the tokens of a list are written, and whatever blanks and comments
stand around them, scanning gives them back, as long as something is between two lexemes that would
otherwise be read as one.
-/

namespace Beagle

namespace Gap

inductive Fills : List Char → Prop
  | nil : Fills []
  | blank {char : Char} {gap : List Char} :
      char ∈ [' ', '\t', '\r', '\n'] → Fills gap → Fills (char :: gap)
  | line {body gap : List Char} :
      '\n' ∉ body → Fills gap → Fills ('/' :: '/' :: (body ++ '\n' :: gap))
  | block {body gap : List Char} :
      ¬['*', '/'] <:+: body → Fills gap → Fills ('/' :: '*' :: (body ++ '*' :: '/' :: gap))

def Ends (rest : List Char) : Prop :=
  ∀ char ∈ rest.head?, isBlank char = false ∧ char ≠ '/'

variable {gap rest body : List Char} {char : Char}

theorem isBlank_of_mem (blank : char ∈ [' ', '\t', '\r', '\n']) : isBlank char ∧ char ≠ '/' := by
  simp only [List.mem_cons, List.not_mem_nil, or_false] at blank
  rcases blank with rfl | rfl | rfl | rfl <;> decide

theorem not_isBlank_of {keep : Char → Bool} (kept : keep char)
    (never : [' ', '\t', '\r', '\n'].any keep = false) : isBlank char = false := by
  rw [Bool.eq_false_iff]
  intro blank
  have listed : char ∈ [' ', '\t', '\r', '\n'] := by simpa [isBlank, or_assoc] using blank
  exact List.any_eq_false.mp never char listed kept

theorem reachFrom_blank_cons (other : char ≠ '/') (count : Nat) (rest : List Char) :
    reachFrom .blank count (char :: rest) =
      if isBlank char then reachFrom .blank (count + 1) rest else .closed count := by
  simp [reachFrom, other]

theorem reachFrom_line (noFeed : '\n' ∉ body) (count : Nat) (rest : List Char) :
    reachFrom .lineComment count (body ++ '\n' :: rest) =
      reachFrom .blank (count + body.length + 1) rest := by
  induction body generalizing count with
  | nil => simp [reachFrom]
  | cons char body ih =>
      simp only [List.mem_cons, not_or] at noFeed
      rw [List.cons_append, reachFrom, if_neg (Ne.symm noFeed.1), ih noFeed.2, List.length_cons]
      congr 1
      omega

theorem reachFrom_block (unclosed : ¬['*', '/'] <:+: body) (opener count : Nat) (rest : List Char) :
    reachFrom (.blockComment opener) count (body ++ '*' :: '/' :: rest) =
      reachFrom .blank (count + body.length + 2) rest := by
  induction body generalizing count with
  | nil => simp [reachFrom]
  | cons char body ih =>
      have later : ¬['*', '/'] <:+: body := fun closed => unclosed (List.infix_cons closed)
      -- The comment cannot be closed here: a star and a slash would both be in the body.
      have goesOn : ∀ others, char = '*' → body ++ '*' :: '/' :: rest = '/' :: others → False := by
        rintro others rfl same
        cases body with
        | nil => simp at same
        | cons next body =>
            obtain rfl : next = '/' := (List.cons.inj same).1
            exact unclosed ⟨[], body, rfl⟩
      rw [List.cons_append, reachFrom.eq_9 _ _ _ _ goesOn, ih later, List.length_cons]
      congr 1
      omega

theorem reachFrom_of_fills (fills : Fills gap) (ends : Ends rest) (count : Nat) :
    reachFrom .blank count (gap ++ rest) = .closed (count + gap.length) := by
  induction fills generalizing count with
  | nil =>
      cases rest with
      | nil => rfl
      | cons char rest =>
          obtain ⟨notBlank, other⟩ := ends char rfl
          rw [List.nil_append, reachFrom_blank_cons other, notBlank]
          rfl
  | blank blank _ ih =>
      obtain ⟨isBlank, other⟩ := isBlank_of_mem blank
      rw [List.cons_append, reachFrom_blank_cons other, if_pos isBlank, ih, List.length_cons]
      congr 1
      omega
  | line noFeed _ ih =>
      simp only [List.cons_append, List.append_assoc]
      rw [reachFrom, reachFrom_line noFeed, ih]
      simp only [List.length_cons, List.length_append]
      congr 1
      omega
  | block unclosed _ ih =>
      simp only [List.cons_append, List.append_assoc]
      rw [reachFrom, reachFrom_block unclosed, ih]
      simp only [List.length_cons, List.length_append]
      congr 1
      omega

end Gap

namespace Quoted

def spellings : Char → List (List Char)
  | '"' => [['\\', '"']]
  | '\\' => [['\\', '\\']]
  | '\n' => [['\n'], ['\\', 'n']]
  | '\t' => [['\t'], ['\\', 't']]
  | '\r' => [['\r'], ['\\', 'r']]
  | '\x00' => [['\x00'], ['\\', '0']]
  | char => [[char]]

inductive Spells : List Char → List Char → Prop
  | nil : Spells [] []
  | cons {char : Char} {part content body : List Char} :
      part ∈ spellings char → Spells content body → Spells (char :: content) (part ++ body)

theorem plain_or_escape {char : Char} {part : List Char} (spells : part ∈ spellings char) :
    (part = [char] ∧ char ≠ '"' ∧ char ≠ '\\') ∨
      ∃ letter, part = ['\\', letter] ∧ unescape? letter = some char := by
  unfold spellings at spells
  split at spells
  case h_7 notQuote notSlash _ _ _ _ => exact .inl ⟨List.mem_singleton.mp spells, notQuote, notSlash⟩
  case h_1 => exact .inr ⟨_, List.mem_singleton.mp spells, rfl⟩
  case h_2 => exact .inr ⟨_, List.mem_singleton.mp spells, rfl⟩
  all_goals
    rcases List.mem_pair.mp spells with rfl | rfl
    · exact .inl ⟨rfl, by decide, by decide⟩
    · exact .inr ⟨_, rfl, rfl⟩

theorem read_spelling_append {char : Char} {part : List Char} (spells : part ∈ spellings char)
    (rest : List Char) : read (part ++ rest) = (read rest).cons char part.length := by
  rcases plain_or_escape spells with ⟨rfl, notQuote, notSlash⟩ | ⟨letter, rfl, stands⟩
  · simp [read, notSlash]
  · simp [read, stands]

theorem read_of_spells {content body : List Char} (spells : Spells content body) (rest : List Char) :
    read (body ++ '"' :: rest) = .closed content (body.length + 1) := by
  induction spells with
  | nil => rfl
  | cons isSpelling _ ih =>
      rw [List.append_assoc, read_spelling_append isSpelling, ih, Ending.cons, List.length_append,
        Nat.add_assoc]

end Quoted

theorem Numeral.value_eq_ofDigits (digits : List Char) : value digits =
    Nat.ofDigits 10 (digits.reverse.map fun digit => digit.toNat - '0'.toNat) := by
  rw [Nat.ofDigits_eq_foldr, List.map_reverse, List.foldr_reverse, List.foldl_map, value]
  simp [Nat.add_comm]

def Kind.isWord : Kind → Bool
  | .keyword _ | .modifier _ | .identifier => true
  | _ => false

/-- Lexemes of these kinds cannot be told apart if nothing stands between them. -/
def Kind.joins (first second : Kind) : Bool :=
  (first.isWord && (second.isWord || second = .integer)) || (first = .integer && second = .integer)

namespace Lexeme

inductive Renders : Kind → String → List Char → Prop
  | keyword (word : Keyword) : Renders (.keyword word) word.spelling word.spelling.toList
  | modifier (word : Modifier) : Renders (.modifier word) word.spelling word.spelling.toList
  | mark (sign : Mark) : Renders (.mark sign) sign.spelling [sign.char]
  | identifier {first : Char} {others : List Char} :
      (first.isAlpha ∨ first = '_') → (∀ char ∈ others, char.isAlphanum ∨ char = '_') →
      (∀ kind ∈ Kind.reserved, kind.spelling ≠ String.ofList (first :: others)) →
      Renders .identifier (String.ofList (first :: others)) (first :: others)
  | integer {digits : List Char} :
      digits ≠ [] → (∀ digit ∈ digits, digit.isDigit) →
      Nat.ofDigits 10 (digits.reverse.map fun digit => digit.toNat - '0'.toNat) < 2 ^ 63 →
      Renders .integer (String.ofList digits) digits
  | string {content body : List Char} :
      Quoted.Spells content body → Renders .string (String.ofList content) ('"' :: (body ++ ['"']))

variable {kind : Kind} {text : String} {lexeme rest : List Char}

theorem Renders.word (renders : Renders kind text lexeme) (isWord : kind.isWord) :
    lexeme = text.toList ∧ IsWord text ∧ (Kind.ofWord? text).getD .identifier = kind := by
  cases renders with
  | keyword word => exact ⟨rfl, by cases word <;> decide, by cases word <;> decide⟩
  | modifier word => exact ⟨rfl, by cases word <;> decide, by cases word <;> decide⟩
  | @identifier first others starts continues free =>
      refine ⟨by simp, ⟨first, others, by simp, ?_, ?_⟩, ?_⟩
      · simpa [startsWord] using starts
      · simpa [continuesWord] using continues
      · have unknown : Kind.ofWord? (String.ofList (first :: others)) = none := by
          simpa [Kind.ofWord?] using free
        rw [unknown]
        rfl
  | mark sign => simp [Kind.isWord] at isWord
  | integer => simp [Kind.isWord] at isWord
  | string => simp [Kind.isWord] at isWord

def goesOn (kind : Kind) (char : Char) : Bool :=
  (kind.isWord && continuesWord char) || (kind = .integer && char.isDigit)

theorem takeWhile_append_of_head? {keep : Char → Bool} {chars rest : List Char}
    (kept : ∀ char ∈ chars, keep char) (stops : ∀ char ∈ rest.head?, keep char = false) :
    (chars ++ rest).takeWhile keep = chars := by
  rw [List.takeWhile_append_of_pos kept]
  cases rest with
  | nil => simp
  | cons char rest => simp [stops char rfl]

theorem not_isDigit_of_startsWord {char : Char} (starts : startsWord char) : char.isDigit = false := by
  simp only [startsWord, Bool.or_eq_true, decide_eq_true_eq] at starts
  rcases starts with letter | rfl
  · have above : '9'.toNat < char.toNat := by
      rcases Bool.or_eq_true_iff.mp letter with upper | lower
      · have first := UInt32.le_iff_toNat_le.mp (of_decide_eq_true upper).1
        exact Nat.lt_of_lt_of_le (by decide) first
      · have first := UInt32.le_iff_toNat_le.mp (of_decide_eq_true (Bool.and_eq_true_iff.mp lower).1)
        exact Nat.lt_of_lt_of_le (by decide) first
    rw [Bool.eq_false_iff]
    intro digit
    have below := (Char.isDigit_iff_toNat.mp digit).2
    omega
  · rfl

theorem startsWord_ne {char other : Char} (starts : startsWord char) (never : startsWord other = false) :
    char ≠ other := by
  rintro rfl
  simp [never] at starts

theorem read?_of_digits {digits : List Char} (nonempty : digits ≠ [])
    (areDigits : ∀ digit ∈ digits, digit.isDigit) (stops : ∀ char ∈ rest.head?, char.isDigit = false) :
    read? (digits ++ rest) = some (if Numeral.value digits ≤ Numeral.maxInt64
      then .token .integer (String.ofList digits) digits.length
      else .fault (.integerTooLarge (String.ofList digits)) 0 digits.length) := by
  have isRead : read? (digits ++ rest) = some (integer (digits ++ rest)) := by
    obtain ⟨first, others, rfl⟩ := List.exists_cons_of_ne_nil nonempty
    have digit := areDigits first List.mem_cons_self
    have notQuote : first ≠ '"' := by
      rintro rfl
      simp at digit
    rw [List.cons_append, read?, if_neg notQuote, if_pos digit]
  rw [isRead, integer, takeWhile_append_of_head? areDigits stops]

theorem read?_of_renders (renders : Renders kind text lexeme)
    (stops : ∀ char ∈ rest.head?, goesOn kind char = false) :
    read? (lexeme ++ rest) = some (.token kind text lexeme.length) := by
  by_cases isWord : kind.isWord
  · obtain ⟨rfl, proper, ofWord⟩ := renders.word isWord
    have whole : (text.toList ++ rest).takeWhile continuesWord = text.toList := by
      refine takeWhile_append_of_head? proper.continues fun char next => ?_
      have stopped := stops char next
      simp only [goesOn, isWord, Bool.true_and, Bool.or_eq_false_iff] at stopped
      exact stopped.1
    obtain ⟨first, others, letters, starts, _⟩ := proper
    have isRead : read? (text.toList ++ rest) = some (word (text.toList ++ rest)) := by
      rw [letters, List.cons_append, read?, if_neg (startsWord_ne starts rfl),
        if_neg (by simp [not_isDigit_of_startsWord starts]), if_pos starts]
    rw [isRead, word, whole, String.ofList_toList, ofWord]
  cases renders with
  | keyword => simp [Kind.isWord] at isWord
  | modifier => simp [Kind.isWord] at isWord
  | identifier => simp [Kind.isWord] at isWord
  | mark sign => cases sign <;> rfl
  | @integer _ nonempty areDigits bounded =>
      have small : Numeral.value lexeme ≤ Numeral.maxInt64 := by
        rw [Numeral.value_eq_ofDigits, Numeral.maxInt64]
        omega
      rw [read?_of_digits nonempty areDigits, if_pos small]
      exact fun char next => by simpa [goesOn, Kind.isWord] using stops char next
  | @string content body spells =>
      have closed := Quoted.read_of_spells spells rest
      simp only [List.cons_append, List.append_assoc, List.nil_append]
      rw [read?, if_pos rfl, string, closed]
      simp

theorem Renders.kind_ne_fileEnd (renders : Renders kind text lexeme) : kind ≠ .fileEnd := by
  cases renders <;> simp

structure Opens (kind : Kind) (first : Char) : Prop where
  notBlank : Gap.isBlank first = false
  notSlash : first ≠ '/'
  letter : continuesWord first → kind.isWord ∨ kind = .integer
  digit : first.isDigit → kind = .integer

theorem opens_of_isDigit {first : Char} (digit : first.isDigit) : Opens .integer first := by
  refine ⟨Gap.not_isBlank_of digit rfl, ?_, fun _ => .inr rfl, fun _ => rfl⟩
  rintro rfl
  simp at digit

theorem Renders.opens (renders : Renders kind text lexeme) :
    ∃ first others, lexeme = first :: others ∧ Opens kind first := by
  by_cases isWord : kind.isWord
  · obtain ⟨rfl, ⟨first, others, letters, starts, _⟩, _⟩ := renders.word isWord
    refine ⟨first, others, letters, ?_, startsWord_ne starts rfl, fun _ => .inl isWord, ?_⟩
    · exact Gap.not_isBlank_of starts rfl
    · simp [not_isDigit_of_startsWord starts]
  cases renders with
  | keyword => simp [Kind.isWord] at isWord
  | modifier => simp [Kind.isWord] at isWord
  | identifier => simp [Kind.isWord] at isWord
  | mark sign => cases sign <;> exact ⟨_, _, rfl, rfl, by decide, by decide, by decide⟩
  | @integer _ nonempty areDigits _ =>
      obtain ⟨first, others, rfl⟩ := List.exists_cons_of_ne_nil nonempty
      exact ⟨first, others, rfl, opens_of_isDigit (areDigits first List.mem_cons_self)⟩
  | string => exact ⟨_, _, rfl, rfl, by decide, by decide, by decide⟩

theorem Opens.goesOn {before : Kind} {first : Char} (opens : Opens kind first)
    (apart : before.joins kind = false) : goesOn before first = false := by
  rw [Bool.eq_false_iff]
  intro on
  simp only [Lexeme.goesOn, Bool.or_eq_true, Bool.and_eq_true, decide_eq_true_eq] at on
  rcases on with ⟨isWord, letter⟩ | ⟨isInteger, digit⟩
  · rcases opens.letter letter with second | second <;> simp [Kind.joins, isWord, second] at apart
  · simp [Kind.joins, isInteger, opens.digit digit] at apart

end Lexeme

theorem Gap.Fills.goesOn {gap : List Char} (fills : Fills gap) (kind : Kind) :
    ∀ char ∈ gap.head?, Lexeme.goesOn kind char = false := by
  have silent {char : Char} (letter : Lexeme.continuesWord char = false) (digit : char.isDigit = false) :
      Lexeme.goesOn kind char = false := by
    simp [Lexeme.goesOn, letter, digit]
  cases fills with
  | nil => simp
  | @blank first gap isBlank _ =>
      rintro char ⟨⟩
      simp only [List.mem_cons, List.not_mem_nil, or_false] at isBlank
      rcases isBlank with rfl | rfl | rfl | rfl <;> exact silent rfl rfl
  | line =>
      rintro char ⟨⟩
      exact silent rfl rfl
  | block =>
      rintro char ⟨⟩
      exact silent rfl rfl

structure Piece where
  gap : List Char
  lexeme : List Char
  kind : Kind
  text : String
  fills : Gap.Fills gap
  renders : Lexeme.Renders kind text lexeme

namespace Piece

def chars (piece : Piece) : List Char :=
  piece.gap ++ piece.lexeme

def Apart (first second : Piece) : Prop :=
  first.kind.joins second.kind → second.gap ≠ []

def layout (pieces : List Piece) (last : List Char) : List Char :=
  pieces.flatMap chars ++ last

theorem ends_lexeme_append (piece : Piece) (rest : List Char) : Gap.Ends (piece.lexeme ++ rest) := by
  obtain ⟨first, others, lexeme, opens⟩ := piece.renders.opens
  rw [lexeme]
  rintro char ⟨⟩
  exact ⟨opens.notBlank, opens.notSlash⟩

theorem goesOn_layout {first : Piece} {others : List Piece} {last : List Char}
    (apart : (first :: others).IsChain Apart) (ends : Gap.Fills last) :
    ∀ char ∈ (layout others last).head?, Lexeme.goesOn first.kind char = false := by
  cases others with
  | nil => exact ends.goesOn first.kind
  | cons second others =>
      have joined : first.Apart second := apart.rel
      have behind : layout (second :: others) last =
          second.gap ++ (second.lexeme ++ layout others last) := by simp [layout, chars]
      rw [behind]
      cases gap : second.gap with
      | cons char rest =>
          rintro _ ⟨⟩
          exact second.fills.goesOn first.kind char (by simp [gap])
      | nil =>
          have told : first.kind.joins second.kind = false := by
            rw [Bool.eq_false_iff]
            exact fun joins => joined joins gap
          obtain ⟨char, rest, lexeme, opens⟩ := second.renders.opens
          rw [lexeme]
          rintro _ ⟨⟩
          exact opens.goesOn told

end Piece

namespace SourceText

variable {source : SourceText} {rest : List Char}

theorem scan_of_fills (fills : Gap.Fills source.rest) : ∃ after,
    source.scan = (.ok (.symbol .fileEnd (source.position.advance source.rest)), after) := by
  have reached : Gap.reach source.rest = .closed source.rest.length := by
    have whole := Gap.reachFrom_of_fills fills (by simp [Gap.Ends] : Gap.Ends []) 0
    simpa [Gap.reach] using whole
  have skipped : source.skip source.rest.length =
      ⟨source.file, [], source.position.advance source.rest, source.closed⟩ := by
    simp [skip]
  simp only [scan, reached, skipped]
  exact ⟨_, rfl⟩

theorem scan_of_piece {piece : Piece} (split : source.rest = piece.chars ++ rest)
    (stops : ∀ char ∈ rest.head?, Lexeme.goesOn piece.kind char = false) :
    source.scan = (.ok ⟨piece.kind, piece.text, source.position.advance piece.gap⟩,
      ⟨source.file, rest, source.position.advance piece.chars, source.closed⟩) := by
  rw [Piece.chars, List.append_assoc] at split
  have reached : Gap.reach source.rest = .closed piece.gap.length := by
    have whole := Gap.reachFrom_of_fills piece.fills (piece.ends_lexeme_append rest) 0
    simpa [Gap.reach, split] using whole
  have skipped : source.skip piece.gap.length =
      ⟨source.file, piece.lexeme ++ rest, source.position.advance piece.gap, source.closed⟩ := by
    simp [skip, split]
  have skippedAll : SourceText.skip ⟨source.file, piece.lexeme ++ rest,
      source.position.advance piece.gap, source.closed⟩ piece.lexeme.length =
      ⟨source.file, rest, source.position.advance piece.chars, source.closed⟩ := by
    simp [skip, Piece.chars, Position.advance_append]
  have read := Lexeme.read?_of_renders piece.renders stops
  simp only [scan, reached, skipped, read, skippedAll]

theorem scan_of_fault {gap : List Char} {fault : LexFault} {blame length : Nat}
    (split : source.rest = gap ++ rest) (fills : Gap.Fills gap) (ends : Gap.Ends rest)
    (read : Lexeme.read? rest = some (.fault fault blame length)) :
    ∃ after, source.scan =
      (.error ⟨fault, source.position.advance (gap ++ rest.take blame)⟩, after) := by
  have reached : Gap.reach source.rest = .closed gap.length := by
    have whole := Gap.reachFrom_of_fills fills ends 0
    simpa [Gap.reach, split] using whole
  have skipped : source.skip gap.length =
      ⟨source.file, rest, source.position.advance gap, source.closed⟩ := by
    simp [skip, split]
  simp only [scan, reached, skipped, read, Position.advance_append]
  exact ⟨_, rfl⟩

theorem tokens_of_layout {pieces : List Piece} {last : List Char} (apart : pieces.IsChain Piece.Apart)
    (ends : Gap.Fills last) (laid : source.rest = Piece.layout pieces last) :
    ∃ tokens, source.tokens.1 =
        .ok (tokens ++ [.symbol .fileEnd (source.position.advance source.rest)]) ∧
      tokens.map (fun token => (token.kind, token.text)) =
        pieces.map fun piece => (piece.kind, piece.text) := by
  induction pieces generalizing source with
  | nil =>
      have fills : Gap.Fills source.rest := laid ▸ ends
      obtain ⟨after, scanned⟩ := scan_of_fills fills
      refine ⟨[], ?_, rfl⟩
      rw [tokens_of_last scanned rfl]
      rfl
  | cons piece pieces ih =>
      have split : source.rest = piece.chars ++ Piece.layout pieces last := by
        simp [laid, Piece.layout]
      have scanned := scan_of_piece split (Piece.goesOn_layout apart ends)
      have left : (SourceText.mk source.file (Piece.layout pieces last)
          (source.position.advance piece.chars) source.closed).rest = Piece.layout pieces last := rfl
      obtain ⟨tokens, others, same⟩ := ih apart.tail left
      refine ⟨⟨piece.kind, piece.text, source.position.advance piece.gap⟩ :: tokens, ?_, ?_⟩
      · rw [tokens_of_more scanned piece.renders.kind_ne_fileEnd, others, split,
          Position.advance_append]
        rfl
      · rw [List.map_cons, same]
        rfl

end SourceText

/-- Scanning undoes rendering: however tokens are written and whatever gaps are put around them, their
kinds and texts are scanned again in order, and then the end of file. -/
theorem scan_rendered (file : String) (pieces : List Piece) (last : List Char)
    (apart : pieces.IsChain Piece.Apart) (ends : Gap.Fills last) :
    ∃ tokens, (SourceText.ofString file (String.ofList (Piece.layout pieces last))).tokens.1 =
        .ok (tokens ++ [.symbol .fileEnd (.behind (Piece.layout pieces last))]) ∧
      tokens.map (fun token => (token.kind, token.text)) =
        pieces.map fun piece => (piece.kind, piece.text) := by
  have laid : (SourceText.ofString file (String.ofList (Piece.layout pieces last))).rest =
      Piece.layout pieces last := by simp [SourceText.ofString]
  have scanned := SourceText.tokens_of_layout apart ends laid
  rw [laid] at scanned
  rwa [← Position.start_advance]

theorem spells_quote_feed : Quoted.Spells ['"', '\n'] ['\\', '"', '\n'] := by
  have feed : ['\n'] ∈ Quoted.spellings '\n' := by decide
  have quote : ['\\', '"'] ∈ Quoted.spellings '"' := by decide
  exact .cons quote (.cons feed .nil)

def writtenPieces : List Piece :=
  [⟨[], _, _, _, .nil, .keyword .classWord⟩,
    ⟨['/', '*', '*', '/'], ['A'], .identifier, "A", @Gap.Fills.block [] [] (by simp) .nil,
      .identifier (.inl rfl) (by simp) (by decide)⟩,
    ⟨[], _, .string, _, .nil, .string spells_quote_feed⟩,
    ⟨[' '], ['1', '2'], .integer, _, .blank (by decide) .nil,
      .integer (by simp) (by simp) (by decide)⟩,
    ⟨[], ['b'], .identifier, _, .nil, .identifier (.inl rfl) (by simp) (by decide)⟩]

theorem scan_rendered_example : ∃ tokens,
    (SourceText.ofString "a.bgl" "class/**/A\"\\\"\n\" 12b//\n").tokens.1 =
      .ok (tokens ++ [.symbol .fileEnd ⟨3, 1⟩]) ∧
    tokens.map (fun token => (token.kind, token.text)) = [(.keyword .classWord, "class"),
      (.identifier, "A"), (.string, "\"\n"), (.integer, "12"), (.identifier, "b")] := by
  have apart : writtenPieces.IsChain Piece.Apart := by
    simp [writtenPieces, Piece.Apart, Kind.joins, Kind.isWord]
  have ends : Gap.Fills ['/', '/', '\n'] := @Gap.Fills.line [] [] List.not_mem_nil .nil
  exact scan_rendered "a.bgl" writtenPieces ['/', '/', '\n'] apart ends

end Beagle
