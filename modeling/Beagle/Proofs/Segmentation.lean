import Beagle.SourceText
import Mathlib.Data.List.Infix
import Mathlib.Data.List.TakeWhile

/-!
Scanning as segmentation.  A text that is scanned without a fault is made of gaps and lexemes in turn;
nothing of it is lost or read twice, and every token stands where its lexeme starts.
-/

namespace Beagle

namespace Gap

/-- A run of blanks and comments in front of `rest`.  A comment to the end of the line takes the line
feed along, or else ends the text; a block comment ends where it is first closed. -/
inductive Spans (rest : List Char) : List Char → Prop
  | nil : Spans rest []
  | blank {char : Char} {gap : List Char} :
      isBlank char → Spans rest gap → Spans rest (char :: gap)
  | line {body gap : List Char} :
      '\n' ∉ body → Spans rest gap → Spans rest ('/' :: '/' :: (body ++ '\n' :: gap))
  | lastLine {body : List Char} :
      '\n' ∉ body → rest = [] → Spans rest ('/' :: '/' :: body)
  | block {body gap : List Char} :
      ¬['*', '/'] <:+: body → Spans rest gap → Spans rest ('/' :: '*' :: (body ++ '*' :: '/' :: gap))

def Mode.opening : Mode → List Char
  | .blank => []
  | .lineComment => ['/', '/']
  | .blockComment _ => ['/', '*']

variable {rest gap : List Char} {char : Char}

theorem Spans.line_cons (more : char ≠ '\n') (spans : Spans rest ('/' :: '/' :: gap)) :
    Spans rest ('/' :: '/' :: char :: gap) := by
  cases spans with
  | blank isBlank _ => simp [Gap.isBlank] at isBlank
  | @line body gap noFeed spans =>
      have longer : '\n' ∉ char :: body := by simp [more.symm, noFeed]
      exact .line longer spans
  | @lastLine body noFeed ended => exact .lastLine (by simp [more.symm, noFeed]) ended

theorem Spans.block_cons (more : char = '*' → gap.head? ≠ some '/')
    (spans : Spans rest ('/' :: '*' :: gap)) : Spans rest ('/' :: '*' :: char :: gap) := by
  cases spans with
  | blank isBlank _ => simp [Gap.isBlank] at isBlank
  | @block body gap unclosed spans =>
      have longer : ¬['*', '/'] <:+: char :: body := by
        intro closed
        rcases List.infix_cons_iff.mp closed with first | later
        · obtain ⟨rfl, next⟩ := List.cons_prefix_cons.mp first
          cases body with
          | nil => simp at next
          | cons second body =>
              obtain ⟨rfl, _⟩ := List.cons_prefix_cons.mp next
              exact more rfl rfl
        · exact unclosed later
      exact .block longer spans

theorem spans_of_reachFrom {mode : Mode} {count length : Nat} {text : List Char}
    (reached : reachFrom mode count text = .closed length) :
    ∃ gap rest, text = gap ++ rest ∧ length = count + gap.length ∧
      Spans rest (mode.opening ++ gap) := by
  fun_induction reachFrom mode count text with
  | case1 count =>
      obtain rfl : count = length := by simpa using reached
      exact ⟨[], [], rfl, rfl, .nil⟩
  | case2 count text ih =>
      obtain ⟨gap, rest, rfl, rfl, spans⟩ := ih reached
      exact ⟨'/' :: '/' :: gap, rest, rfl, by simp only [List.length_cons]; omega, spans⟩
  | case3 count text ih =>
      obtain ⟨gap, rest, rfl, rfl, spans⟩ := ih reached
      exact ⟨'/' :: '*' :: gap, rest, rfl, by simp only [List.length_cons]; omega, spans⟩
  | case4 count char text _ _ blank ih =>
      obtain ⟨gap, rest, rfl, rfl, spans⟩ := ih reached
      exact ⟨char :: gap, rest, rfl, by simp only [List.length_cons]; omega, .blank blank spans⟩
  | case5 count char text _ _ _ =>
      obtain rfl : count = length := by simpa using reached
      exact ⟨[], char :: text, rfl, rfl, .nil⟩
  | case6 count =>
      obtain rfl : count = length := by simpa using reached
      exact ⟨[], [], rfl, rfl, .lastLine (by simp) rfl⟩
  | case7 count char text ih =>
      obtain ⟨gap, rest, rfl, rfl, spans⟩ := ih reached
      refine ⟨char :: gap, rest, rfl, by simp only [List.length_cons]; omega, ?_⟩
      by_cases feed : char = '\n'
      · rw [if_pos feed] at spans
        subst feed
        exact .line List.not_mem_nil spans
      · rw [if_neg feed] at spans
        exact spans.line_cons feed
  | case8 opener count => simp at reached
  | case9 opener count text ih =>
      obtain ⟨gap, rest, rfl, rfl, spans⟩ := ih reached
      refine ⟨'*' :: '/' :: gap, rest, rfl, by simp only [List.length_cons]; omega, ?_⟩
      have unclosed : ¬['*', '/'] <:+: ([] : List Char) := by simp
      exact .block unclosed spans
  | case10 opener count char text unclosed ih =>
      obtain ⟨gap, rest, rfl, rfl, spans⟩ := ih reached
      refine ⟨char :: gap, rest, rfl, by simp only [List.length_cons]; omega, ?_⟩
      refine spans.block_cons ?_
      rintro rfl next
      obtain ⟨others, rfl⟩ := List.head?_eq_some_iff.mp next
      exact unclosed _ rfl rfl

end Gap

namespace Quoted

inductive Means : List Char → List Char → Prop
  | nil : Means [] []
  | plain {char : Char} {body content : List Char} :
      char ≠ '"' → char ≠ '\\' → Means body content → Means (char :: body) (char :: content)
  | escape {letter char : Char} {body content : List Char} :
      unescape? letter = some char → Means body content → Means ('\\' :: letter :: body) (char :: content)

theorem closed_of_cons {char : Char} {taken length : Nat} {content : List Char} {ending : Ending}
    (closed : ending.cons char taken = .closed content length) :
    ∃ others rest, ending = .closed others rest ∧ content = char :: others ∧ length = taken + rest := by
  cases ending <;> simp_all [Ending.cons]

theorem means_of_read {text content : List Char} {length : Nat}
    (found : read text = .closed content length) :
    ∃ body rest, text = body ++ '"' :: rest ∧ length = body.length + 1 ∧ Means body content := by
  fun_induction read text generalizing content length with
  | case1 => simp at found
  | case2 rest =>
      obtain ⟨rfl, rfl⟩ : [] = content ∧ 1 = length := by simpa using found
      exact ⟨[], rest, rfl, rfl, .nil⟩
  | case3 => simp at found
  | case4 letter text char escaped ih =>
      obtain ⟨others, counted, closed, rfl, rfl⟩ := closed_of_cons found
      obtain ⟨body, rest, rfl, rfl, means⟩ := ih closed
      exact ⟨'\\' :: letter :: body, rest, rfl, by simp only [List.length_cons]; omega,
        .escape escaped means⟩
  | case5 => simp at found
  | case6 char text notQuote notLast notEscape ih =>
      have plain : char ≠ '\\' := by
        rintro rfl
        cases text with
        | nil => exact notLast rfl rfl
        | cons letter text => exact notEscape letter text rfl rfl
      obtain ⟨others, counted, closed, rfl, rfl⟩ := closed_of_cons found
      obtain ⟨body, rest, rfl, rfl, means⟩ := ih closed
      exact ⟨char :: body, rest, rfl, by simp only [List.length_cons]; omega,
        .plain notQuote plain means⟩

end Quoted

namespace Lexeme

def IsWordKind (text : String) (kind : Kind) : Prop :=
  (kind ∈ Kind.reserved ∧ kind.spelling = text) ∨
    (kind = .identifier ∧ ∀ other ∈ Kind.reserved, other.spelling ≠ text)

/-- How a token is written in front of `rest`.  Words and integers go on for as long as they can. -/
inductive Writes (rest : List Char) : Kind → String → List Char → Prop
  | word {kind : Kind} {first : Char} {others : List Char} :
      startsWord first → (∀ char ∈ others, continuesWord char) →
      (∀ char ∈ rest.head?, continuesWord char = false) →
      IsWordKind (String.ofList (first :: others)) kind →
      Writes rest kind (String.ofList (first :: others)) (first :: others)
  | integer {digits : List Char} :
      digits ≠ [] → (∀ char ∈ digits, char.isDigit) → (∀ char ∈ rest.head?, char.isDigit = false) →
      Writes rest .integer (String.ofList digits) digits
  | mark {sign : Mark} : Writes rest (.mark sign) (String.ofList [sign.char]) [sign.char]
  | string {body content : List Char} :
      Quoted.Means body content → Writes rest .string (String.ofList content) ('"' :: (body ++ ['"']))

theorem Writes.kind_ne_fileEnd {rest lexeme : List Char} {kind : Kind} {text : String}
    (writes : Writes rest kind text lexeme) : kind ≠ .fileEnd := by
  cases writes with
  | word _ _ _ isKind =>
      rintro rfl
      rcases isKind with ⟨reserved, _⟩ | ⟨absurd, _⟩
      · simp [Kind.reserved] at reserved
      · simp at absurd
  | integer => simp
  | mark => simp
  | string => simp

theorem isWordKind_ofWord (text : String) : IsWordKind text ((Kind.ofWord? text).getD .identifier) := by
  unfold Kind.ofWord?
  cases found : Kind.reserved.find? fun kind => kind.spelling = text with
  | some kind =>
      have spelled := List.find?_some found
      exact .inl ⟨List.mem_of_find?_eq_some found, by simpa using spelled⟩
  | none => exact .inr ⟨rfl, by simpa using found⟩

theorem head?_dropWhile_eq_false (keep : Char → Bool) (chars : List Char) :
    ∀ char ∈ (chars.dropWhile keep).head?, keep char = false := by
  intro char first
  have stops := List.head?_dropWhile_not keep chars
  rw [first] at stops
  simpa using stops

variable {char : Char} {chars : List Char} {kind : Kind} {text : String} {length : Nat}

theorem writes_of_string (found : string chars = .token kind text length) :
    ∃ lexeme rest, '"' :: chars = lexeme ++ rest ∧ length = lexeme.length ∧
      Writes rest kind text lexeme := by
  unfold string at found
  split at found
  · rename_i content count read
    obtain ⟨rfl, rfl, rfl⟩ :
        .string = kind ∧ String.ofList content = text ∧ count + 1 = length := by simpa using found
    obtain ⟨body, rest, rfl, rfl, means⟩ := Quoted.means_of_read read
    exact ⟨'"' :: (body ++ ['"']), rest, by simp, by simp, .string means⟩
  · simp at found
  · simp at found
  · simp at found

theorem writes_of_integer (digit : char.isDigit = true)
    (found : integer (char :: chars) = .token kind text length) :
    ∃ lexeme rest, char :: chars = lexeme ++ rest ∧ length = lexeme.length ∧
      Writes rest kind text lexeme := by
  simp only [integer] at found
  split at found
  · obtain ⟨rfl, rfl, rfl⟩ : .integer = kind ∧ _ = text ∧ _ = length := by simpa using found
    refine ⟨(char :: chars).takeWhile Char.isDigit, (char :: chars).dropWhile Char.isDigit,
      List.takeWhile_append_dropWhile.symm, rfl, .integer ?_ ?_ (head?_dropWhile_eq_false _ _)⟩
    · simp [digit]
    · exact fun other member => List.mem_takeWhile_imp member
  · simp at found

theorem writes_of_word (starts : startsWord char = true)
    (found : word (char :: chars) = .token kind text length) :
    ∃ lexeme rest, char :: chars = lexeme ++ rest ∧ length = lexeme.length ∧
      Writes rest kind text lexeme := by
  have letters : (char :: chars).takeWhile continuesWord = char :: chars.takeWhile continuesWord :=
    List.takeWhile_cons_of_pos (startsWord_continuesWord starts)
  simp only [word, letters, token.injEq] at found
  obtain ⟨rfl, rfl, rfl⟩ := found
  refine ⟨char :: chars.takeWhile continuesWord, chars.dropWhile continuesWord, ?_, rfl,
    .word starts ?_ (head?_dropWhile_eq_false _ _) (isWordKind_ofWord _)⟩
  · rw [List.cons_append, List.takeWhile_append_dropWhile]
  · exact fun other member => List.mem_takeWhile_imp member

theorem writes_of_read (found : read? chars = some (.token kind text length)) :
    ∃ lexeme rest, chars = lexeme ++ rest ∧ length = lexeme.length ∧ Writes rest kind text lexeme := by
  cases chars with
  | nil => simp [read?] at found
  | cons char chars =>
      simp only [read?, Option.some.injEq] at found
      split at found
      · rename_i quote
        subst quote
        exact writes_of_string found
      · split at found
        · rename_i digit
          exact writes_of_integer digit found
        · split at found
          · rename_i starts
            exact writes_of_word starts found
          · split at found
            · rename_i sign isSign
              obtain ⟨rfl, rfl, rfl⟩ : .mark sign = kind ∧ sign.spelling = text ∧ 1 = length := by
                simpa using found
              obtain rfl : sign.char = char := by simpa using List.find?_some isSign
              exact ⟨[sign.char], chars, rfl, rfl, .mark⟩
            · simp at found

end Lexeme

namespace Position

def behind (text : List Char) : Position :=
  ⟨text.count '\n' + 1, (text.reverse.takeWhile (· ≠ '\n')).length + 1⟩

theorem start_advance (text : List Char) : start.advance text = behind text := by
  induction text using List.reverseRecOn with
  | nil => rfl
  | append_singleton text char ih =>
      rw [advance_append, ih, advance_cons, advance_nil, next]
      by_cases feed : char = '\n'
      · simp [behind, feed]
      · simp [behind, feed]

theorem behind_advance (before text : List Char) :
    (behind before).advance text = behind (before ++ text) := by
  rw [← start_advance, ← start_advance, advance_append]

end Position

structure Segment where
  gap : List Char
  lexeme : List Char
  token : Token

namespace Segment

def text (segment : Segment) : List Char :=
  segment.gap ++ segment.lexeme

structure Fits (segment : Segment) (before after : List Char) : Prop where
  gap : Gap.Spans (segment.lexeme ++ after) segment.gap
  lexeme : Lexeme.Writes after segment.token.kind segment.token.text segment.lexeme
  place : segment.token.position = .behind (before ++ segment.gap)

end Segment

namespace SourceText

theorem scan_cases {source after : SourceText} {token : Token}
    (scanned : source.scan = (.ok token, after)) :
    (Gap.Spans [] source.rest ∧ token = .symbol .fileEnd (source.position.advance source.rest)) ∨
    ∃ gap lexeme, source.rest = gap ++ (lexeme ++ after.rest) ∧
      Gap.Spans (lexeme ++ after.rest) gap ∧
      Lexeme.Writes after.rest token.kind token.text lexeme ∧
      token.position = source.position.advance gap ∧
      after.position = source.position.advance (gap ++ lexeme) := by
  unfold scan at scanned
  split at scanned
  · simp at scanned
  · rename_i count reached
    obtain ⟨gap, rest, split, counted, spans⟩ := Gap.spans_of_reachFrom reached
    obtain rfl : count = gap.length := by simpa using counted
    have skipped : source.skip gap.length =
        ⟨source.file, rest, source.position.advance gap, source.closed⟩ := by
      simp [skip, split]
    simp only [skipped] at scanned
    split at scanned
    · rename_i ended
      have empty : rest = [] := by
        cases rest with
        | nil => rfl
        | cons char rest => simp [Lexeme.read?] at ended
      subst empty
      rw [List.append_nil] at split
      simp only [Prod.mk.injEq, Except.ok.injEq] at scanned
      rw [split]
      exact .inl ⟨spans, scanned.1.symm⟩
    · rename_i kind text length found
      obtain ⟨lexeme, left, rfl, rfl, writes⟩ := Lexeme.writes_of_read found
      have skippedAll : SourceText.skip ⟨source.file, lexeme ++ left, source.position.advance gap,
          source.closed⟩ lexeme.length =
          ⟨source.file, left, (source.position.advance gap).advance lexeme, source.closed⟩ := by
        simp [skip]
      simp only [skippedAll, Prod.mk.injEq, Except.ok.injEq] at scanned
      obtain ⟨rfl, rfl⟩ := scanned
      exact .inr ⟨gap, lexeme, split, spans, writes, rfl, (Position.advance_append _ _ _).symm⟩
    · simp at scanned

theorem segments_of_tokens {source : SourceText} {tokens : List Token} {before : List Char}
    (place : source.position = .behind before) (scanned : source.tokens.1 = .ok tokens) :
    ∃ (segments : List Segment) (last : List Char),
      source.rest = segments.flatMap Segment.text ++ last ∧
      tokens = segments.map Segment.token ++ [.symbol .fileEnd (.behind (before ++ source.rest))] ∧
      Gap.Spans [] last ∧
      ∀ front segment back, segments = front ++ segment :: back →
        segment.Fits (before ++ front.flatMap Segment.text) (back.flatMap Segment.text ++ last) := by
  fun_induction SourceText.tokens source generalizing before tokens with
  | case1 source error after scan => simp at scanned
  | case2 source token after scan more _ rest final recursion ih =>
      rcases scan_cases scan with ⟨_, rfl⟩ | ⟨gap, lexeme, split, spans, writes, tokenPlace, afterPlace⟩
      · exact absurd rfl more
      · cases rest with
        | error error => simp [Except.map] at scanned
        | ok others =>
            obtain rfl : token :: others = tokens := by simpa [Except.map] using scanned
            rw [place, Position.behind_advance] at tokenPlace afterPlace
            obtain ⟨segments, last, text, rfl, lastSpans, fits⟩ := ih afterPlace (by rw [recursion])
            refine ⟨⟨gap, lexeme, token⟩ :: segments, last, ?_, ?_, lastSpans, ?_⟩
            · rw [split, text]
              simp [Segment.text]
            · rw [split]
              simp
            · rw [text] at spans writes
              intro front segment back same
              cases front with
              | nil =>
                  obtain ⟨rfl, rfl⟩ := List.cons.inj same
                  exact ⟨spans, writes, by simpa using tokenPlace⟩
              | cons first front =>
                  obtain ⟨rfl, others⟩ := List.cons.inj same
                  simpa [Segment.text] using fits front segment back others
  | case3 source token after scan last =>
      obtain rfl : [token] = tokens := by simpa using scanned
      rcases scan_cases scan with ⟨spans, rfl⟩ | ⟨gap, lexeme, _, _, writes, _, _⟩
      · refine ⟨[], source.rest, rfl, ?_, spans, by simp⟩
        rw [place, Position.behind_advance]
        rfl
      · exact absurd writes.kind_ne_fileEnd last

end SourceText

/-- Scanning loses nothing: the text is made of gaps and lexemes in turn, one lexeme for each token, and
one end of file comes last, at the end of the text. -/
theorem tokens_segment {file text : String} {tokens : List Token}
    (scanned : (SourceText.ofString file text).tokens.1 = .ok tokens) :
    ∃ (segments : List Segment) (last : List Char),
      text.toList = segments.flatMap Segment.text ++ last ∧
      tokens = segments.map Segment.token ++ [.symbol .fileEnd (.behind text.toList)] ∧
      (∀ segment ∈ segments, segment.token.kind ≠ .fileEnd) ∧
      Gap.Spans [] last ∧
      ∀ front segment back, segments = front ++ segment :: back →
        segment.Fits (front.flatMap Segment.text) (back.flatMap Segment.text ++ last) := by
  have start : (SourceText.ofString file text).position = .behind [] := rfl
  obtain ⟨segments, last, whole, same, spans, fits⟩ := SourceText.segments_of_tokens start scanned
  refine ⟨segments, last, whole, same, ?_, spans, fits⟩
  intro segment member
  obtain ⟨front, back, split⟩ := List.append_of_mem member
  exact (fits front segment back split).lexeme.kind_ne_fileEnd

/-- A string right in front of a comment, an integer right behind it, and a comment that ends the
text. -/
theorem tokens_segment_example : ∃ (segments : List Segment) (last : List Char),
    "\"x\\n\"/*/*/1//".toList = segments.flatMap Segment.text ++ last ∧
    segments.map Segment.token = [⟨.string, "x\n", ⟨1, 1⟩⟩, ⟨.integer, "1", ⟨1, 11⟩⟩] ∧
    Gap.Spans [] last := by
  have scanned : (SourceText.ofString "a.bgl" "\"x\\n\"/*/*/1//").tokens.1 =
      .ok [⟨.string, "x\n", ⟨1, 1⟩⟩, ⟨.integer, "1", ⟨1, 11⟩⟩, ⟨.fileEnd, "end of file", ⟨1, 14⟩⟩] := by
    decide +kernel
  obtain ⟨segments, last, whole, same, _, spans, _⟩ := tokens_segment scanned
  refine ⟨segments, last, whole, ?_, spans⟩
  have dropped := congrArg List.dropLast same
  simpa using dropped.symm

end Beagle
