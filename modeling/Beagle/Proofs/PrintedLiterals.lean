import Beagle.Proofs.LiteralTokens
import Beagle.Proofs.Rendering

/-!
Literals survive printing.  The text of a literal value is scanned as one token and read as that value
again, unless it is a negative number or has a character that is printed by its number: scanning knows no
such escape.
-/

namespace Beagle

namespace Text

def Numbered (char : Char) : Prop :=
  quoteChar char = "\\u\x7b" ++ hexadecimal char.toNat ++ "\x7d"

instance : DecidablePred Numbered :=
  fun _ => inferInstanceAs (Decidable (_ = _))

def quoted (chars : List Char) : List Char :=
  chars.flatMap fun char => (quoteChar char).toList

theorem toList_quote (text : String) : (quote text).toList = '"' :: (quoted text.toList ++ ['"']) := by
  simp [quote, quoted, String.toList_join, List.flatMap_map]

theorem Numbered.toList {char : Char} (numbered : Numbered char) :
    ∃ others, (quoteChar char).toList = '\\' :: 'u' :: others := by
  rw [numbered]
  simp

theorem quoteChar_mem_spellings {char : Char} (plain : ¬Numbered char) :
    (quoteChar char).toList ∈ Quoted.spellings char := by
  unfold Numbered quoteChar at plain
  unfold quoteChar
  split at plain
  case h_7 quote slash feed carriage tab zero =>
    split at plain
    · rename_i visible
      rw [if_pos visible]
      unfold Quoted.spellings
      split <;> simp_all
    · exact absurd rfl plain
  all_goals decide

theorem spells_quoted {content : List Char} (plain : ∀ char ∈ content, ¬Numbered char) :
    Quoted.Spells content (quoted content) := by
  induction content with
  | nil => exact .nil
  | cons char content ih =>
      rw [List.forall_mem_cons] at plain
      exact .cons (quoteChar_mem_spellings plain.1) (ih plain.2)

end Text

theorem Quoted.read_of_unknown {content body rest : List Char} (spells : Spells content body)
    {letter : Char} (unknown : unescape? letter = none) :
    read (body ++ '\\' :: letter :: rest) = .unknownEscape letter (body.length + 2) := by
  induction spells with
  | nil => simp [read, unknown]
  | cons isSpelling _ ih =>
      rw [List.append_assoc, read_spelling_append isSpelling, ih, Ending.cons, List.length_append,
        Nat.add_assoc]

namespace LiteralValue

/-- No character of a string is printed by its number, and no number is negative. -/
def Legible : LiteralValue → Prop
  | .bool _ => True
  | .string text => ∀ char ∈ text.toList, ¬Text.Numbered char
  | .integer number => 0 ≤ number

theorem renders_text {value : LiteralValue} (legible : value.Legible) :
    ∃ kind text, Lexeme.Renders kind text value.text.toList ∧
      ∀ position, Grammar.literalValue? ⟨kind, text, position⟩ = some value := by
  cases value with
  | bool truth =>
      cases truth with
      | true => exact ⟨_, _, .keyword .trueWord, fun _ => rfl⟩
      | false => exact ⟨_, _, .keyword .falseWord, fun _ => rfl⟩
  | string text =>
      refine ⟨.string, String.ofList text.toList, ?_, fun _ => ?_⟩
      · rw [LiteralValue.text, Text.toList_quote]
        exact .string (Text.spells_quoted legible)
      · rw [String.ofList_toList]
        rfl
  | integer number =>
      have positive : 0 ≤ number.toInt := Int32.le_iff_toInt_le.mp legible
      have bounded : number.toInt < 2 ^ 31 := number.toInt_lt
      obtain ⟨magnitude, isMagnitude⟩ := Int.eq_ofNat_of_zero_le positive
      let digits := Nat.toDigits 10 magnitude
      have nonempty : digits ≠ [] := Nat.toDigits_ne_nil
      have areDigits : ∀ digit ∈ digits, digit.isDigit :=
        fun digit member => Nat.isDigit_of_mem_toDigits (by decide) (by decide) member
      have worth : Numeral.value digits = magnitude := by
        rw [Numeral.value, ← Nat.ofDigitChars_eq_foldl, Nat.ofDigitChars_ten_toDigits]
      have text : (LiteralValue.integer number).text.toList = digits := by
        simp [LiteralValue.text, isMagnitude, digits, Int.toString_eq_repr, Int.repr_eq_if,
          Nat.repr_eq_ofList_toDigits]
      refine ⟨.integer, String.ofList digits, ?_, fun _ => ?_⟩
      · rw [text]
        refine .integer nonempty areDigits ?_
        rw [← Numeral.value_eq_ofDigits, worth]
        omega
      · have small : magnitude < 2 ^ 31 := by omega
        simp only [Grammar.literalValue?, Numeral.int32?_of_digits nonempty areDigits, worth, small,
          if_true, ← isMagnitude, Int32.ofInt_toInt, Option.map_some]

end LiteralValue

namespace SourceText

theorem tokens_of_renders {file : String} {text : String} {kind : Kind} {chars : String}
    (renders : Lexeme.Renders kind text chars.toList) :
    (ofString file chars).tokens.1 =
      .ok [⟨kind, text, .start⟩, .symbol .fileEnd (.behind chars.toList)] := by
  let piece : Piece := ⟨[], chars.toList, kind, text, .nil, renders⟩
  have split : (ofString file chars).rest = piece.chars ++ [] := by simp [piece, Piece.chars, ofString]
  have scanned := scan_of_piece split (by simp)
  rw [tokens_of_more scanned renders.kind_ne_fileEnd, tokens_of_nil rfl]
  simp [piece, Piece.chars, ofString, Position.start_advance, Except.map]

theorem tokens_of_unknown {file text : String} {content body others : List Char} {letter : Char}
    (spells : Quoted.Spells content body) (unknown : Quoted.unescape? letter = none)
    (printed : text.toList = '"' :: (body ++ '\\' :: letter :: others)) :
    (ofString file text).tokens.1 =
      .error ⟨.unknownEscape letter, .behind ('"' :: (body ++ ['\\', letter]))⟩ := by
  have ends : Gap.Ends text.toList := by
    rw [printed]
    rintro char ⟨⟩
    decide
  have read : Lexeme.read? text.toList =
      some (.fault (.unknownEscape letter) (body.length + 3) (body.length + 3)) := by
    rw [printed, Lexeme.read?, if_pos rfl, Lexeme.string, Quoted.read_of_unknown spells unknown]
  have taken : text.toList.take (body.length + 3) = '"' :: (body ++ ['\\', letter]) := by
    simp [printed, List.take_append]
  have whole : (ofString file text).rest = [] ++ text.toList := rfl
  obtain ⟨after, scanned⟩ := scan_of_fault whole .nil ends read
  rw [tokens_of_fault scanned, List.nil_append, taken, ← Position.start_advance]
  rfl

end SourceText

/-- A legible value is read again from its text, to the end and without a diagnostic.  A string that is
not legible cannot be scanned: the first character that was printed by its number is an unknown escape. -/
theorem printed_literal_reads_back (value : LiteralValue) (file : String) (capacity : Nat)
    (session : Session) :
    let source := SourceText.ofString file value.text
    (value.Legible → ∃ token after,
      source.tokens.1 = .ok [token, .symbol .fileEnd (.behind value.text.toList)] ∧
      Grammar.literal.run (.ofSource source capacity session) =
        (.ok ⟨.fresh session.nextId .start, value⟩, after) ∧
      after.ahead = [] ∧ after.head = .symbol .fileEnd (.behind value.text.toList) ∧
      after.session = { session with nextId := session.nextId + 1 }) ∧
    ∀ text, value = .string text → (∃ char ∈ text.toList, Text.Numbered char) →
      ∃ before char others, text.toList = before ++ char :: others ∧ Text.Numbered char ∧
        (∀ earlier ∈ before, ¬Text.Numbered earlier) ∧
        source.tokens.1 =
          .error ⟨.unknownEscape 'u', .behind ('"' :: (Text.quoted before ++ ['\\', 'u']))⟩ := by
  intro source
  constructor
  · intro legible
    obtain ⟨kind, text, renders, worth⟩ := LiteralValue.renders_text legible
    have scanned : source.tokens.1 = _ := SourceText.tokens_of_renders renders
    have pulled : [⟨kind, text, .start⟩] ++ [.symbol .fileEnd (.behind value.text.toList)] =
        TokenSource.ahead source ++ [(TokenSource.ending source).token] :=
      SourceText.tokens_eq_ahead rfl scanned
    obtain ⟨ahead, ending⟩ := List.append_inj' pulled rfl
    let state := State.ofSource source capacity session
    have stateAhead : state.ahead = [⟨kind, text, .start⟩] := (State.ahead_ofSource ..).trans ahead.symm
    have head : state.head = ⟨kind, text, .start⟩ := State.head_of_ahead stateAhead
    obtain ⟨_, after, ran, rfl, left, still, told⟩ := Grammar.yields_literal (head ▸ worth .start)
    rw [head] at ran told
    rw [stateAhead, List.drop_one] at left
    refine ⟨_, after, scanned, ran, left, ?_, told⟩
    have last : after.ending = TokenSource.ending source := still.trans (Window.ending_ofSource ..)
    rw [State.head, left, last]
    exact (List.singleton_inj.mp ending).symm
  · rintro text rfl ⟨char, member, numbered⟩
    -- Scanning comes as far as the first such character, since it reads back everything in front of it.
    have found : (text.toList.find? fun char => Text.Numbered char).isSome :=
      List.find?_isSome.mpr ⟨char, member, by simpa using numbered⟩
    obtain ⟨first, isFirst⟩ := Option.isSome_iff_exists.mp found
    obtain ⟨shown, before, others, split, earlier⟩ := List.find?_eq_some_iff_append.mp isFirst
    have firstNumbered : Text.Numbered first := by simpa using shown
    have plain : ∀ char ∈ before, ¬Text.Numbered char := by simpa using earlier
    refine ⟨before, first, others, split, firstNumbered, plain, ?_⟩
    obtain ⟨digits, printed⟩ := firstNumbered.toList
    have whole : (Text.quote text).toList =
        '"' :: (Text.quoted before ++ '\\' :: 'u' :: (digits ++ (Text.quoted others ++ ['"']))) := by
      simp [Text.toList_quote, split, Text.quoted, printed]
    exact SourceText.tokens_of_unknown (Text.spells_quoted plain) rfl whole

theorem printed_literal_reads_back_example :
    (∃ after,
      Grammar.literal.run (.ofSource (SourceText.ofString "a.bgl" "\"\\\"\\n\"") 2 .empty) =
        (.ok ⟨.fresh 0 .start, .string "\"\n"⟩, after) ∧ after.head = .symbol .fileEnd ⟨1, 7⟩) ∧
    (SourceText.ofString "a.bgl" (LiteralValue.string "\"\x07").text).tokens.1 =
      .error ⟨.unknownEscape 'u', ⟨1, 6⟩⟩ := by
  constructor
  · have legible : (LiteralValue.string "\"\n").Legible :=
      List.forall_mem_cons.mpr ⟨by decide, List.forall_mem_singleton.mpr (by decide)⟩
    obtain ⟨reads, _⟩ := printed_literal_reads_back (.string "\"\n") "a.bgl" 2 .empty
    obtain ⟨_, after, _, ran, _, head, _⟩ := reads legible
    exact ⟨after, ran, head⟩
  · obtain ⟨_, fails⟩ := printed_literal_reads_back (.string "\"\x07") "a.bgl" 2 .empty
    obtain ⟨before, char, others, split, numbered, plain, failed⟩ :=
      fails _ rfl ⟨'\x07', by decide, by decide +kernel⟩
    have chars : "\"\x07".toList = ['"', '\x07'] := rfl
    rw [chars, List.cons_eq_append_iff] at split
    rcases split with ⟨_, same⟩ | ⟨first, rfl, rest⟩
    · obtain rfl := (List.cons.inj same).1
      exact absurd numbered (by decide)
    · obtain ⟨rfl, _⟩ | ⟨_, _, last⟩ := List.cons_eq_append_iff.mp rest
      · exact failed
      · simp at last

end Beagle
