import Beagle.Proofs.LiteralTokens
import Beagle.Proofs.Reaching.Grammar
import Beagle.Proofs.Rendering

/-!
The two limits of integers.  Digits are scanned as an integer up to 64 bits, and read as an initial value
up to 32 bits.  Whatever is accepted has exactly the value of its digits, and everything else is refused
where it stands.
-/

namespace Beagle

open Spelling

namespace SourceText

inductive Scans : SourceText → List Token → SourceText → Prop
  | nil {source : SourceText} : Scans source [] source
  | cons {source between after : SourceText} {token : Token} {tokens : List Token} :
      source.scan = (.ok token, between) → token.kind ≠ .fileEnd → Scans between tokens after →
      Scans source (token :: tokens) after

variable {source inner : SourceText} {token : Token} {front : List Token}

theorem Scans.ahead_eq (scans : source.Scans front inner) (unclosed : source.closed = false) :
    TokenSource.ahead source = front ++ TokenSource.ahead inner ∧ inner.closed = false := by
  induction scans with
  | nil => exact ⟨rfl, unclosed⟩
  | @cons source _ _ _ _ scanned more _ ih =>
      obtain ⟨others, still⟩ := ih ((closed_of_scan scanned).trans unclosed)
      have pulled : TokenStream.next source = _ := next_of_more unclosed scanned more
      refine ⟨?_, still⟩
      rw [TokenSource.ahead_eq_cons (by rwa [pulled]), pulled, others, List.cons_append]

theorem head_ahead_of_token (unclosed : source.closed = false) (scanned : source.scan.1 = .ok token)
    (more : token.kind ≠ .fileEnd) : (TokenSource.ahead source).head? = some token := by
  have pulled : TokenStream.next source = _ := next_of_more unclosed (Prod.ext scanned rfl) more
  rw [TokenSource.ahead_eq_cons (by rwa [pulled]), pulled]
  rfl

theorem head_ahead_of_fault (unclosed : source.closed = false) {error : LexError}
    (scanned : source.scan.1 = .error error) :
    (TokenSource.ahead source).head? = some ⟨.invalid, error.message, error.position⟩ := by
  have pulled : TokenStream.next source = _ := next_of_fault unclosed (Prod.ext scanned rfl)
  rw [TokenSource.ahead_eq_cons (by rw [pulled]; simp), pulled]
  rfl

theorem scan_of_digits {gap digits behind : List Char} (split : source.rest = gap ++ (digits ++ behind))
    (fills : Gap.Fills gap) (nonempty : digits ≠ []) (areDigits : ∀ digit ∈ digits, digit.isDigit)
    (stops : ∀ char ∈ behind.head?, char.isDigit = false) :
    source.scan.1 = if Numeral.value digits < 2 ^ 63
      then .ok ⟨.integer, String.ofList digits, source.position.advance gap⟩
      else .error ⟨.integerTooLarge (String.ofList digits), source.position.advance gap⟩ := by
  have limit : Numeral.value digits ≤ Numeral.maxInt64 ↔ Numeral.value digits < 2 ^ 63 := by
    rw [Numeral.maxInt64]
    omega
  have read := Lexeme.read?_of_digits nonempty areDigits stops
  split <;> rename_i within
  · rw [if_pos (limit.mpr within)] at read
    rw [Numeral.value_eq_ofDigits] at within
    let piece : Piece := ⟨gap, digits, .integer, _, fills, .integer nonempty areDigits within⟩
    have laid : source.rest = piece.chars ++ behind := by
      rw [split, ← List.append_assoc]
      rfl
    rw [scan_of_piece laid fun char next => by simp [Lexeme.goesOn, piece, Kind.isWord, stops char next]]
  · rw [if_neg fun low => within (limit.mp low)] at read
    have ends : Gap.Ends (digits ++ behind) := by
      obtain ⟨first, others, rfl⟩ := List.exists_cons_of_ne_nil nonempty
      have opens := Lexeme.opens_of_isDigit (areDigits first List.mem_cons_self)
      rintro _ ⟨⟩
      exact ⟨opens.notBlank, opens.notSlash⟩
    obtain ⟨after, scanned⟩ := scan_of_fault split fills ends read
    rw [scanned, List.take_zero, List.append_nil]

end SourceText

/-- The rule reads a literal of this place and value at these tokens.  It uses up the first one and reports
nothing. -/
def Rule.Takes {σ : Type} [TokenSource σ] (rule : Rule σ Literal) (tokens : List Token)
    (position : Position) (value : LiteralValue) : Prop :=
  ∀ state : State σ, state.ahead = tokens → rule.Yields state fun literal after =>
    (literal.info.position = position ∧ literal.value = value) ∧ after.ahead = tokens.drop 1 ∧
      after.session.diagnostics = state.session.diagnostics

namespace Grammar

open Rule

variable {σ : Type} [TokenSource σ] {tokens : List Token} {token : Token}

theorem head_eq_of_head? {state : State σ} (first : tokens.head? = some token)
    (ahead : state.ahead = tokens) : state.head = token := by
  rw [State.head, ahead, first, Option.getD_some]

theorem takes_literal (first : tokens.head? = some token) {value : LiteralValue}
    (read : literalValue? token = some value) :
    (literal : Rule σ Literal).Takes tokens token.position value := by
  intro state ahead
  obtain rfl := head_eq_of_head? first ahead
  refine (yields_literal read).mono ?_
  rintro _ after _ ⟨rfl, left, _, session⟩
  refine ⟨⟨rfl, rfl⟩, ahead ▸ left, ?_⟩
  rw [session]
  rfl

theorem refuses_range (first : tokens.head? = some token) (wanted : token.kind ∈ literalKinds)
    (absent : literalValue? token = none) :
    (literal : Rule σ Literal).Refuses tokens token.position (.integerRange token.text) := by
  intro state ahead
  obtain rfl := head_eq_of_head? first ahead
  obtain ⟨after, ran, unmoved, _, session⟩ := refuses_literal_range wanted absent
  exact ⟨after, ran, unmoved.trans ahead, congrArg Session.diagnostics session⟩

theorem refuses_kind (first : tokens.head? = some token) (unwanted : token.kind ∉ literalKinds) :
    (literal : Rule σ Literal).Refuses tokens token.position (.expected literalKinds token) := by
  intro state ahead
  obtain rfl := head_eq_of_head? first ahead
  obtain ⟨after, ran, unmoved, _, session⟩ := refuses_literal_kind unwanted
  exact ⟨after, ran, unmoved.trans ahead, congrArg Session.diagnostics session⟩

theorem takes_integer {digits : List Char} {place : Position} (nonempty : digits ≠ [])
    (areDigits : ∀ digit ∈ digits, digit.isDigit)
    (first : tokens.head? = some ⟨.integer, String.ofList digits, place⟩)
    (small : Numeral.value digits < 2 ^ 31) : ∃ value : Int32, value.toInt = Numeral.value digits ∧
      (literal : Rule σ Literal).Takes tokens place (.integer value) := by
  refine ⟨.ofInt (Numeral.value digits), Int32.toInt_ofInt_of_le (by omega) (by omega), ?_⟩
  have read := Numeral.int32?_of_digits nonempty areDigits
  rw [if_pos small] at read
  exact takes_literal first (congrArg (Option.map LiteralValue.integer) read)

theorem refuses_integer {digits : List Char} {place : Position} (nonempty : digits ≠ [])
    (areDigits : ∀ digit ∈ digits, digit.isDigit)
    (first : tokens.head? = some ⟨.integer, String.ofList digits, place⟩)
    (large : 2 ^ 31 ≤ Numeral.value digits) :
    (literal : Rule σ Literal).Refuses tokens place (.integerRange (String.ofList digits)) := by
  have read := Numeral.int32?_of_digits nonempty areDigits
  rw [if_neg (Nat.not_lt.mpr large)] at read
  exact refuses_range first (by simp [literalKinds]) (congrArg (Option.map LiteralValue.integer) read)

end Grammar

/-- Integers are exact at both limits.  Digits anywhere in a text are one token with exactly their value, or
a token that the rule for literals refuses for its range, or a fault already for the scanner.  Where they
stand as an initial value the unit has that value, or the parse ends there with one error. -/
theorem integer_literal_exact {file source : String} {front : List Token} {inner : SourceText}
    {gap digits behind : List Char} (scans : (SourceText.ofString file source).Scans front inner)
    (split : inner.rest = gap ++ (digits ++ behind)) (fills : Gap.Fills gap) (nonempty : digits ≠ [])
    (areDigits : ∀ digit ∈ digits, digit.isDigit) (stops : ∀ char ∈ behind.head?, char.isDigit = false)
    (capacity : Nat) (session : Session) :
    let number : Nat := Nat.ofDigits 10 (digits.reverse.map fun digit => digit.toNat - '0'.toNat)
    let text := String.ofList digits
    let place := inner.position.advance gap
    let ahead := TokenSource.ahead inner
    let literal : Rule SourceText Literal := Grammar.literal
    let state := State.ofSource (SourceText.ofString file source) capacity session
    (number < 2 ^ 31 → inner.scan.1 = .ok ⟨.integer, text, place⟩ ∧ ∃ value : Int32, value.toInt = number ∧
      literal.Takes ahead place (.integer value) ∧
        (front ∈ upToInitial → ∀ unit, state.parse.1 = .ok unit → ∃ initial ∈ unit.initials,
          initial.info.position = place ∧ initial.value = .integer value)) ∧
    (2 ^ 31 ≤ number → number < 2 ^ 63 → inner.scan.1 = .ok ⟨.integer, text, place⟩ ∧
      ∃ complaint : Complaint, complaint.message = "Integer literal out of range for int32: " ++ text ∧
        literal.Refuses ahead place complaint ∧
          (front ∈ upToInitial → state.StopsAt ahead place complaint)) ∧
    (2 ^ 63 ≤ number → ∃ error : LexError, error.message = "Invalid integer literal: " ++ text ∧
      error.position = place ∧ inner.scan.1 = .error error ∧
        let complaint := .expected Grammar.literalKinds ⟨.invalid, error.message, place⟩
        literal.Refuses ahead place complaint ∧
          (front ∈ upToInitial → state.StopsAt ahead place complaint)) := by
  intro number text place ahead literal state
  have isValue : Numeral.value digits = number := Numeral.value_eq_ofDigits digits
  have scanned := SourceText.scan_of_digits split fills nonempty areDigits stops
  obtain ⟨pulled, unclosed⟩ := scans.ahead_eq rfl
  have started : state.ahead = front ++ ahead := (Window.ahead_ofSource _ _).trans pulled
  have isInteger (small : Numeral.value digits < 2 ^ 63) : inner.scan.1 = .ok ⟨.integer, text, place⟩ ∧
      ahead.head? = some ⟨.integer, text, place⟩ := by
    rw [if_pos small] at scanned
    exact ⟨scanned, SourceText.head_ahead_of_token unclosed scanned (by simp)⟩
  rw [← isValue]
  refine ⟨fun small => ?_, fun large small => ?_, fun huge => ?_⟩
  · obtain ⟨isScanned, first⟩ := isInteger (by omega)
    obtain ⟨value, isExact, takes⟩ : ∃ value : Int32, _ ∧ literal.Takes ahead place (.integer value) :=
      Grammar.takes_integer nonempty areDigits first small
    refine ⟨isScanned, value, isExact, takes, fun initial unit parsed => ?_⟩
    obtain ⟨read, ⟨position, isRead⟩, found, member, same⟩ := State.among_of_parse started initial
      (fun middle here => (takes middle here).mono fun _ _ _ holds => holds.1) parsed
    have samePlace : found.info.position = read.info.position :=
      congrArg (fun literal => literal.info.position) same
    have sameValue : found.value = read.value := congrArg (fun literal => literal.value) same
    exact ⟨found, member, samePlace.trans position, sameValue.trans isRead⟩
  · obtain ⟨isScanned, first⟩ := isInteger small
    have refuses : literal.Refuses ahead place (.integerRange text) :=
      Grammar.refuses_integer nonempty areDigits first large
    refine ⟨isScanned, .integerRange text, ?_, refuses,
      fun initial => State.stopsAt_of_refuses started initial refuses⟩
    unfold Complaint.message
    rfl
  · rw [if_neg (Nat.not_lt.mpr huge)] at scanned
    have first := SourceText.head_ahead_of_fault unclosed scanned
    have refuses : literal.Refuses ahead place (.expected Grammar.literalKinds _) :=
      Grammar.refuses_kind first (by simp [Grammar.literalKinds])
    refine ⟨_, ?_, rfl, scanned, refuses,
      fun initial => State.stopsAt_of_refuses started initial refuses⟩
    unfold LexError.message LexFault.message
    rfl

def firstInitial : List Token :=
  [⟨.keyword .classWord, "class", ⟨1, 1⟩⟩, ⟨.identifier, "A", ⟨1, 7⟩⟩, ⟨.mark .leftBrace, "\x7b", ⟨1, 8⟩⟩,
    ⟨.keyword .varWord, "var", ⟨1, 9⟩⟩, ⟨.identifier, "x", ⟨1, 13⟩⟩, ⟨.mark .assign, "=", ⟨1, 14⟩⟩]

open Language in
theorem firstInitial_mem : firstInitial ∈ upToInitial := by
  have one (token : Token) : [token] ∈ word token.kind := ⟨token, rfl, rfl⟩
  have skipped : [] ∈ terminators := fun _ member => absurd member List.not_mem_nil
  have plain : [] ∈ ofAnnots [] * ofModifiers none := append_mem_mul nil_mem_one ⟨[], rfl, rfl⟩
  have names : [⟨.identifier, "x", ⟨1, 13⟩⟩] ∈ separated .comma [declared ("x", ⟨1, 13⟩)] :=
    mem_mul.mpr ⟨_, ⟨_, rfl, rfl, rfl, rfl⟩, [], nil_mem_one, rfl⟩
  have values : [] ∈ valuesSoFar := .inl rfl
  have field : firstInitial.drop 3 ∈ fieldSoFar := by
    refine ⟨[], none, .mutable, [("x", ⟨1, 13⟩)], none, append_mem_mul plain ?_⟩
    refine mem_mul.mpr ⟨_, one ⟨.keyword .varWord, "var", ⟨1, 9⟩⟩, _, ?_, rfl⟩
    refine mem_mul.mpr ⟨_, names, _, append_mem_mul nil_mem_one ?_, rfl⟩
    exact append_mem_mul (one ⟨.mark .assign, "=", ⟨1, 14⟩⟩) values
  have members : [] ∈ membersSoFar := ⟨[], append_mem_mul nil_mem_one skipped⟩
  have body : firstInitial.drop 2 ∈ bodySoFar :=
    append_mem_mul (one ⟨.mark .leftBrace, "\x7b", ⟨1, 8⟩⟩) (append_mem_mul members field)
  have name : [⟨.identifier, "A", ⟨1, 7⟩⟩] ∈ ofName (.single "A") :=
    mem_mul.mpr ⟨_, ⟨_, rfl, rfl, rfl⟩, [], nil_mem_one, rfl⟩
  have decl : firstInitial ∈ typeSoFar := by
    refine ⟨[], none, .single "A", [], append_mem_mul plain ?_⟩
    refine mem_mul.mpr ⟨_, one ⟨.keyword .classWord, "class", ⟨1, 1⟩⟩, _, ?_, rfl⟩
    exact mem_mul.mpr ⟨_, name, _, append_mem_mul nil_mem_one (append_mem_mul skipped body), rfl⟩
  refine ⟨none, [], [], append_mem_mul skipped (append_mem_mul nil_mem_one ?_)⟩
  exact append_mem_mul skipped (append_mem_mul nil_mem_one (append_mem_mul nil_mem_one
    (append_mem_mul skipped decl)))

/-- The smallest number that is too large, with a zero in front of it. -/
theorem integer_literal_exact_example :
    let inner : SourceText := ⟨"a.bgl", " 02147483648\x7d".toList, ⟨1, 15⟩, false⟩
    let state := State.ofSource (SourceText.ofString "a.bgl" "class A\x7bvar x= 02147483648\x7d") 1 .empty
    (SourceText.ofString "a.bgl" "class A\x7bvar x= 02147483648\x7d").Scans firstInitial inner ∧
      ∃ complaint : Complaint,
        complaint.message = "Integer literal out of range for int32: 02147483648" ∧
          state.StopsAt (TokenSource.ahead inner) ⟨1, 16⟩ complaint := by
  intro inner state
  have scans : (SourceText.ofString "a.bgl" "class A\x7bvar x= 02147483648\x7d").Scans firstInitial inner := by
    repeat refine .cons rfl (by simp) ?_
    exact .nil
  have split : inner.rest = [' '] ++ ("02147483648".toList ++ ['\x7d']) := rfl
  have fills : Gap.Fills [' '] := .blank (by simp) .nil
  have areDigits : ∀ digit ∈ "02147483648".toList, digit.isDigit := by simp
  obtain ⟨_, tooLarge, _⟩ := integer_literal_exact scans split fills (by simp) areDigits (by simp) 1 .empty
  obtain ⟨_, complaint, message, _, stops⟩ := tooLarge (by decide) (by decide)
  exact ⟨scans, complaint, message, stops firstInitial_mem⟩

end Beagle
