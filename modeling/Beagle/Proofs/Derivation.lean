import Beagle.Proofs.Acceptance.Unit
import Beagle.Proofs.TreeShape

/-!
The parser realises the grammar: it answers without an error exactly for the texts that some unit is
spelled by, and its answer is the one unit that they spell.
-/

namespace Beagle

open Spelling

namespace Tape

theorem ahead_eq_tokens {tape : Tape} (unended : ∀ token ∈ tape.tokens, token.kind ≠ .fileEnd) :
    TokenSource.ahead tape = tape.tokens := by
  obtain ⟨file, tokens, last⟩ := tape
  induction tokens with
  | nil => exact TokenSource.ahead_eq_nil rfl
  | cons token tokens ih =>
      rw [TokenSource.ahead_eq_cons (unended token (by simp))]
      exact congrArg (token :: ·) (ih fun other member => unended other (by simp [member]))

theorem ahead_ofTokens (file : String) (tokens : List Token) :
    TokenSource.ahead (ofTokens file tokens) = tokens.takeWhile fun token => token.kind ≠ .fileEnd :=
  ahead_eq_tokens fun token member => by simpa using List.mem_takeWhile_imp member

end Tape

theorem Session.hasErrors_eq_false_iff {session : Session} :
    session.hasErrors = false ↔ session.errorCount = 0 := by
  simp [hasErrors]

namespace State

variable {σ : Type} [TokenSource σ]

theorem ahead_ofSource (source : σ) (capacity : Nat) (session : Session) :
    (ofSource source capacity session).ahead = TokenSource.ahead source :=
  Window.ahead_ofSource source capacity

theorem parse_of_spelled {state : State σ} {unit : SourceUnit} (spells : state.ahead ∈ ofUnit unit) :
    ∃ read, state.parse.1 = .ok read ∧ read.outline = unit.outline ∧
      state.parse.2.session.errorCount = state.session.errorCount := by
  obtain ⟨read, after, ran, same, clean⟩ := Grammar.accepts_unit state.file spells
    { state with session := state.session.begin state.file } rfl
  refine ⟨read, congrArg Prod.fst ran, same, ?_⟩
  have counted := congrArg (fun ran => ran.2.session.errorCount) ran
  exact counted.trans clean

theorem spelled_of_parse {source : σ} {capacity : Nat} {unit : SourceUnit}
    (parsed : (ofSource source capacity .empty).parse.1 = .ok unit)
    (clean : (ofSource source capacity .empty).parse.2.session.hasErrors = false) :
    TokenSource.ahead source ∈ ofUnit unit := by
  rw [← ahead_ofSource source capacity .empty]
  exact (reading_of_parse _ parsed).spelled (Session.hasErrors_eq_false_iff.mp clean)

end State

/-- A list of tokens is parsed without an error if and only if it is derived from a unit, and then the
unit is the derived one. -/
theorem parse_iff_derived (file : String) (tokens : List Token) (capacity : Nat) :
    let state := State.ofSource (Tape.ofTokens file tokens) capacity .empty
    let text := tokens.takeWhile fun token => token.kind ≠ .fileEnd
    ((∃ unit, state.parse.1 = .ok unit ∧ state.parse.2.session.hasErrors = false) ↔
      ∃ unit, text ∈ ofUnit unit) ∧
    ∀ unit, state.parse.1 = .ok unit → state.parse.2.session.hasErrors = false →
      unit.file = file ∧ text ∈ ofUnit unit ∧
        ∀ other, text ∈ ofUnit other → other.outline = unit.outline := by
  intro state text
  have ahead : state.ahead = text := by
    rw [State.ahead_ofSource, Tape.ahead_ofTokens]
  have derived (unit : SourceUnit) (parsed : state.parse.1 = .ok unit)
      (clean : state.parse.2.session.hasErrors = false) : text ∈ ofUnit unit := by
    have spells := State.spelled_of_parse parsed clean
    rwa [Tape.ahead_ofTokens] at spells
  refine ⟨⟨?_, ?_⟩, fun unit parsed clean => ⟨(state.reading_of_parse parsed).file,
    derived unit parsed clean, fun other spells => ?_⟩⟩
  · rintro ⟨unit, parsed, clean⟩
    exact ⟨unit, derived unit parsed clean⟩
  · rintro ⟨unit, spells⟩
    obtain ⟨read, parsed, _, clean⟩ := State.parse_of_spelled (ahead.symm ▸ spells)
    exact ⟨read, parsed, Session.hasErrors_eq_false_iff.mpr clean⟩
  · obtain ⟨read, parsedRead, same, _⟩ := State.parse_of_spelled (ahead.symm ▸ spells)
    obtain rfl : read = unit := Except.ok.inj (parsedRead.symm.trans parsed)
    exact same.symm

def classTokens : List Token :=
  [.symbol (.keyword .classWord) ⟨1, 1⟩, ⟨.identifier, "A", ⟨1, 7⟩⟩, .symbol (.mark .colon) ⟨1, 9⟩,
    ⟨.identifier, "B", ⟨1, 11⟩⟩, .symbol .lineEnd ⟨1, 12⟩, .symbol .fileEnd ⟨2, 1⟩,
    .symbol (.mark .dot) ⟨2, 2⟩]

theorem parse_classTokens : ∃ unit, classTokens.take 5 ∈ ofUnit unit ∧
    (State.ofSource (Tape.ofTokens "a.bgl" classTokens) 1 .empty).parse.1 = .ok unit ∧
      ∀ other, classTokens.take 5 ∈ ofUnit other → other.outline = unit.outline := by
  have realised := parse_iff_derived "a.bgl" classTokens 1
  generalize given : State.ofSource (Tape.ofTokens "a.bgl" classTokens) 1 .empty = state at realised ⊢
  have ran : state.parse.1.isOk ∧ state.parse.2.session.hasErrors = false := by
    subst given
    decide +kernel
  match found : state.parse.1 with
  | .error stop => simp [found, Except.isOk, Except.toBool] at ran
  | .ok unit =>
      obtain ⟨_, spells, unique⟩ := realised.2 unit found ran.2
      exact ⟨unit, spells, rfl, unique⟩

end Beagle
