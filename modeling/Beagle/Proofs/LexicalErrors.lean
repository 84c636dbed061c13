import Beagle.Proofs.FailFast.Parse
import Beagle.Proofs.Invariance.Grammar
import Beagle.Proofs.LazyScanning
import Mathlib.Data.Prod.Lex

/-!
A lexical fault is never passed over.  It is the last token ahead, no rule uses it up before an error was
reported, and every place that is blamed comes before it; so a text with a fault is always rejected.
-/

namespace Beagle

namespace Position

instance : PartialOrder Position :=
  PartialOrder.lift (fun position => toLex (position.line, position.column)) fun first second same => by
    obtain ⟨line, column⟩ := Prod.mk.inj (toLex.injective same)
    cases first
    cases second
    simp_all

variable {first second : Position}

theorem le_iff : first ≤ second ↔
    first.line < second.line ∨ first.line = second.line ∧ first.column ≤ second.column :=
  Prod.Lex.toLex_le_toLex

theorem le_next (position : Position) (char : Char) : position ≤ position.next char := by
  rw [le_iff, next]
  split
  · exact .inl (Nat.lt_succ_self _)
  · exact .inr ⟨rfl, Nat.le_succ _⟩

theorem le_advance (position : Position) (chars : List Char) : position ≤ position.advance chars := by
  induction chars generalizing position with
  | nil => exact le_refl _
  | cons char chars ih => exact (position.le_next char).trans (ih (position.next char))

end Position

namespace SourceText

open TokenSource

variable {source after : SourceText} {token : Token} {error : LexError}

theorem position_le_of_scan (scanned : source.scan = (.ok token, after))
    (more : token.kind ≠ .fileEnd) :
    source.position ≤ token.position ∧ token.position ≤ after.position := by
  rcases scan_cases scanned with ⟨_, rfl⟩ | ⟨gap, lexeme, _, _, _, tokenPlace, afterPlace⟩
  · exact absurd rfl more
  · rw [Position.advance_append, ← tokenPlace] at afterPlace
    exact ⟨tokenPlace ▸ Position.le_advance _ gap, afterPlace ▸ Position.le_advance _ lexeme⟩

theorem position_le_of_fault (scanned : source.scan = (.error error, after)) :
    source.position ≤ error.position := by
  unfold scan at scanned
  split at scanned
  · cases scanned
    exact Position.le_advance _ _
  · simp only at scanned
    split at scanned
    · cases scanned
    · cases scanned
    · cases scanned
      exact (Position.le_advance _ _).trans (Position.le_advance _ _)

theorem sorted_ahead (source : SourceText) :
    (∀ token ∈ ahead source, source.position ≤ token.position) ∧
      (ahead source).Pairwise fun first second => first.position ≤ second.position := by
  fun_induction TokenSource.ahead source with
  | case1 source pulled last => simp
  | case2 source pulled more ih =>
      cases closed : source.closed with
      | true => exact absurd (congrArg (·.1.kind) (next_of_closed closed)) more
      | false =>
          rcases scanned : source.scan with ⟨error | token, after⟩
          · have isPulled : pulled = _ := next_of_fault closed scanned
            rw [isPulled, ahead_of_closed rfl]
            exact ⟨by simpa using position_le_of_fault scanned, by simp⟩
          · have isToken : pulled.1 = token := congrArg Prod.fst (next_of_token closed scanned)
            rw [isToken] at more
            have isPulled : pulled = (token, after) := next_of_more closed scanned more
            obtain ⟨before, behind⟩ := position_le_of_scan scanned more
            rw [isPulled] at ih ⊢
            have later : ∀ other ∈ ahead after, token.position ≤ other.position :=
              fun other member => behind.trans (ih.1 other member)
            refine ⟨List.forall_mem_cons.mpr ⟨before, ?_⟩, List.pairwise_cons.mpr ⟨later, ih.2⟩⟩
            exact fun other member => before.trans (later other member)

theorem position_le_fault (unclosed : source.closed = false) (failed : source.tokens.1 = .error error) :
    ∀ token ∈ ahead source, token.position ≤ error.position := by
  obtain ⟨front, same, _⟩ := ahead_of_fault unclosed failed
  have sorted := (sorted_ahead source).2
  rw [same, List.pairwise_append] at sorted
  rw [same]
  intro token member
  rcases List.mem_append.mp member with early | last
  · exact sorted.2.2 token early _ (List.mem_singleton_self _)
  · rw [List.mem_singleton.mp last]

end SourceText

def Diagnostic.UpTo (place : Position) (diagnostic : Diagnostic) : Prop :=
  ∃ position ≤ place, diagnostic.position = some position

namespace State

variable {σ : Type} [TokenSource σ]

/-- The tokens ahead end with an invalid one, and nothing is seen or blamed behind `place`. -/
structure FaultAhead (place : Position) (state : State σ) : Prop where
  fault : ∃ last, state.ahead.getLast? = some last ∧ last.kind = .invalid
  seen : ∀ token ∈ state.ahead, token.position ≤ place
  told : ∀ diagnostic ∈ state.session.diagnostics, diagnostic.UpTo place

structure FaultBehind (place : Position) (state : State σ) : Prop where
  ended : state.ahead = []
  errors : 0 < state.errors
  told : ∀ diagnostic ∈ state.session.diagnostics, diagnostic.UpTo place

variable {place : Position} {state after : State σ}

theorem FaultAhead.ahead_ne_nil (fault : state.FaultAhead place) : state.ahead ≠ [] := by
  obtain ⟨last, isLast, _⟩ := fault.fault
  intro empty
  rw [empty] at isLast
  cases isLast

theorem FaultAhead.head_le (fault : state.FaultAhead place) : state.head.position ≤ place := by
  have more : state.head.kind ≠ .fileEnd := mt ahead_of_head_kind fault.ahead_ne_nil
  refine fault.seen state.head ?_
  rw [ahead_eq_cons more]
  exact List.mem_cons_self

theorem FaultAhead.congr (fault : state.FaultAhead place) (ahead : after.ahead = state.ahead)
    (told : after.session.diagnostics = state.session.diagnostics) : after.FaultAhead place :=
  ⟨ahead ▸ fault.fault, ahead ▸ fault.seen, told ▸ fault.told⟩

theorem FaultAhead.takes {tokens : List Token} (fault : state.FaultAhead place)
    (ahead : state.ahead = tokens ++ after.ahead) (valid : ∀ token ∈ tokens, token.kind ≠ .invalid)
    (told : after.session.diagnostics = state.session.diagnostics) : after.FaultAhead place := by
  obtain ⟨⟨last, isLast, invalid⟩, seen, toldBefore⟩ := fault
  rw [ahead] at isLast seen
  refine ⟨⟨last, ?_, invalid⟩, fun token member => seen token (List.mem_append_right _ member),
    told ▸ toldBefore⟩
  cases isRest : after.ahead.getLast? with
  | some other => simpa [isRest] using isLast
  | none =>
      have member : last ∈ tokens := List.mem_of_getLast? (by simpa [isRest] using isLast)
      exact absurd invalid (valid last member)

theorem FaultAhead.tells {position : Position} (fault : state.FaultAhead place)
    (known : position ≤ place) (severity : Severity) (complaint : Complaint) :
    State.FaultAhead place
      { state with session := state.session.report severity (some position) complaint } := by
  refine ⟨fault.fault, fault.seen, ?_⟩
  simp only [Session.report, List.forall_mem_append, List.forall_mem_singleton]
  exact ⟨fault.told, position, known, rfl⟩

theorem FaultAhead.drops (fault : state.FaultAhead place)
    (closed : 0 < state.errors ∨ state.head.kind = .mark .rightBrace) :
    State.FaultAhead place { state with tokens := state.tokens.discard 1 } ∨
      State.FaultBehind place { state with tokens := state.tokens.discard 1 } := by
  have left : State.ahead { state with tokens := state.tokens.discard 1 } = state.ahead.drop 1 :=
    state.tokens.ahead_discard 1
  cases tokens : state.ahead with
  | nil => exact absurd tokens fault.ahead_ne_nil
  | cons first rest =>
      rw [tokens, List.drop_one, List.tail_cons] at left
      by_cases lastFault : first.kind = .invalid ∧ rest = []
      · -- An invalid token is no brace, so an error was reported before it is dropped.
        have errors : 0 < state.errors := by
          refine closed.resolve_right fun brace => ?_
          rw [head_of_ahead tokens, lastFault.1] at brace
          cases brace
        exact .inr ⟨left.trans lastFault.2, errors, fault.told⟩
      · obtain ⟨⟨last, isLast, invalid⟩, seen, told⟩ := fault
        rw [tokens] at isLast seen
        refine .inl ⟨⟨last, ?_, invalid⟩, fun token member => ?_, told⟩
        · rw [left]
          cases rest with
          | nil =>
              obtain rfl : first = last := by simpa using isLast
              exact absurd ⟨invalid, rfl⟩ lastFault
          | cons second rest => simpa using isLast
        · exact seen token (List.mem_cons_of_mem _ (left ▸ member))

end State

def Invariant.fault (σ : Type) [TokenSource σ] (place : Position) : Invariant σ where
  holds := State.FaultAhead place
  spent := State.FaultBehind place
  known := (· ≤ place)
  head held := held.head_le
  looks offset held := held.congr (Window.ahead_peek _ offset) rfl
  takes {state tokens rest} held ahead valid := by
    have left : State.ahead { state with tokens := state.tokens.discard tokens.length } = rest :=
      (state.tokens.ahead_discard tokens.length).trans
        ((congrArg (List.drop tokens.length) ahead).trans List.drop_left)
    exact held.takes (left.symm ▸ ahead) valid rfl
  tells severity complaint held known := held.tells known severity complaint
  makes held := held.congr rfl rfl
  drops held closed := held.drops closed
  ended spent := State.head_kind_of_nil spent.ended
  looksSpent offset spent := ⟨(Window.ahead_peek _ offset).trans spent.ended, spent.errors, spent.told⟩

theorem fault_of_parse {file text : String} {error : LexError}
    (failed : (SourceText.ofString file text).tokens.1 = .error error) (capacity : Nat) :
    let after := (State.ofSource (SourceText.ofString file text) capacity .empty).parse.2
    after.FaultAhead error.position ∨ after.FaultBehind error.position := by
  intro after
  obtain ⟨front, same, _⟩ := SourceText.ahead_of_fault rfl failed
  have seen := SourceText.position_le_fault rfl failed
  have held : (Invariant.fault SourceText error.position).holds
      ⟨Window.ofSource (SourceText.ofString file text) capacity, Session.begin .empty file, file⟩ := by
    refine ⟨⟨⟨.invalid, error.message, error.position⟩, ?_, rfl⟩, ?_, ?_⟩
    · simp [State.ahead, same]
    · simpa [State.ahead] using seen
    · simp [Session.begin, Session.empty]
  obtain ⟨middle, done, isAfter⟩ := Invariant.done_parse (State.ofSource _ capacity .empty) held
  rw [show after = _ from isAfter]
  rcases done with ahead | behind
  · exact .inl (ahead.congr rfl rfl)
  · exact .inr ⟨behind.ended, behind.errors, behind.told⟩

/-- A text that cannot be read to its end is rejected with an error, and no diagnostic points behind the
fault. -/
theorem compile_rejects_fault (settings : Settings) (file text : String) (error : LexError)
    (failed : (SourceText.ofString file text).tokens.1 = .error error) :
    ∃ diagnostics, compile settings file text = .error (.rejected diagnostics) ∧
      (∃ diagnostic ∈ diagnostics, diagnostic.severity = .error) ∧
      ∀ diagnostic ∈ diagnostics, diagnostic.UpTo error.position := by
  have fault := fault_of_parse failed settings.lookahead
  rcases compileIn_cases .empty settings file text with ⟨wrong, ran⟩ | ⟨clean, unit, parsed, _⟩
  · refine ⟨_, congrArg Prod.fst ran, Session.exists_error wrong, ?_⟩
    exact fault.elim (·.told) (·.told)
  · have ended := State.ahead_of_head_kind (State.head_of_parse parsed)
    rcases fault with ahead | behind
    · exact absurd ended ahead.ahead_ne_nil
    · exact absurd (decide_eq_true behind.errors) (Bool.eq_false_iff.mp clean)

/-- A sign that no token starts with, where a member of a class is expected. -/
theorem compile_rejects_fault_example :
    let text := "class A\x7bstatic static #\x7d"
    ∃ error diagnostics, (SourceText.ofString "a.bgl" text).tokens.1 = .error error ∧
      error.position = ⟨1, 23⟩ ∧ compile {} "a.bgl" text = .error (.rejected diagnostics) ∧
      (∃ diagnostic ∈ diagnostics, diagnostic.severity = .error) ∧
      ∀ diagnostic ∈ diagnostics, diagnostic.UpTo error.position := by
  intro text
  have failed : ∃ error, (SourceText.ofString "a.bgl" text).tokens.1 = .error error ∧
      error.position = ⟨1, 23⟩ := ⟨⟨.strayCharacter '#', ⟨1, 23⟩⟩, by decide +kernel⟩
  obtain ⟨error, isError, place⟩ := failed
  obtain ⟨diagnostics, rejected⟩ := compile_rejects_fault {} "a.bgl" text error isError
  exact ⟨error, diagnostics, isError, place, rejected⟩

end Beagle
