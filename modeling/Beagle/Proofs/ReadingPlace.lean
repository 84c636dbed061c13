import Beagle.Proofs.LazyScanning

/-!
The place where a text is being read.  Whatever is asked of a text, and also behind a fault, reading goes on
from where it was, line and column are those behind the characters that were consumed, and only the end of
file is found without consuming any.
-/

namespace Beagle

namespace SourceText

variable {source middle after : SourceText} {first second text consumed : List Char}

def ReadsTo (source : SourceText) (read : List Char) (after : SourceText) : Prop :=
  source.rest = read ++ after.rest ∧ after.position = source.position.advance read

/-- These characters of the whole text were consumed, and the place is the one behind them. -/
def Stands (source : SourceText) (text consumed : List Char) : Prop :=
  consumed ++ source.rest = text ∧ source.position = .behind consumed

def scanned (source : SourceText) : Nat → SourceText
  | 0 => source
  | count + 1 => source.scan.2.scanned count

def failures (answers : List (Except LexError (List Token))) : Nat :=
  answers.countP fun answer => !answer.isOk

section Reading

theorem readsTo_refl (source : SourceText) : source.ReadsTo [] source := by
  constructor
  · rw [List.nil_append]
  · rw [Position.advance_nil]

theorem ReadsTo.trans (early : source.ReadsTo first middle) (late : middle.ReadsTo second after) :
    source.ReadsTo (first ++ second) after := by
  constructor
  · rw [early.1, late.1, List.append_assoc]
  · rw [late.2, early.2, Position.advance_append]

theorem ReadsTo.length_lt (reads : source.ReadsTo first after) (some : first ≠ []) :
    after.rest.length < source.rest.length := by
  have positive := List.length_pos_iff.mpr some
  rw [reads.1, List.length_append]
  omega

theorem readsTo_skip (source : SourceText) (count : Nat) :
    source.ReadsTo (source.rest.take count) (source.skip count) :=
  ⟨(List.take_append_drop count source.rest).symm, rfl⟩

theorem take_ne_nil {count : Nat} (positive : 0 < count) (unread : source.rest ≠ []) :
    source.rest.take count ≠ [] := by
  intro none
  rcases List.take_eq_nil_iff.mp none with zero | empty
  · omega
  · exact unread empty

theorem readsTo_scan (source : SourceText) : ∃ read, source.ReadsTo read source.scan.2 ∧
    ((∃ token, source.scan.1 = .ok token ∧ token.kind = .fileEnd) ∨ read ≠ []) := by
  have behindLexeme {gap : Nat} {lexeme : Lexeme}
      (found : Lexeme.read? (source.skip gap).rest = some lexeme) :
      ∃ read, source.ReadsTo read ((source.skip gap).skip lexeme.length) ∧ read ≠ [] := by
    have unread : (source.skip gap).rest ≠ [] := by
      intro empty
      rw [empty] at found
      simp [Lexeme.read?] at found
    refine ⟨_, (source.readsTo_skip gap).trans (readsTo_skip _ lexeme.length), ?_⟩
    exact List.append_ne_nil_of_right_ne_nil _ (take_ne_nil (Lexeme.read?_length_pos found) unread)
  unfold scan
  split
  · rename_i opener unclosed
    refine ⟨_, source.readsTo_skip _, .inr ?_⟩
    rw [List.take_length]
    intro empty
    rw [empty] at unclosed
    cases unclosed
  · rename_i gap _
    simp only
    split
    · exact ⟨_, source.readsTo_skip gap, .inl ⟨_, rfl, rfl⟩⟩
    · rename_i kind text length found
      obtain ⟨read, reads, some⟩ := behindLexeme found
      exact ⟨read, reads, .inr some⟩
    · rename_i fault blame length found
      obtain ⟨read, reads, some⟩ := behindLexeme found
      exact ⟨read, reads, .inr some⟩

theorem readsTo_scanned (source : SourceText) (count : Nat) :
    ∃ read, source.ReadsTo read (source.scanned count) := by
  induction count generalizing source with
  | zero => exact ⟨[], source.readsTo_refl⟩
  | succ count ih =>
      obtain ⟨early, reads, _⟩ := source.readsTo_scan
      obtain ⟨late, others⟩ := ih source.scan.2
      exact ⟨early ++ late, reads.trans others⟩

theorem tokens_by_scans (source : SourceText) : ∃ count,
    source.tokens.2 = (source.scanned count).scan.2 ∧
    ∀ error, source.tokens.1 = .error error → (source.scanned count).scan.1 = .error error := by
  fun_induction SourceText.tokens source with
  | case1 source error after scan =>
      refine ⟨0, ?_, ?_⟩
      · rw [scanned, scan]
      · intro other failed
        obtain rfl := Except.error.inj failed
        rw [scanned, scan]
  | case2 source token after scan more _ rest final recursion ih =>
      rw [recursion] at ih
      obtain ⟨count, same, fails⟩ := ih
      refine ⟨count + 1, ?_, ?_⟩
      · rw [scanned, scan]
        exact same
      · intro error failed
        rw [scanned, scan]
        cases rest with
        | ok others => simp [Except.map] at failed
        | error fault => exact fails error (by simpa [Except.map] using failed)
  | case3 source token after scan last =>
      refine ⟨0, ?_, ?_⟩
      · rw [scanned, scan]
      · intro error failed
        cases failed

theorem readsTo_tokens (source : SourceText) : ∃ read, source.ReadsTo read source.tokens.2 ∧
    (source.tokens.1.isOk = true ∨ read ≠ []) := by
  obtain ⟨count, same, fails⟩ := source.tokens_by_scans
  obtain ⟨early, reads⟩ := source.readsTo_scanned count
  obtain ⟨late, scans, found⟩ := (source.scanned count).readsTo_scan
  rw [same]
  refine ⟨early ++ late, reads.trans scans, ?_⟩
  cases answer : source.tokens.1 with
  | ok tokens => exact .inl rfl
  | error error =>
      right
      rcases found with ⟨token, isToken, _⟩ | some
      · rw [fails error answer] at isToken
        cases isToken
      · exact List.append_ne_nil_of_right_ne_nil _ some

theorem readsTo_next (source : SourceText) : ∃ read, source.ReadsTo read source.next.2 := by
  cases closed : source.closed with
  | true =>
      rw [next_of_closed closed]
      exact ⟨[], source.readsTo_refl⟩
  | false =>
      obtain ⟨read, reads, _⟩ := source.readsTo_scan
      rcases scan : source.scan with ⟨error | token, after⟩
      · rw [scan] at reads
        rw [next_of_fault closed scan]
        exact ⟨read, reads⟩
      · rw [scan] at reads
        rw [next_of_token closed scan]
        exact ⟨read, reads⟩

theorem readsTo_answer (source : SourceText) (call : Call) :
    ∃ read, source.ReadsTo read (source.answer call).2 ∧
      ((source.answer call).1.isOk = true ∨ read ≠ []) := by
  cases call with
  | pull =>
      obtain ⟨read, reads⟩ := source.readsTo_next
      exact ⟨read, reads, .inl rfl⟩
  | drain => exact source.readsTo_tokens

theorem failures_cons (answer : Except LexError (List Token))
    (answers : List (Except LexError (List Token))) :
    failures (answer :: answers) = failures answers + if answer.isOk then 0 else 1 := by
  rw [failures, List.countP_cons]
  cases answer.isOk <;> rfl

theorem readsTo_answers (source : SourceText) (calls : List Call) :
    ∃ read, source.ReadsTo read (source.answers calls).2 ∧
      failures (source.answers calls).1 ≤ read.length := by
  induction calls generalizing source with
  | nil => exact ⟨[], source.readsTo_refl, Nat.le_refl 0⟩
  | cons call calls ih =>
      obtain ⟨early, reads, found⟩ := source.readsTo_answer call
      obtain ⟨late, others, bound⟩ := ih (source.answer call).2
      refine ⟨early ++ late, reads.trans others, ?_⟩
      rw [answers, failures_cons, List.length_append]
      rcases found with ok | some
      · rw [if_pos ok]
        omega
      · have positive := List.length_pos_iff.mpr some
        split <;> omega

theorem exists_drained (source : SourceText) : ∃ count ≤ source.rest.length,
    (∀ answer ∈ (source.answers (List.replicate count .drain)).1, answer.isOk = false) ∧
    (source.answers (List.replicate count .drain)).2.tokens.1.isOk = true := by
  cases answer : source.tokens.1 with
  | ok tokens =>
      refine ⟨0, Nat.zero_le _, ?_, ?_⟩
      · intro other member
        cases member
      · exact congrArg Except.isOk answer
  | error error =>
      obtain ⟨read, reads, ok | some⟩ := source.readsTo_tokens
      · rw [answer] at ok
        cases ok
      · have shorter := reads.length_lt some
        obtain ⟨count, bound, failing, last⟩ := exists_drained source.tokens.2
        refine ⟨count + 1, by omega, ?_, ?_⟩
        · intro other member
          rcases List.mem_cons.mp member with rfl | later
          · exact congrArg Except.isOk answer
          · exact failing other later
        · exact last
termination_by source.rest.length

end Reading

section Standing

theorem stands_ofString (file text : String) : (ofString file text).Stands text.toList [] :=
  ⟨rfl, rfl⟩

theorem Stands.reads (stands : source.Stands text consumed) (reads : source.ReadsTo first after) :
    after.Stands text (consumed ++ first) := by
  constructor
  · rw [List.append_assoc, ← reads.1, stands.1]
  · rw [reads.2, stands.2, Position.behind_advance]

end Standing

end SourceText

open SourceText

/-- The place in a text is in order after all calls, faults or not, and after all scans that a call makes:
it is the one behind the characters that were consumed, of which there are never fewer later on.  A scan
that does not find the end of file consumes another one.  So whole readings fail only as often as there
are characters, and then one succeeds. -/
theorem stands_after_calls (file text : String) (calls : List Call) :
    let start := SourceText.ofString file text
    let failed := failures (start.answers calls).1
    (∀ count, let source := (start.answers calls).2.scanned count
      ∃ consumed, source.Stands text.toList consumed ∧ failed ≤ consumed.length ∧
        (∃ read, source.scan.2.Stands text.toList (consumed ++ read) ∧
          ((∃ token, source.scan.1 = .ok token ∧ token.kind = .fileEnd) ∨ read ≠ [])) ∧
        ∀ more, ∃ read, (source.answers more).2.Stands text.toList (consumed ++ read)) ∧
    ∃ more, failed + more ≤ text.length ∧
      let later := (start.answers calls).2.answers (List.replicate more .drain)
      (∀ answer ∈ later.1, answer.isOk = false) ∧ later.2.tokens.1.isOk = true := by
  intro start failed
  obtain ⟨consumed, reads, bound⟩ := start.readsTo_answers calls
  have stands := (stands_ofString file text).reads reads
  refine ⟨?_, ?_⟩
  · intro count source
    obtain ⟨scanned, scans⟩ := (start.answers calls).2.readsTo_scanned count
    have further := stands.reads scans
    refine ⟨_, further, ?_, ?_, ?_⟩
    · rw [List.nil_append, List.length_append]
      exact Nat.le_add_right_of_le bound
    · obtain ⟨read, onward, found⟩ := source.readsTo_scan
      exact ⟨read, further.reads onward, found⟩
    · intro more
      obtain ⟨read, onward, _⟩ := source.readsTo_answers more
      exact ⟨read, further.reads onward⟩
  · obtain ⟨more, fits, failing, last⟩ := (start.answers calls).2.exists_drained
    refine ⟨more, ?_, failing, last⟩
    have whole := congrArg List.length stands.1
    rw [List.nil_append, List.length_append, String.length_toList] at whole
    omega

/-- A text with a fault in each of its two lines. -/
theorem stands_after_calls_example :
    let start := SourceText.ofString "a.bgl" "#\n#"
    start.tokens.1 = .error ⟨.strayCharacter '#', ⟨1, 1⟩⟩ ∧
    (∃ consumed, (start.answers [.drain, .pull]).2.Stands "#\n#".toList consumed ∧
      failures (start.answers [.drain, .pull]).1 ≤ consumed.length) ∧
    ∃ more, 0 < more ∧ more ≤ 3 ∧
      let later := start.answers (List.replicate more .drain)
      start.tokens.1 ∈ later.1 ∧ start.tokens.1.isOk = false ∧ later.2.tokens.1.isOk = true := by
  intro start
  have fault : start.tokens.1 = .error ⟨.strayCharacter '#', ⟨1, 1⟩⟩ := by decide +kernel
  refine ⟨fault, ?_, ?_⟩
  · obtain ⟨consumed, stands, counted, _⟩ :=
      (stands_after_calls "a.bgl" "#\n#" [.drain, .pull]).1 0
    exact ⟨consumed, stands, counted⟩
  · obtain ⟨more, bound, failing, last⟩ := (stands_after_calls "a.bgl" "#\n#" []).2
    cases more with
    | zero =>
        have ok : start.tokens.1.isOk = true := last
        rw [fault] at ok
        cases ok
    | succ more =>
        have counted : failures (start.answers []).1 = 0 := rfl
        have length : "#\n#".length = 3 := by decide
        have first : start.tokens.1 ∈ (start.answers (List.replicate (more + 1) .drain)).1 :=
          List.mem_cons_self
        exact ⟨more + 1, Nat.succ_pos more, by omega, first, failing _ first, last⟩

end Beagle
