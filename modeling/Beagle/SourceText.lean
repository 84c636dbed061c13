import Beagle.Lexeme
import Beagle.Token.Source

/-!
Source texts being read as tokens.  Reading never goes back: after a token or a fault it goes on behind
what was read.
-/

namespace Beagle

structure LexError where
  fault : LexFault
  position : Position
deriving DecidableEq

namespace LexError

def message (error : LexError) : String :=
  error.fault.message

def text (error : LexError) : String :=
  s!"Lexer error at line {error.position.line}, column {error.position.column}: {error.message}"

end LexError

structure SourceText where
  file : String
  rest : List Char
  position : Position
  closed : Bool

namespace SourceText

def ofString (file text : String) : SourceText :=
  ⟨file, text.toList, .start, false⟩

def skip (source : SourceText) (count : Nat) : SourceText :=
  { source with
    rest := source.rest.drop count
    position := source.position.advance (source.rest.take count) }

def scan (source : SourceText) : Except LexError Token × SourceText :=
  match Gap.reach source.rest with
  | .unclosed opener =>
    (.error ⟨.unclosedComment, (source.skip opener).position⟩, source.skip source.rest.length)
  | .closed gap =>
    let source := source.skip gap
    match Lexeme.read? source.rest with
    | none => (.ok (.symbol .fileEnd source.position), source)
    | some (.token kind text length) => (.ok ⟨kind, text, source.position⟩, source.skip length)
    | some (.fault fault blame length) =>
      (.error ⟨fault, (source.skip blame).position⟩, source.skip length)

theorem length_skip_le (source : SourceText) (count : Nat) :
    (source.skip count).rest.length ≤ source.rest.length := by
  simp [skip]

theorem length_skip_lt {source : SourceText} {count : Nat} (positive : 0 < count)
    (unread : source.rest ≠ []) : (source.skip count).rest.length < source.rest.length := by
  have := List.length_pos_iff.mpr unread
  simp only [skip, List.length_drop]
  omega

theorem length_scan_lt {source after : SourceText} {token : Token}
    (scanned : source.scan = (.ok token, after)) (more : token.kind ≠ .fileEnd) :
    after.rest.length < source.rest.length := by
  unfold scan at scanned
  split at scanned
  · simp at scanned
  · rename_i gap _
    have shorter := length_skip_le source gap
    simp only at scanned
    split at scanned
    · simp only [Prod.mk.injEq, Except.ok.injEq] at scanned
      exact absurd (congrArg Token.kind scanned.1.symm) more
    · rename_i kind text length found
      simp only [Prod.mk.injEq, Except.ok.injEq] at scanned
      rw [← scanned.2]
      refine Nat.lt_of_lt_of_le (length_skip_lt (Lexeme.read?_length_pos found) ?_) shorter
      intro empty
      rw [empty] at found
      simp [Lexeme.read?] at found
    · simp at scanned

def tokens (source : SourceText) : Except LexError (List Token) × SourceText :=
  match scanned : source.scan with
  | (.error error, after) => (.error error, after)
  | (.ok token, after) =>
    if more : token.kind ≠ .fileEnd then
      have := length_scan_lt scanned more
      let (rest, final) := after.tokens
      (rest.map (token :: ·), final)
    else (.ok [token], after)
termination_by source.rest.length

/-- Pulls one token.  A fault is pulled as an invalid token and closes the text, and so does the end
of file. -/
def next (source : SourceText) : Token × SourceText :=
  if source.closed then (.symbol .fileEnd source.position, source)
  else match source.scan with
    | (.ok token, after) => (token, { after with closed := token.kind = .fileEnd })
    | (.error error, after) => (⟨.invalid, error.message, error.position⟩, { after with closed := true })

def remaining (source : SourceText) : Nat :=
  if source.closed then 0 else source.rest.length + 1

theorem remaining_next (source : SourceText) (more : source.next.1.kind ≠ .fileEnd) :
    source.next.2.remaining < source.remaining := by
  unfold next at *
  split at more
  · exact absurd rfl more
  · rename_i unclosed
    simp only [unclosed, Bool.false_eq_true, if_false, remaining] at *
    split at more
    · rename_i token after scanned
      have := length_scan_lt scanned more
      simp_all
    · simp_all

instance : TokenSource SourceText where
  next := next
  file := file
  remaining := remaining
  remaining_next := remaining_next

end SourceText

end Beagle
