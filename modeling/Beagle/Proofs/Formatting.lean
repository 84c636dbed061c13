import Beagle.Proofs.FailFast.Parse
import Beagle.Proofs.Likeness.Generation
import Beagle.Proofs.Likeness.Grammar
import Beagle.Proofs.Segmentation

/-!
Formatting does not matter.  Texts with the same tokens, wherever these stand, are compiled to the same
output or fail for the same reason, and only the places in their diagnostics and units differ.
-/

namespace Beagle

def Token.wording (token : Token) : Kind × String :=
  (token.kind, token.text)

theorem Token.map_masked_places {tokens others : List Token}
    (same : tokens.map Token.wording = others.map Token.wording) :
    tokens.map (Token.masked .places) = others.map (Token.masked .places) := by
  have rebuilt := congrArg (List.map fun wording => Token.mk wording.1 wording.2 .start) same
  rwa [List.map_map, List.map_map] at rebuilt

namespace SourceText

theorem text_of_next {source : SourceText} (last : source.next.1.kind = .fileEnd) :
    source.next.1.text = Kind.fileEnd.spelling := by
  unfold next at *
  by_cases closed : source.closed
  · simp [closed, Token.symbol]
  · simp only [closed, Bool.false_eq_true, if_false] at *
    split at last
    · rename_i token after scanned
      rcases scan_cases scanned with ⟨_, rfl⟩ | ⟨gap, lexeme, _, _, writes, _⟩
      · rfl
      · exact absurd last writes.kind_ne_fileEnd
    · simp at last

theorem text_ending (source : SourceText) :
    (TokenSource.ending source).text = Kind.fileEnd.spelling := by
  fun_induction TokenSource.ending source with
  | case1 source pulled last => exact text_of_next last
  | case2 source pulled more ih => exact ih

end SourceText

namespace Diagnostic

variable {mask : Mask}

theorem message_masked (diagnostic : Diagnostic) :
    (diagnostic.masked mask).message = diagnostic.message := by
  obtain ⟨severity, file, position, complaint⟩ := diagnostic
  cases complaint <;> rfl

variable {diagnostics others : List Diagnostic}
  (same : diagnostics.map (Diagnostic.masked mask) = others.map (Diagnostic.masked mask))

include same

theorem errorCount_of_masked : errorCount diagnostics = errorCount others := by
  have counted := congrArg errorCount same
  rwa [errorCount, errorCount, List.countP_map, List.countP_map] at counted

theorem messages_of_masked : diagnostics.map message = others.map message := by
  have messages := congrArg (List.map message) same
  simpa only [List.map_map, Function.comp_def, message_masked] using messages

end Diagnostic

theorem Comparison.map_eq_of_outcome {mask : Mask} {result other : Except Stop SourceUnit}
    (same : Stop.outcome mask (SourceUnit.masked mask) result =
      Stop.outcome mask (SourceUnit.masked mask) other)
    (attached : ∀ fault, result ≠ .error (.misattached fault)) :
    result.map (SourceUnit.masked mask) = other.map (SourceUnit.masked mask) := by
  rcases result with (_ | fault) | unit
  · rcases other with (_ | _) | _
    · rfl
    · cases same
    · cases same
  · exact absurd rfl (attached fault)
  · cases other with
    | error stop => cases same
    | ok image => exact congrArg Except.ok (Except.ok.inj same)

section Texts

variable {file first second : String}
  (same : (TokenSource.ahead (SourceText.ofString file first)).map Token.wording =
    (TokenSource.ahead (SourceText.ofString file second)).map Token.wording)
  (capacity : Nat) (session : Session)

include same

theorem alike_parse_of_wording :
    Stop.outcome .places (SourceUnit.masked .places)
        (State.ofSource (SourceText.ofString file first) capacity session).parse.1 =
      Stop.outcome .places (SourceUnit.masked .places)
        (State.ofSource (SourceText.ofString file second) capacity session).parse.1 ∧
    Comparison.Alike ⟨.places, session.diagnostics, session.diagnostics⟩
      (State.ofSource (SourceText.ofString file first) capacity session).parse.2
      (State.ofSource (SourceText.ofString file second) capacity session).parse.2 := by
  have alike : Comparison.Alike ⟨.places, session.diagnostics, session.diagnostics⟩
      (State.mk (Window.ofSource (SourceText.ofString file first) capacity) (session.begin file) file)
      (State.mk (Window.ofSource (SourceText.ofString file second) capacity) (session.begin file) file) := by
    refine ⟨?_, ?_, rfl, fun _ => rfl, [], [], by simp [Session.begin], by simp [Session.begin], rfl⟩
    · simpa [State.ahead] using Token.map_masked_places same
    · simp [State.ending, FileEnd.masked, SourceText.text_ending, Mask.places]
  exact Comparison.alike_parse (State.ofSource (SourceText.ofString file first) capacity session)
    (State.ofSource (SourceText.ofString file second) capacity session) rfl alike

theorem parse_masked_of_wording :
    (State.ofSource (SourceText.ofString file first) capacity session).parse.1.map
        (SourceUnit.masked .places) =
      (State.ofSource (SourceText.ofString file second) capacity session).parse.1.map
        (SourceUnit.masked .places) := by
  obtain ⟨ends, _⟩ := alike_parse_of_wording same capacity session
  exact Comparison.map_eq_of_outcome ends (State.parse_ne_misattached _)

theorem diagnostics_masked_of_wording :
    (State.ofSource (SourceText.ofString file first) capacity .empty).parse.2.session.diagnostics.map
        (Diagnostic.masked .places) =
      (State.ofSource (SourceText.ofString file second) capacity .empty).parse.2.session.diagnostics.map
        (Diagnostic.masked .places) := by
  obtain ⟨_, after⟩ := alike_parse_of_wording same capacity .empty
  obtain ⟨more, others, told, toldOther, sameTold⟩ := after.told
  rw [told, toldOther]
  exact sameTold

end Texts

/-- Texts that say the same, token by token, compile to the same output, fail for the same reason in
their classes, or are both rejected with diagnostics that differ only in where they point.  Whatever the
session, they are read as the same unit but for places. -/
theorem compile_ignores_formatting (settings : Settings) (file first second : String)
    (same : (TokenSource.ahead (SourceText.ofString file first)).map Token.wording =
      (TokenSource.ahead (SourceText.ofString file second)).map Token.wording) :
    ((∃ output, compile settings file first = .ok output ∧ compile settings file second = .ok output) ∨
      (∃ error, compile settings file first = .error (.inheritance error) ∧
        compile settings file second = .error (.inheritance error)) ∨
      ∃ diagnostics others, compile settings file first = .error (.rejected diagnostics) ∧
        compile settings file second = .error (.rejected others) ∧
        diagnostics.map (Diagnostic.masked .places) = others.map (Diagnostic.masked .places) ∧
        diagnostics.map Diagnostic.message = others.map Diagnostic.message) ∧
    ∀ session,
      (State.ofSource (SourceText.ofString file first) settings.lookahead session).parse.1.map
          (SourceUnit.masked .places) =
        (State.ofSource (SourceText.ofString file second) settings.lookahead session).parse.1.map
          (SourceUnit.masked .places) := by
  refine ⟨?_, parse_masked_of_wording same settings.lookahead⟩
  have told := diagnostics_masked_of_wording same settings.lookahead
  have errors := Diagnostic.errorCount_of_masked told
  rcases compileIn_cases .empty settings file first with ⟨wrong, ran⟩ | ⟨clean, unit, isUnit, ran⟩
  · rcases compileIn_cases .empty settings file second with ⟨_, ranOther⟩ | ⟨clean, _⟩
    · exact .inr (.inr ⟨_, _, congrArg Prod.fst ran, congrArg Prod.fst ranOther, told,
        Diagnostic.messages_of_masked told⟩)
    · rw [Session.hasErrors, Session.errorCount, errors] at wrong
      exact absurd wrong (Bool.eq_false_iff.mp clean)
  · rcases compileIn_cases .empty settings file second with ⟨wrong, _⟩ | ⟨_, other, isOther, ranOther⟩
    · rw [Session.hasErrors, Session.errorCount, ← errors] at wrong
      exact absurd wrong (Bool.eq_false_iff.mp clean)
    have generated := State.generate_eq_of_outcome
      (alike_parse_of_wording same settings.lookahead .empty).1 isUnit isOther settings
    rw [compile, compile, ran, ranOther]
    rcases unit.generate_cases settings with ⟨output, made⟩ | ⟨error, made⟩
    · exact .inl ⟨output, made, generated.symm.trans made⟩
    · exact .inr (.inl ⟨error, made, generated.symm.trans made⟩)

/-- The same mistake, once on a single line and once among comments and line breaks. -/
theorem compile_ignores_formatting_example :
    let first := "class A{var x,y=1}"
    let second := "/* A */class A\n\x7b // two\nvar x,y=1\x7d"
    ∃ diagnostics others, compile {} "a.bgl" first = .error (.rejected diagnostics) ∧
      compile {} "a.bgl" second = .error (.rejected others) ∧
      diagnostics.map Diagnostic.position = [some ⟨1, 9⟩] ∧
      diagnostics.map (Diagnostic.masked .places) = others.map (Diagnostic.masked .places) ∧
      diagnostics.map Diagnostic.message = others.map Diagnostic.message := by
  intro first second
  have same : (TokenSource.ahead (SourceText.ofString "a.bgl" first)).map Token.wording =
      (TokenSource.ahead (SourceText.ofString "a.bgl" second)).map Token.wording := by decide +kernel
  have rejected : compile {} "a.bgl" first =
      .error (.rejected [⟨.error, "a.bgl", some ⟨1, 9⟩, .initializerCount⟩]) := by decide +kernel
  rcases (compile_ignores_formatting {} "a.bgl" first second same).1 with
    ⟨output, accepted, _⟩ | ⟨error, failed, _⟩ | ⟨diagnostics, others, isFirst, isSecond, alike, messages⟩
  · cases rejected.symm.trans accepted
  · cases rejected.symm.trans failed
  · obtain rfl := CompileError.rejected.inj (Except.error.inj (rejected.symm.trans isFirst))
    exact ⟨_, others, isFirst, isSecond, rfl, alike, messages⟩

end Beagle
