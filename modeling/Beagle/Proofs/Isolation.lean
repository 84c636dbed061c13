import Beagle.Proofs.FailFast.Parse
import Beagle.Proofs.Likeness.Generation
import Beagle.Proofs.Likeness.Grammar

/-!
Compilations that share a session do not get in each other's way.  Ids go on from one parse to the next,
and what a session holds is returned with what is new; apart from that a text is compiled as in a session
of its own, and no error is left behind for the next one.
-/

namespace Beagle

theorem Diagnostic.map_masked_ids (diagnostics : List Diagnostic) :
    diagnostics.map (Diagnostic.masked .ids) = diagnostics := by
  refine List.map_id'' (fun diagnostic => ?_) diagnostics
  obtain ⟨severity, file, position, complaint⟩ := diagnostic
  cases position <;> cases complaint <;> rfl

namespace Notice

def diagnostic? : Notice → Option Diagnostic
  | .error diagnostic => some diagnostic
  | .warning diagnostic => some diagnostic
  | _ => none

@[simp] theorem diagnostic?_reported (diagnostic : Diagnostic) :
    (reported diagnostic).diagnostic? = some diagnostic := by
  rcases diagnostic with ⟨_ | _, _⟩ <;> rfl

theorem filterMap_reported (diagnostics : List Diagnostic) :
    (diagnostics.map reported).filterMap diagnostic? = diagnostics := by
  rw [List.filterMap_map]
  exact (List.filterMap_congr fun diagnostic _ => diagnostic?_reported diagnostic).trans
    List.filterMap_some

end Notice

namespace Session

/-- Everything that was ever reported in the session, also what somebody has taken. -/
def recorded (session : Session) : List Diagnostic :=
  session.notices.filterMap Notice.diagnostic?

theorem warnings_of_clean (session : Session) (clean : session.hasErrors = false) :
    ∀ diagnostic ∈ session.diagnostics, diagnostic.severity = .warning := by
  intro diagnostic member
  cases severity : diagnostic.severity with
  | warning => rfl
  | error =>
      have some : 0 < session.errorCount :=
        List.countP_pos_iff.mpr ⟨diagnostic, member, decide_eq_true severity⟩
      rw [hasErrors, decide_eq_false_iff_not] at clean
      exact absurd some clean

theorem hasErrors_append {session first second : Session}
    (all : session.diagnostics = first.diagnostics ++ second.diagnostics) :
    session.hasErrors = (first.hasErrors || second.hasErrors) := by
  rw [Bool.eq_iff_iff, Bool.or_eq_true, hasErrors, hasErrors, hasErrors, decide_eq_true_iff,
    decide_eq_true_iff, decide_eq_true_iff, errorCount, Diagnostic.errorCount, all, List.countP_append]
  exact Nat.add_pos_iff_pos_or_pos

end Session

section Parses

variable {σ : Type} [TokenSource σ] (source : σ) (capacity : Nat)

theorem recorded_parse :
    (State.ofSource source capacity .empty).parse.2.session.recorded =
      (State.ofSource source capacity .empty).parse.2.session.diagnostics := by
  obtain ⟨middle, continues, isAfter⟩ := (State.ofSource source capacity .empty).session_parse
  obtain ⟨more, _, diagnostics, notices⟩ := continues.reported
  have told : middle.diagnostics = more := diagnostics
  rw [isAfter, Session.recorded, Session.finish, notices, told, List.filterMap_append,
    List.filterMap_append, Notice.filterMap_reported]
  exact List.append_nil _

/-- A parse adds to what its session holds just what it records in a session of its own, and reads the
same unit up to ids. -/
theorem parse_apart (session : Session) :
    let together := (State.ofSource source capacity session).parse
    let alone := (State.ofSource source capacity .empty).parse
    together.2.session.diagnostics = session.diagnostics ++ alone.2.session.diagnostics ∧
      Stop.outcome .ids (SourceUnit.masked .ids) together.1 =
        Stop.outcome .ids (SourceUnit.masked .ids) alone.1 := by
  intro together alone
  let file := TokenStream.file source
  have alike : Comparison.Alike ⟨.ids, session.diagnostics, []⟩
      (State.mk (Window.ofSource source capacity) (session.begin file) file)
      (State.mk (Window.ofSource source capacity) (.begin .empty file) file) :=
    ⟨rfl, rfl, rfl, fun _ => rfl, [], [], by simp [Session.begin], rfl, rfl⟩
  obtain ⟨same, after⟩ := Comparison.alike_parse (State.ofSource source capacity session)
    (State.ofSource source capacity .empty) rfl alike
  obtain ⟨more, others, told, toldAlone, sameTold⟩ := after.told
  refine ⟨?_, same⟩
  change more.map (Diagnostic.masked .ids) = others.map (Diagnostic.masked .ids) at sameTold
  rw [Diagnostic.map_masked_ids, Diagnostic.map_masked_ids] at sameTold
  rw [told, toldAlone, sameTold]
  rfl

end Parses

section Compilations

variable (session : Session) (settings : Settings) (file text : String)

theorem compileIn_alone :
    let alone := compileIn .empty settings file text
    let parsed := (State.ofSource (SourceText.ofString file text) settings.lookahead .empty).parse
    alone.2.recorded = parsed.2.session.diagnostics ∧
      ((∃ diagnostics, alone.1 = .error (.rejected diagnostics)) ↔ parsed.2.session.hasErrors = true) := by
  intro alone parsed
  have recorded := recorded_parse (SourceText.ofString file text) settings.lookahead
  rcases compileIn_cases .empty settings file text with ⟨wrong, ran⟩ | ⟨clean, unit, _, ran⟩
  · refine ⟨?_, fun _ => wrong, fun _ => ⟨_, congrArg Prod.fst ran⟩⟩
    rw [show alone = _ from ran]
    exact recorded
  · refine ⟨?_, fun ⟨diagnostics, rejected⟩ => ?_, fun wrong => ?_⟩
    · rw [show alone = _ from ran]
      exact recorded
    · rw [show alone = _ from ran] at rejected
      exact absurd rejected (unit.generate_ne_rejected settings diagnostics)
    · exact absurd wrong (by simpa using clean)

theorem compileIn_apart :
    let parsed := (State.ofSource (SourceText.ofString file text) settings.lookahead .empty).parse.2.session
    let together := compileIn session settings file text
    let all := session.diagnostics ++ parsed.diagnostics
    ((session.hasErrors || parsed.hasErrors) = true ∧
      together.1 = .error (.rejected all) ∧ together.2.diagnostics = []) ∨
    ((session.hasErrors || parsed.hasErrors) = false ∧
      together.1 = compile settings file text ∧ together.2.diagnostics = all) := by
  intro parsed together all
  obtain ⟨told, same⟩ := parse_apart (SourceText.ofString file text) settings.lookahead session
  have errors := Session.hasErrors_append told
  rcases compileIn_cases session settings file text with ⟨wrong, ran⟩ | ⟨clean, unit, isUnit, ran⟩
  · refine .inl ⟨errors.symm.trans wrong, ?_⟩
    rw [show together = _ from ran, told]
    exact ⟨rfl, rfl⟩
  · have cleanBoth := errors.symm.trans clean
    refine .inr ⟨cleanBoth, ?_⟩
    rcases compileIn_cases .empty settings file text with ⟨wrong, _⟩ | ⟨_, other, isOther, ranAlone⟩
    · exact absurd wrong (Bool.eq_false_iff.mp (Bool.or_eq_false_iff.mp cleanBoth).2)
    rw [show together = _ from ran, compile, ranAlone]
    exact ⟨State.generate_eq_of_outcome same isUnit isOther settings, told⟩

end Compilations

structure Job where
  settings : Settings
  file : String
  text : String

def compileAll (session : Session) : List Job → List (Except CompileError String) × Session
  | [] => ([], session)
  | job :: jobs =>
    let (result, session) := compileIn session job.settings job.file job.text
    let (results, session) := compileAll session jobs
    (result :: results, session)

/-- The same result up to warnings that were held before. -/
def SameResult (result alone : Except CompileError String) : Prop :=
  result = alone ∨ ∃ warnings diagnostics : List Diagnostic,
    (∀ warning ∈ warnings, warning.severity = .warning) ∧
    alone = .error (.rejected diagnostics) ∧ result = .error (.rejected (warnings ++ diagnostics))

theorem compileIn_step {session : Session} (clean : session.hasErrors = false) (settings : Settings)
    (file text : String) :
    (compileIn session settings file text).2.hasErrors = false ∧
      SameResult (compileIn session settings file text).1 (compile settings file text) := by
  rcases compileIn_apart session settings file text with ⟨wrong, result, left⟩ | ⟨cleanBoth, result, left⟩
  · rw [clean, Bool.false_or] at wrong
    rcases compileIn_apart .empty settings file text with ⟨_, alone, _⟩ | ⟨cleanAlone, _⟩
    · refine ⟨?_, .inr ⟨session.diagnostics, _, session.warnings_of_clean clean, alone, result⟩⟩
      simp [Session.hasErrors, Session.errorCount, Diagnostic.errorCount, left]
    · exact absurd wrong (Bool.eq_false_iff.mp (Bool.or_eq_false_iff.mp cleanAlone).2)
  · exact ⟨(Session.hasErrors_append left).trans cleanBoth, .inl result⟩

theorem compileAll_steps {session : Session} (clean : session.hasErrors = false) (jobs : List Job) :
    (compileAll session jobs).2.hasErrors = false ∧
      List.Forall₂ (fun job result => SameResult result (compile job.settings job.file job.text)) jobs
        (compileAll session jobs).1 := by
  induction jobs generalizing session with
  | nil => exact ⟨clean, .nil⟩
  | cons job jobs ih =>
      obtain ⟨cleanAfter, same⟩ := compileIn_step clean job.settings job.file job.text
      obtain ⟨cleanEnd, others⟩ := ih cleanAfter
      exact ⟨cleanEnd, .cons same others⟩

/-- Compiling in a session that others have used.  If the session holds an error, or the text is rejected
on its own, all diagnostics are taken and returned; otherwise the result is that of the text on its own,
and its warnings are added to those held.  So in a session that begins empty no error is ever left
behind, and every text of a sequence fares as on its own. -/
theorem compileIn_isolated :
    (∀ session settings file text,
      let alone := compileIn .empty settings file text
      let together := compileIn session settings file text
      let all := session.diagnostics ++ alone.2.recorded
      (session.hasErrors = true ∨ (∃ diagnostics, alone.1 = .error (.rejected diagnostics)) →
        together.1 = .error (.rejected all) ∧ together.2.diagnostics = []) ∧
      (session.hasErrors = false → (∀ diagnostics, alone.1 ≠ .error (.rejected diagnostics)) →
        together.1 = alone.1 ∧ together.2.diagnostics = all)) ∧
    ∀ jobs, (compileAll .empty jobs).2.hasErrors = false ∧
      List.Forall₂ (fun job result => SameResult result (compile job.settings job.file job.text)) jobs
        (compileAll .empty jobs).1 := by
  refine ⟨?_, compileAll_steps rfl⟩
  intro session settings file text alone together all
  obtain ⟨recorded, rejected⟩ := compileIn_alone settings file text
  rw [rejected, ← Bool.or_eq_true, show all = _ from congrArg (session.diagnostics ++ ·) recorded]
  rcases compileIn_apart session settings file text with ⟨wrong, failed⟩ | ⟨clean, same⟩
  · refine ⟨fun _ => failed, fun held accepted => ?_⟩
    rw [held, Bool.false_or, ← rejected] at wrong
    exact (wrong.elim accepted).elim
  · exact ⟨fun wrong => absurd wrong (Bool.eq_false_iff.mp clean), fun _ _ => same⟩

end Beagle
