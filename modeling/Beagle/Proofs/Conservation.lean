import Beagle.Proofs.Isolation

/-!
Diagnostics are conserved.  Whatever is done with a session, and in whatever order, what was taken out of
it and what it still holds is what a listener was told, no more, no less and in the same order.
-/

namespace Beagle

namespace Notice

def severity? : Notice → Option Severity
  | .error _ => some .error
  | .warning _ => some .warning
  | _ => none

def lastStarted (notices : List Notice) : String :=
  notices.foldl (fun file notice => match notice with
    | .started name => name
    | _ => file) ""

def Tagged (notices : List Notice) : Prop :=
  ∀ front notice back, notices = front ++ notice :: back →
    ∀ diagnostic ∈ notice.diagnostic?, diagnostic.file = lastStarted front

theorem Tagged.push {notices : List Notice} {notice : Notice} (tagged : Tagged notices)
    (same : ∀ diagnostic ∈ notice.diagnostic?, diagnostic.file = lastStarted notices) :
    Tagged (notices ++ [notice]) := by
  intro front other back split
  rcases List.eq_nil_or_concat back with rfl | ⟨others, last, rfl⟩
  · obtain ⟨rfl, rfl⟩ := List.append_inj' split rfl |>.imp id List.singleton_inj.mp
    exact same
  · rw [List.concat_eq_append, ← List.cons_append, ← List.append_assoc] at split
    exact tagged front other others (List.append_inj' split rfl).1

theorem severity?_reported (diagnostic : Diagnostic) :
    (reported diagnostic).severity? = some diagnostic.severity := by
  rcases diagnostic with ⟨_ | _, _⟩ <;> rfl

theorem lastStarted_reported (notices : List Notice) (diagnostic : Diagnostic) :
    lastStarted (notices ++ [reported diagnostic]) = lastStarted notices := by
  rcases diagnostic with ⟨_ | _, _⟩ <;> simp [reported, lastStarted]

end Notice

open Notice

namespace Session

/-- The session names the file that was started last, and so does every diagnostic that was told; and
each was told through the callback of its severity. -/
structure Followed (session : Session) : Prop where
  file : session.file = lastStarted session.notices
  tagged : Tagged session.notices
  sorted : ∀ notice ∈ session.notices, notice.diagnostic?.map Diagnostic.severity = notice.severity?

/-- The session went from `before` to `after` while `batch` was taken out of it. -/
structure Step (before : Session) (batch : List Diagnostic) (after : Session) : Prop where
  conserved : ∃ more, batch ++ after.diagnostics = before.diagnostics ++ more ∧
    after.recorded = before.recorded ++ more
  followed : before.Followed → after.Followed

namespace Step

variable {before middle after : Session} {batch other : List Diagnostic}

theorem refl (session : Session) : session.Step [] session :=
  ⟨⟨[], by simp⟩, id⟩

theorem trans (first : before.Step batch middle) (second : middle.Step other after) :
    before.Step (batch ++ other) after := by
  obtain ⟨more, held, recorded⟩ := first.conserved
  obtain ⟨others, heldAfter, recordedAfter⟩ := second.conserved
  refine ⟨⟨more ++ others, ?_, ?_⟩, fun followed => second.followed (first.followed followed)⟩
  · rw [List.append_assoc, heldAfter, ← List.append_assoc, held, List.append_assoc]
  · rw [recordedAfter, recorded, List.append_assoc]

theorem ofNotice (notice : Notice) (told : after.notices = before.notices ++ [notice])
    (silent : notice.diagnostic? = none) (unsorted : notice.severity? = none)
    (held : after.diagnostics = before.diagnostics)
    (file : before.Followed → after.file = lastStarted (before.notices ++ [notice])) :
    before.Step [] after := by
  refine ⟨⟨[], ?_, ?_⟩, fun followed => ⟨?_, ?_, ?_⟩⟩
  · rw [held, List.nil_append, List.append_nil]
  · rw [recorded, told, List.filterMap_append, List.filterMap_cons_none silent, List.filterMap_nil]
    rfl
  · rw [told]
    exact file followed
  · rw [told]
    exact followed.tagged.push (by simp [silent])
  · rw [told, List.forall_mem_append, List.forall_mem_singleton, silent, unsorted]
    exact ⟨followed.sorted, rfl⟩

theorem ofBegin (session : Session) (file : String) : session.Step [] (session.begin file) := by
  refine .ofNotice (.started file) rfl rfl rfl rfl fun _ => ?_
  rw [lastStarted, List.foldl_concat]
  rfl

theorem ofFinish (session : Session) : session.Step [] session.finish := by
  refine .ofNotice (.finished session.file) rfl rfl rfl rfl fun followed => ?_
  rw [lastStarted, List.foldl_concat]
  exact followed.file

theorem ofTake (session : Session) : session.Step session.takeDiagnostics.1 session.takeDiagnostics.2 :=
  ⟨⟨[], by simp [takeDiagnostics], by simp [takeDiagnostics, recorded]⟩,
    fun followed => ⟨followed.file, followed.tagged, followed.sorted⟩⟩

theorem tagged_reports {file : String} (more : List Diagnostic)
    (same : ∀ diagnostic ∈ more, diagnostic.file = file) {notices : List Notice}
    (current : file = lastStarted notices) (tagged : Tagged notices) :
    file = lastStarted (notices ++ more.map reported) ∧ Tagged (notices ++ more.map reported) := by
  induction more generalizing notices with
  | nil => simpa using ⟨current, tagged⟩
  | cons diagnostic more ih =>
      obtain ⟨first, rest⟩ := List.forall_mem_cons.mp same
      rw [List.map_cons, List.append_cons]
      refine ih rest (current.trans (lastStarted_reported notices diagnostic).symm) (tagged.push ?_)
      rw [diagnostic?_reported]
      rintro _ ⟨⟩
      exact first.trans current

theorem ofContinues (continues : before.Continues after) : before.Step [] after := by
  obtain ⟨more, tags, diagnostics, notices⟩ := continues.reported
  refine ⟨⟨more, diagnostics, ?_⟩, fun followed => ?_⟩
  · rw [recorded, notices, List.filterMap_append, filterMap_reported]
    rfl
  · obtain ⟨current, tagged⟩ := tagged_reports more tags followed.file followed.tagged
    refine ⟨by rw [continues.file, notices, ← current], by rwa [notices], ?_⟩
    rw [notices, List.forall_mem_append, List.forall_mem_map]
    refine ⟨followed.sorted, fun diagnostic _ => ?_⟩
    rw [diagnostic?_reported, severity?_reported]
    rfl

end Step

end Session

inductive Operation : Type 1
  | begin (file : String)
  | finish
  | takeId
  | node (position : Position)
  | expected (found : Token) (kinds : List Kind)
  | error (position : Option Position) (complaint : Complaint)
  | warning (position : Option Position) (complaint : Complaint)
  | take
  | parse {σ : Type} [TokenSource σ] (tokens : Window σ) (file : String)
  | compile (settings : Settings) (file text : String)

def CompileError.batch : Except CompileError String → List Diagnostic
  | .error (.rejected diagnostics) => diagnostics
  | _ => []

def Operation.run (session : Session) : Operation → List Diagnostic × Session
  | .begin file => ([], session.begin file)
  | .finish => ([], session.finish)
  | .takeId => ([], session.takeId.2)
  | .node position => ([], (session.node position).2)
  | .expected found kinds => ([], session.reportExpected found kinds)
  | .error position complaint => ([], session.report .error position complaint)
  | .warning position complaint => ([], session.report .warning position complaint)
  | .take => session.takeDiagnostics
  | @parse _ _ tokens file => ([], (State.mk tokens session file).parse.2.session)
  | .compile settings file text =>
    let (result, session) := compileIn session settings file text
    (CompileError.batch result, session)

def Session.runAll (session : Session) : List Operation → List (List Diagnostic) × Session
  | [] => ([], session)
  | operation :: operations =>
    let (batch, session) := operation.run session
    let (batches, session) := session.runAll operations
    (batch :: batches, session)

namespace Session

theorem step_parse {σ : Type} [TokenSource σ] (state : State σ) :
    state.session.Step [] state.parse.2.session := by
  obtain ⟨middle, continues, isAfter⟩ := state.session_parse
  rw [isAfter]
  exact ((Step.ofBegin _ _).trans (.ofContinues continues)).trans (.ofFinish middle)

theorem step_compileIn (session : Session) (settings : Settings) (file text : String) :
    session.Step (CompileError.batch (compileIn session settings file text).1)
      (compileIn session settings file text).2 := by
  have parsed := step_parse (State.ofSource (SourceText.ofString file text) settings.lookahead session)
  rcases compileIn_cases session settings file text with ⟨_, ran⟩ | ⟨_, unit, _, ran⟩
  · rw [ran]
    exact parsed.trans (.ofTake _)
  · rw [ran]
    rcases unit.generate_cases settings with ⟨output, made⟩ | ⟨error, made⟩ <;> rw [made] <;> exact parsed

theorem step_run (session : Session) (operation : Operation) :
    session.Step (operation.run session).1 (operation.run session).2 := by
  cases operation with
  | begin file => exact .ofBegin session file
  | finish => exact .ofFinish session
  | takeId => exact .ofContinues (session.continues_node .start)
  | node position => exact .ofContinues (session.continues_node position)
  | expected found kinds => exact .ofContinues (session.continues_report _ _ _)
  | error position complaint => exact .ofContinues (session.continues_report _ _ _)
  | warning position complaint => exact .ofContinues (session.continues_report _ _ _)
  | take => exact .ofTake session
  | parse tokens file => exact step_parse ⟨tokens, session, file⟩
  | compile settings file text => exact session.step_compileIn settings file text

theorem step_runAll (session : Session) (operations : List Operation) :
    session.Step (session.runAll operations).1.flatten (session.runAll operations).2 := by
  induction operations generalizing session with
  | nil => exact .refl session
  | cons operation operations ih =>
      rw [runAll, List.flatten_cons]
      exact (session.step_run operation).trans (ih _)

def Brackets (file : String) (before after : Session) : Prop :=
  ∃ reports, after.notices = before.notices ++ [.started file] ++ reports ++ [.finished file] ∧
    ∀ notice ∈ reports, ∃ diagnostic, notice.diagnostic? = some diagnostic ∧ diagnostic.file = file

theorem brackets_parse {σ : Type} [TokenSource σ] (state : State σ) :
    Brackets state.file state.session state.parse.2.session := by
  obtain ⟨middle, continues, isAfter⟩ := state.session_parse
  obtain ⟨more, tags, _, notices⟩ := continues.reported
  refine ⟨more.map reported, ?_, ?_⟩
  · rw [isAfter, finish, notices, continues.file]
    rfl
  · intro notice member
    obtain ⟨diagnostic, told, rfl⟩ := List.mem_map.mp member
    exact ⟨diagnostic, diagnostic?_reported _, tags diagnostic told⟩

theorem brackets_compileIn (session : Session) (settings : Settings) (file text : String) :
    Brackets file session (compileIn session settings file text).2 := by
  have parsed := brackets_parse (State.ofSource (SourceText.ofString file text) settings.lookahead session)
  rcases compileIn_cases session settings file text with ⟨_, ran⟩ | ⟨_, unit, _, ran⟩ <;> rw [ran] <;>
    exact parsed

end Session

/-- Whatever is done with a session that begins empty: the batches taken out of it, one after the other,
and then what it still holds are all the diagnostics that a listener was told, each through the callback
for its severity and with the name of the file started last.  A parse or a compilation is heard of
between one start and one finish of its file, however it ends. -/
theorem diagnostics_conserved :
    (∀ operations : List Operation,
      let run := Session.empty.runAll operations
      let notices := run.2.notices
      run.1.flatten ++ run.2.diagnostics = notices.filterMap Notice.diagnostic? ∧
      (∀ notice ∈ notices, notice.diagnostic?.map Diagnostic.severity = notice.severity?) ∧
      Notice.Tagged notices) ∧
    (∀ (session : Session) {σ : Type} [TokenSource σ] (tokens : Window σ) (file : String),
      session.Brackets file ((Operation.parse tokens file).run session).2) ∧
    ∀ (session : Session) settings file text,
      session.Brackets file ((Operation.compile settings file text).run session).2 := by
  refine ⟨fun operations => ?_, ?_, Session.brackets_compileIn⟩
  · intro run notices
    obtain ⟨⟨more, held, recorded⟩, follows⟩ := Session.empty.step_runAll operations
    have begun : Session.empty.Followed :=
      ⟨rfl, by simp [Notice.Tagged, Session.empty], by simp [Session.empty]⟩
    have followed := follows begun
    exact ⟨held.trans recorded.symm, followed.sorted, followed.tagged⟩
  · intro session σ _ tokens file
    exact Session.brackets_parse ⟨tokens, session, file⟩

end Beagle
