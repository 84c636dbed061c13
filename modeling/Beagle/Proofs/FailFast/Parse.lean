import Beagle.Compile
import Beagle.Proofs.FailFast.Grammar

/-!
No failure is silent.  A parse that fails reported an error, and stands where it reported it; and a
compilation fails for what was parsed only if there is an error to show.
-/

namespace Beagle

open Spelling

namespace State

variable {σ : Type} [TokenSource σ]

theorem session_parse (state : State σ) :
    ∃ middle, (state.session.begin state.file).Continues middle ∧
      state.parse.2.session = middle.finish := by
  let started := { state with session := state.session.begin state.file }
  have leads := (Grammar.unit state.file).leads started
  exact ⟨((Grammar.unit state.file).run started).2.session, leads.session, rfl⟩

theorem parse_stops {state : State σ} {stop : Stop} (stopped : state.parse.1 = .error stop) :
    stop = .reported ∧
      (state.Blames state.parse.2 ∨ state.Miscounts upToMember state.parse.2) := by
  cases stop with
  | misattached fault => exact absurd stopped (state.parse_ne_misattached fault)
  | reported =>
      have fails := Grammar.failsFast_unit state.file
        { state with session := state.session.begin state.file } _ (Prod.ext stopped rfl)
      exact ⟨rfl, fails⟩

theorem head_of_parse {state : State σ} {unit : SourceUnit} (parsed : state.parse.1 = .ok unit) :
    state.parse.2.head.kind = .fileEnd := by
  obtain ⟨_, ended, _⟩ :=
    (Grammar.meets_unit state.file).answers unit _ (Prod.ext parsed rfl)
  exact head_kind_of_nil ended

end State

theorem Session.exists_error {session : Session} (some : session.hasErrors = true) :
    ∃ diagnostic ∈ session.diagnostics, diagnostic.severity = .error := by
  obtain ⟨diagnostic, member, isError⟩ := List.countP_pos_iff.mp (of_decide_eq_true some)
  exact ⟨diagnostic, member, of_decide_eq_true isError⟩

theorem SourceUnit.generate_cases (unit : SourceUnit) (settings : Settings) :
    (∃ output, unit.generate settings = .ok output) ∨
      ∃ error, unit.generate settings = .error (.inheritance error) := by
  unfold generate
  split
  · cases unit.layout settings.header with
    | error error => exact .inr ⟨error, rfl⟩
    | ok output => exact .inl ⟨output, rfl⟩
  · exact .inl ⟨_, rfl⟩

theorem SourceUnit.generate_ne_rejected (unit : SourceUnit) (settings : Settings)
    (diagnostics : List Diagnostic) : unit.generate settings ≠ .error (.rejected diagnostics) := by
  intro rejected
  rcases unit.generate_cases settings with ⟨_, made⟩ | ⟨_, made⟩ <;>
    cases made.symm.trans rejected

theorem compileIn_cases (session : Session) (settings : Settings) (file text : String) :
    let state := State.ofSource (SourceText.ofString file text) settings.lookahead session
    let after := state.parse.2.session
    (after.hasErrors = true ∧ compileIn session settings file text =
      (.error (.rejected after.diagnostics), { after with diagnostics := [] })) ∨
    (after.hasErrors = false ∧ ∃ unit, state.parse.1 = .ok unit ∧
      compileIn session settings file text = (unit.generate settings, after)) := by
  intro state after
  simp only [compileIn]
  cases parsed : state.parse.1 with
  | error stop =>
      obtain ⟨rfl, _⟩ := State.parse_stops parsed
      have told : state.errors < after.errorCount := (Grammar.unit _).tells _ parsed
      exact .inl ⟨decide_eq_true (Nat.zero_lt_of_lt told), rfl⟩
  | ok unit =>
      cases wrong : after.hasErrors with
      | true => exact .inl ⟨rfl, rfl⟩
      | false => exact .inr ⟨rfl, unit, rfl, rfl⟩

theorem error_of_rejected {settings : Settings} {file text : String} {diagnostics : List Diagnostic}
    (rejected : compile settings file text = .error (.rejected diagnostics)) :
    ∃ diagnostic ∈ diagnostics, diagnostic.severity = .error := by
  rcases compileIn_cases .empty settings file text with ⟨wrong, ran⟩ | ⟨_, unit, _, ran⟩
  · rw [compile, ran] at rejected
    cases rejected
    exact Session.exists_error wrong
  · rw [compile, ran] at rejected
    exact absurd rejected (unit.generate_ne_rejected settings diagnostics)

/-- A parse that fails told why, last of all: at the token where it stands, or, for a field whose
initial values are not as many as its names, at the first token of that field.  A parse that succeeds
stands at the end of file. -/
theorem parse_fails_fast {σ : Type} [TokenSource σ] (state : State σ) :
    (∀ stop, state.parse.1 = .error stop → ∃ earlier last,
      state.parse.2.session.diagnostics = state.session.diagnostics ++ earlier ++ [last] ∧
      last.severity = .error ∧
      if last.complaint = .initializerCount then ∃ front field,
        state.ahead = front ++ field ++ state.parse.2.ahead ∧
        front ∈ upToMember ∧ field ∈ miscounted ∧ last.position = field.head?.map Token.position
      else last.position = some state.parse.2.head.position) ∧
    (∀ unit, state.parse.1 = .ok unit → state.parse.2.head.kind = .fileEnd) ∧
    ∀ settings file text diagnostics, compile settings file text = .error (.rejected diagnostics) →
      ∃ diagnostic ∈ diagnostics, diagnostic.severity = .error := by
  refine ⟨fun stop stopped => ?_, fun _ parsed => State.head_of_parse parsed,
    fun _ _ _ _ rejected => error_of_rejected rejected⟩
  rcases (State.parse_stops stopped).2 with ⟨last, ⟨error, earlier, all⟩, complaint, position⟩ |
    ⟨last, front, field, ⟨error, earlier, all⟩, complaint, spelled⟩
  · exact ⟨earlier, last, all, error, by rwa [if_neg complaint]⟩
  · refine ⟨earlier, last, all, error, ?_⟩
    rw [if_pos complaint]
    exact ⟨front, field, spelled⟩

/-- A second field with one value for two names. -/
theorem parse_fails_fast_example :
    let state := State.ofSource (SourceText.ofString "a.bgl" "class A{const z=0 var x,y=1}") 1 .empty
    ∃ stop front field, state.parse.1 = .error stop ∧
      state.ahead = front ++ field ++ state.parse.2.ahead ∧ front ∈ upToMember ∧ field ∈ miscounted ∧
      some ⟨1, 19⟩ = field.head?.map Token.position := by
  intro state
  have ran : state.parse.1.isOk = false ∧
      state.parse.2.session.diagnostics =
        [⟨.error, "a.bgl", some ⟨1, 19⟩, .initializerCount⟩] := by decide +kernel
  match stopped : state.parse.1 with
  | .ok unit => simp [stopped, Except.isOk, Except.toBool] at ran
  | .error stop =>
      obtain ⟨earlier, last, all, _, blamed⟩ := (parse_fails_fast state).1 stop stopped
      rw [ran.2] at all
      obtain rfl := Option.some.inj ((congrArg List.getLast? all).trans List.getLast?_concat)
      obtain ⟨front, field, ahead, place, offends, position⟩ := blamed
      exact ⟨stop, front, field, rfl, ahead, place, offends, position⟩

end Beagle
