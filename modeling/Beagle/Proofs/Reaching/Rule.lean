import Beagle.Proofs.Acceptance.Rule
import Beagle.Proofs.FailFast.Rule
import Beagle.Proofs.Progress

/-!
Rules inside of rules.  Behind tokens that it accepts, a rule comes to run another one, and from there on
it is that rule and what it goes on with.  So it stops where the inner rule stops, and what the inner rule
answers can be found in its own answers.
-/

namespace Beagle

open Spelling

theorem Session.Continues.warnings {before after : Session} (continues : before.Continues after)
    (same : after.errorCount = before.errorCount) : ∃ warnings : List Diagnostic,
      (∀ warning ∈ warnings, warning.severity = .warning) ∧
        after.diagnostics = before.diagnostics ++ warnings := by
  obtain ⟨more, _, diagnostics, _⟩ := continues.reported
  refine ⟨more, fun diagnostic member => ?_, diagnostics⟩
  have none : more.countP Diagnostic.isError = 0 := by
    simpa [errorCount, Diagnostic.errorCount, diagnostics] using same
  have noError := List.countP_eq_zero.mp none diagnostic member
  cases severity : diagnostic.severity with
  | warning => rfl
  | error => simp [Diagnostic.isError, severity] at noError

namespace Rule

variable {σ : Type} [TokenSource σ] {α β γ : Type}

def Gives (rule : Rule σ α) (post : α → Prop) : Prop :=
  ∀ state value after, rule.run state = (.ok value, after) → post value

/-- Wherever the rule has these tokens ahead it comes to run `inner` with `rest` ahead, and no error was
reported by then.  It answers so that `kept` holds of the answer of `inner` and of its own. -/
def Reaches (rule : Rule σ α) (tokens : List Token) (inner : Rule σ β) (rest : List Token)
    (kept : β → α → Prop) : Prop :=
  ∀ state : State σ, state.ahead = tokens → ∃ (middle : State σ) (next : β → Rule σ α),
    rule.run state = (inner >>= next).run middle ∧ (∀ value, (next value).Gives (kept value)) ∧
      middle.ahead = rest ∧ state.Leads middle ∧ middle.errors = state.errors

/-- The rule has no answer at these tokens.  It reports this error and nothing else, and uses up no
token. -/
def Refuses (rule : Rule σ α) (tokens : List Token) (position : Position) (complaint : Complaint) : Prop :=
  ∀ state : State σ, state.ahead = tokens → ∃ after, rule.run state = (.error .reported, after) ∧
    after.ahead = tokens ∧ after.session.diagnostics =
      state.session.diagnostics ++ [⟨.error, state.session.file, some position, complaint⟩]

variable {rule : Rule σ α} {next : α → Rule σ γ} {inner : Rule σ β} {tokens rest : List Token}
variable {post : α → List Token → Prop} {kept : β → α → Prop}

theorem gives_pure {value : α} {post : α → Prop} (holds : post value) :
    (pure value : Rule σ α).Gives post :=
  fun _ => answers_pure holds

theorem gives_refuse (position : Position) (complaint : Complaint) {post : α → Prop} :
    (refuse position complaint : Rule σ α).Gives post :=
  fun _ => (meets_refuse position complaint).answers

theorem gives_assemble {part : Assembly α} {post : α → Prop}
    (holds : ∀ value, part = .ok value → post value) : (assemble part : Rule σ α).Gives post :=
  fun _ => answers_assemble holds

theorem Gives.bind {middle : α → Prop} {post : γ → Prop} (first : rule.Gives middle)
    (second : ∀ value, middle value → (next value).Gives post) : (rule >>= next).Gives post :=
  fun state => Answers.bind (first state) fun value after _ holds => second value holds after

theorem gives_bind {post : γ → Prop} (second : ∀ value, (next value).Gives post) :
    (rule >>= next).Gives post :=
  fun _ => answers_any.bind fun value after _ _ => second value after

theorem reaches_self : rule.Reaches tokens rule tokens Eq := by
  intro state ahead
  refine ⟨state, pure, ?_, fun value => gives_pure rfl, ahead, .refl state, rfl⟩
  rw [bind_pure]

theorem Reaches.bind {wider : β → γ → Prop} (reaches : rule.Reaches tokens inner rest kept)
    (keeps : ∀ value answer, kept value answer → (next answer).Gives (wider value)) :
    (rule >>= next).Reaches tokens inner rest wider := by
  intro state ahead
  obtain ⟨middle, onward, ran, gives, place⟩ := reaches state ahead
  refine ⟨middle, fun value => onward value >>= next, ?_, fun value => ?_, place⟩
  · rw [run_bind, ran, ← run_bind, bind_assoc]
  · exact (gives value).bind fun answer holds => keeps value answer holds

theorem Accepts.reaches {wider : β → γ → Prop} (accepts : rule.Accepts tokens post)
    (reaches : ∀ value left, post value left → (next value).Reaches left inner rest wider) :
    (rule >>= next).Reaches tokens inner rest wider := by
  intro state ahead
  obtain ⟨value, after, ran, holds, clean⟩ := accepts state ahead
  obtain ⟨middle, onward, ranNext, gives, place, leads, still⟩ := reaches value _ holds after rfl
  refine ⟨middle, onward, ?_, gives, place, (leads_of_run ran).trans leads, still.trans clean⟩
  rw [run_bind, ran]
  exact ranNext

theorem Reaches.stops (reaches : rule.Reaches tokens inner rest kept) {position : Position}
    {complaint : Complaint} (refuses : inner.Refuses rest position complaint) {state : State σ}
    (ahead : state.ahead = tokens) : ∃ after warnings, rule.run state = (.error .reported, after) ∧
      after.ahead = rest ∧ (∀ warning ∈ warnings, warning.severity = .warning) ∧
      after.session.diagnostics = state.session.diagnostics ++ warnings ++
        [⟨.error, state.session.file, some position, complaint⟩] := by
  obtain ⟨middle, onward, ran, _, place, leads, still⟩ := reaches state ahead
  obtain ⟨after, stopped, unmoved, told⟩ := refuses middle place
  obtain ⟨warnings, harmless, before⟩ := leads.session.warnings still
  refine ⟨after, warnings, ?_, unmoved, harmless, ?_⟩
  · rw [ran, run_bind, stopped]
  · rw [told, before, leads.session.file]

theorem Reaches.keeps (reaches : rule.Reaches tokens inner rest kept) {answers : β → Prop}
    (yields : ∀ middle : State σ, middle.ahead = rest → inner.Yields middle fun value _ => answers value)
    {state after : State σ} (ahead : state.ahead = tokens) {result : α}
    (ran : rule.run state = (.ok result, after)) : ∃ value, answers value ∧ kept value result := by
  obtain ⟨middle, onward, same, gives, place, _⟩ := reaches state ahead
  obtain ⟨value, between, answered, holds⟩ := yields middle place
  rw [same, run_bind, answered] at ran
  exact ⟨value, holds, gives value between result after ran⟩

section Repetition

variable {step : Rule σ (Option α)} {progress : step.ConsumesWhen fun item => item.isSome}

def InSome (kept : β → α → Prop) (value : β) (items : List α) : Prop :=
  ∃ item ∈ items, kept value item

theorem reaches_collect_here
    (reaches : step.Reaches tokens inner rest fun value answer =>
      ∃ item, answer = some item ∧ kept value item) :
    (collect step progress).Reaches tokens inner rest (InSome kept) := by
  rw [collect_eq]
  refine reaches.bind ?_
  rintro value _ ⟨item, rfl, keeps⟩
  exact gives_bind fun items => gives_pure ⟨item, List.mem_cons_self, keeps⟩

theorem reaches_collect_later
    (goes : step.Accepts tokens fun answer left => ∃ item, answer = some item ∧
      (collect step progress).Reaches left inner rest (InSome kept)) :
    (collect step progress).Reaches tokens inner rest (InSome kept) := by
  rw [collect_eq]
  refine goes.reaches ?_
  rintro _ left ⟨item, rfl, reaches⟩
  refine reaches.bind ?_
  rintro value items ⟨found, member, keeps⟩
  exact gives_pure ⟨found, List.mem_cons_of_mem _ member, keeps⟩

theorem reaches_collect {text : α → Language Token} (agrees : List Token → List Token → Prop)
    (follow : List Token → Prop)
    (goes : ∀ item tokens rest start, tokens ∈ text item → agrees start (tokens ++ rest) → follow rest →
      step.Accepts start fun answer left => ∃ value, answer = some value ∧ agrees left rest)
    (follows : ∀ item tokens rest, tokens ∈ text item → follow (tokens ++ rest)) {behind : List Token}
    (reaches : ∀ start, agrees start behind → step.Reaches start inner rest fun value answer =>
      ∃ item, answer = some item ∧ kept value item)
    (followed : follow behind) {items : List α} (spells : tokens ∈ (items.map text).prod)
    {start : List Token} (agree : agrees start (tokens ++ behind)) :
    (collect step progress).Reaches start inner rest (InSome kept) := by
  induction items generalizing tokens start with
  | nil =>
      obtain rfl : tokens = [] := spells
      exact reaches_collect_here (reaches start agree)
  | cons item items ih =>
      obtain ⟨first, spellsFirst, others, spellsOthers, rfl⟩ := Language.mem_mul.mp spells
      rw [List.append_assoc] at agree
      have next : follow (others ++ behind) := by
        cases items with
        | nil =>
            obtain rfl : others = [] := spellsOthers
            exact followed
        | cons second items =>
            obtain ⟨_, spellsSecond, _, _, rfl⟩ := Language.mem_mul.mp spellsOthers
            rw [List.append_assoc]
            exact follows second _ _ spellsSecond
      refine reaches_collect_later ((goes item first _ start spellsFirst agree next).mono ?_)
      rintro _ left ⟨value, rfl, agreeLeft⟩
      exact ⟨value, rfl, ih spellsOthers agreeLeft⟩

end Repetition

theorem reaches_whenNext {kind : Kind} (found : nextKind tokens = kind)
    (reaches : rule.Reaches tokens inner rest kept) :
    (whenNext kind rule).Reaches tokens inner rest fun value answer =>
      ∃ item, answer = some item ∧ kept value item := by
  refine (accepts_check kind).reaches ?_
  rintro _ _ ⟨rfl, rfl⟩
  rw [decide_eq_true found]
  exact reaches.bind fun value item keeps => gives_pure ⟨item, rfl, keeps⟩

theorem reaches_after {kind : Kind} {sign : List Token} (more : kind ≠ .fileEnd)
    (isSign : sign ∈ word kind) (reaches : rule.Reaches tokens inner rest kept) :
    (after kind rule).Reaches (sign ++ tokens) inner rest fun value answer =>
      ∃ item, answer = some item ∧ kept value item := by
  refine (accepts_accept_true more isSign).reaches ?_
  rintro _ _ ⟨rfl, rfl⟩
  exact reaches.bind fun value item keeps => gives_pure ⟨item, rfl, keeps⟩

end Rule

end Beagle
