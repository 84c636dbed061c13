import Beagle.Proofs.RuleLogic

/-!
Failing fast.  A strict rule answers only if nothing was wrong, and otherwise stops right at the token
that it reported: nothing is used up behind it and nothing is reported after it.
-/

namespace Beagle

namespace State

variable {σ : Type} [TokenSource σ]

def Told (before after : State σ) (last : Diagnostic) : Prop :=
  last.severity = .error ∧
    ∃ earlier, after.session.diagnostics = before.session.diagnostics ++ earlier ++ [last]

def Blames (before after : State σ) : Prop :=
  ∃ last, before.Told after last ∧ last.complaint ≠ .initializerCount ∧
    last.position = some after.head.position

theorem Told.after {first before after : State σ} {last : Diagnostic} (leads : first.Leads before)
    (told : before.Told after last) : first.Told after last := by
  obtain ⟨more, _, diagnostics, _⟩ := leads.session.reported
  obtain ⟨error, earlier, all⟩ := told
  exact ⟨error, more ++ earlier, by simp [all, diagnostics]⟩

theorem Blames.after {first before after : State σ} (leads : first.Leads before)
    (blames : before.Blames after) : first.Blames after := by
  obtain ⟨last, told, complaint, position⟩ := blames
  exact ⟨last, told.after leads, complaint, position⟩

end State

namespace Rule

variable {σ : Type} [TokenSource σ] {α β γ : Type}
variable {rule : Rule σ α} {next : α → Rule σ β}

theorem answered_of_bind {state after : State σ} {result : β}
    (ran : (rule >>= next).run state = (.ok result, after)) :
    ∃ value middle, rule.run state = (.ok value, middle) ∧
      (next value).run middle = (.ok result, after) := by
  rw [run_bind] at ran
  split at ran
  · rename_i value middle ranFirst
    exact ⟨value, middle, ranFirst, ran⟩
  · simp at ran

theorem stopped_of_bind {state after : State σ}
    (stopped : (rule >>= next).run state = (.error .reported, after)) :
    rule.run state = (.error .reported, after) ∨
      ∃ value middle, rule.run state = (.ok value, middle) ∧
        (next value).run middle = (.error .reported, after) := by
  rw [run_bind] at stopped
  split at stopped
  · rename_i value middle ranFirst
    exact .inr ⟨value, middle, ranFirst, stopped⟩
  · rename_i stop middle ranFirst
    simp only [Prod.mk.injEq, Except.error.injEq] at stopped
    obtain ⟨rfl, rfl⟩ := stopped
    exact .inl ranFirst

theorem stopped_of_bind_pure {state after : State σ} {wrap : α → β}
    (stopped : (rule >>= fun value => pure (wrap value)).run state = (.error .reported, after)) :
    rule.run state = (.error .reported, after) := by
  rcases stopped_of_bind stopped with early | ⟨value, middle, ran, late⟩
  · exact early
  · simp at late

def Quiet (rule : Rule σ α) : Prop :=
  ∀ state value after, rule.run state = (.ok value, after) → after.errors = state.errors

/-- The rule reports an error only to stop at the token that it reported. -/
structure Strict (rule : Rule σ α) : Prop where
  quiet : rule.Quiet
  blames : ∀ state after, rule.run state = (.error .reported, after) → state.Blames after

theorem Quiet.bind (first : rule.Quiet) (second : ∀ value, (next value).Quiet) :
    (rule >>= next).Quiet := by
  intro state result after ran
  obtain ⟨value, middle, ranFirst, ranNext⟩ := answered_of_bind ran
  exact (second value middle result after ranNext).trans (first state value middle ranFirst)

theorem Strict.bind (first : rule.Strict) (second : ∀ value, (next value).Strict) :
    (rule >>= next).Strict := by
  refine ⟨first.quiet.bind fun value => (second value).quiet, ?_⟩
  intro state after stopped
  rcases stopped_of_bind stopped with early | ⟨value, middle, ran, late⟩
  · exact first.blames state after early
  · exact ((second value).blames middle after late).after (leads_of_run ran)

theorem Strict.passed {first state after : State σ} (strict : rule.Strict) (leads : first.Leads state)
    (innocent : ¬ first.Blames after) (stopped : (rule >>= next).run state = (.error .reported, after)) :
    ∃ value middle, rule.run state = (.ok value, middle) ∧ middle.errors = state.errors ∧
      first.Leads middle ∧ (next value).run middle = (.error .reported, after) := by
  rcases stopped_of_bind stopped with early | ⟨value, middle, ran, late⟩
  · exact absurd ((strict.blames state after early).after leads) innocent
  · exact ⟨value, middle, ran, strict.quiet state value middle ran, leads.trans (leads_of_run ran), late⟩

theorem strict_of_yields
    (yields : ∀ state : State σ, rule.Yields state fun _ after => after.errors = state.errors) :
    rule.Strict := by
  constructor
  · intro state value after ran
    exact (yields state).meets.answers value after ran
  · intro state after stopped
    obtain ⟨value, final, ran, _⟩ := yields state
    rw [ran] at stopped
    simp at stopped

theorem quiet_refuse (position : Position) (complaint : Complaint) :
    (refuse position complaint : Rule σ α).Quiet := by
  intro state value after ran
  simp [refuse] at ran

theorem strict_pure (value : α) : (pure value : Rule σ α).Strict :=
  strict_of_yields fun _ => yields_pure rfl

theorem strict_current : (current : Rule σ Token).Strict :=
  strict_of_yields fun _ => yields_current.mono fun _ _ _ ⟨_, same⟩ => same.still.errors

theorem strict_check (kind : Kind) : (check kind : Rule σ Bool).Strict :=
  strict_current.bind fun _ => strict_pure _

theorem strict_startsWith (kinds : List Kind) : (startsWith kinds : Rule σ Bool).Strict :=
  strict_of_yields fun _ => ⟨_, _, rfl, rfl⟩

theorem strict_discard (count : Nat) : (discard count : Rule σ Unit).Strict :=
  strict_of_yields fun _ => ⟨_, _, rfl, rfl⟩

theorem strict_node : (node : Rule σ NodeInfo).Strict :=
  strict_of_yields fun _ => yields_node.mono fun _ _ _ ⟨_, _, _, errors, _⟩ => errors

theorem strict_takeWhen (choose : Token → Option α) : (takeWhen choose : Rule σ (Option α)).Strict := by
  refine strict_of_yields fun state => ?_
  unfold Yields takeWhen
  simp only [State.peek_zero]
  split <;> exact ⟨_, _, rfl, rfl⟩

theorem strict_assemble (part : Assembly α) : (assemble part : Rule σ α).Strict := by
  constructor
  · intro state value after ran
    exact congrArg State.errors (congrArg Prod.snd ran).symm
  · intro state after stopped
    cases part with
    | ok value => cases stopped
    | error fault => cases stopped

theorem blames_report {state : State σ} (window : Window σ) {found : Token} {complaint : Complaint}
    (ahead : window.ahead = state.ahead) (ending : window.ending = state.ending)
    (other : complaint ≠ .initializerCount) (here : found.position = state.head.position) :
    state.Blames { state with
      tokens := window
      session := state.session.report .error (some found.position) complaint } := by
  refine ⟨⟨.error, state.session.file, some found.position, complaint⟩, ⟨rfl, [], ?_⟩, other, ?_⟩
  · simp [Session.report]
  · rw [here, State.head, State.head, State.ahead, State.ending, State.ahead, State.ending, ahead, ending]
    rfl

theorem strict_refuseExpected (kinds : List Kind) : (refuseExpected kinds : Rule σ α).Strict := by
  constructor
  · intro state value after ran
    simp [refuseExpected] at ran
  · intro state after stopped
    obtain rfl : ⟨_, _, _⟩ = after := congrArg Prod.snd stopped
    exact blames_report _ (state.tokens.ahead_peek 0) (state.tokens.ending_peek 0) (by simp)
      (congrArg Token.position state.peek_zero)

theorem strict_expect (kind : Kind) : (expect kind : Rule σ Token).Strict := by
  refine (strict_takeWhen _).bind fun taken => ?_
  cases taken with
  | none => exact strict_refuseExpected _
  | some token => exact strict_pure token

theorem strict_accept (kind : Kind) : (accept kind : Rule σ Bool).Strict :=
  (strict_takeWhen _).bind fun _ => strict_pure _

theorem strict_whenNext (kind : Kind) (strict : rule.Strict) : (whenNext kind rule).Strict := by
  refine (strict_check kind).bind fun found => ?_
  cases found with
  | false => exact strict_pure none
  | true => exact strict.bind fun _ => strict_pure _

theorem strict_after (kind : Kind) (strict : rule.Strict) : (after kind rule).Strict := by
  refine (strict_accept kind).bind fun accepted => ?_
  cases accepted with
  | false => exact strict_pure none
  | true => exact strict.bind fun _ => strict_pure _

section Repetition

variable {step : Rule σ (Option α)} {progress : step.ConsumesWhen fun item => item.isSome}

theorem stops_collect (post : State σ → State σ → Prop)
    (stops : ∀ state after, step.run state = (.error .reported, after) → post state after)
    (round : ∀ state item middle after, step.run state = (.ok (some item), middle) → post middle after →
      post state after)
    {state after : State σ} (stopped : (collect step progress).run state = (.error .reported, after)) :
    post state after := by
  simp only [collect] at stopped
  fun_induction collectRun step progress state with
  | case1 state stop middle ran =>
      simp only [Prod.mk.injEq, Except.error.injEq] at stopped
      obtain ⟨rfl, rfl⟩ := stopped
      exact stops state middle ran
  | case2 state middle ran => simp at stopped
  | case3 state item middle ran shorter items final rest ih =>
      cases items with
      | ok items => simp [Except.map] at stopped
      | error stop =>
          simp only [Except.map, Prod.mk.injEq, Except.error.injEq] at stopped
          obtain ⟨rfl, rfl⟩ := stopped
          exact round state item middle final ran (ih rest)

theorem strict_collect (strict : step.Strict) : (collect step progress).Strict := by
  constructor
  · intro state items after ran
    simp only [collect] at ran
    fun_induction collectRun step progress state generalizing items with
    | case1 state stop middle stopped => simp at ran
    | case2 state middle ended =>
        simp only [Prod.mk.injEq, Except.ok.injEq] at ran
        obtain ⟨rfl, rfl⟩ := ran
        exact strict.quiet state none middle ended
    | case3 state item middle ranStep shorter others final rest ih =>
        cases others with
        | error stop => simp [Except.map] at ran
        | ok others =>
            simp only [Except.map, Prod.mk.injEq, Except.ok.injEq] at ran
            obtain ⟨rfl, rfl⟩ := ran
            exact (ih others rest).trans (strict.quiet state (some item) middle ranStep)
  · intro state after
    exact stops_collect State.Blames strict.blames fun state item middle after ran blames =>
      blames.after (leads_of_run ran)

variable {turn : β → Rule σ (β ⊕ γ)}
variable {advance : ∀ value, (turn value).ConsumesWhen fun next => next.isLeft}

theorem stops_loop (post : State σ → State σ → Prop)
    (stops : ∀ value state after, (turn value).run state = (.error .reported, after) → post state after)
    (round : ∀ value state next middle after, (turn value).run state = (.ok (.inl next), middle) →
      post middle after → post state after)
    {value : β} {state after : State σ}
    (stopped : (loop turn advance value).run state = (.error .reported, after)) : post state after := by
  simp only [loop] at stopped
  fun_induction loopRun turn advance value state with
  | case1 value state stop middle ran =>
      simp only [Prod.mk.injEq, Except.error.injEq] at stopped
      obtain ⟨rfl, rfl⟩ := stopped
      exact stops value state middle ran
  | case2 value state result middle ran => simp at stopped
  | case3 value state next middle ran shorter ih =>
      exact round value state next middle after ran (ih stopped)

theorem strict_loop (strict : ∀ value, (turn value).Strict) (value : β) :
    (loop turn advance value).Strict := by
  constructor
  · intro state result after ran
    simp only [loop] at ran
    fun_induction loopRun turn advance value state with
    | case1 value state stop middle stopped => simp at ran
    | case2 value state result middle ended =>
        simp only [Prod.mk.injEq, Except.ok.injEq] at ran
        obtain ⟨rfl, rfl⟩ := ran
        exact (strict value).quiet state _ middle ended
    | case3 value state next middle ranTurn shorter ih =>
        exact (ih ran).trans ((strict value).quiet state _ middle ranTurn)
  · intro state after
    exact stops_loop State.Blames (fun value => (strict value).blames)
      fun value state next middle after ran blames => blames.after (leads_of_run ran)

theorem strict_commaSeparated (strict : rule.Strict) : (commaSeparated rule).Strict :=
  strict.bind fun _ => (strict_collect (strict_after _ strict)).bind fun _ => strict_pure _

end Repetition

end Rule

end Beagle
