import Beagle.Grammar.Rule

/-!
Repetition of rules.  A loop asks for a proof that every round that is followed by another one uses up
a token.
-/

namespace Beagle.Rule

variable {σ : Type} [TokenSource σ] {α β γ : Type}

/-- The rule uses up a token whenever its answer is `good`. -/
def ConsumesWhen (rule : Rule σ α) (good : α → Prop) : Prop :=
  ∀ state value after, rule.run state = (.ok value, after) → good value → after.left < state.left

def Consumes (rule : Rule σ α) : Prop :=
  rule.ConsumesWhen fun _ => True

theorem consumesWhen_pure {value : α} {good : α → Prop} (bad : ¬ good value) :
    (pure value : Rule σ α).ConsumesWhen good := by
  intro state value after ran accepted
  simp only [run_pure, Prod.mk.injEq, Except.ok.injEq] at ran
  exact absurd (ran.1 ▸ accepted) bad

theorem Consumes.when {rule : Rule σ α} (consumes : rule.Consumes) (good : α → Prop) :
    rule.ConsumesWhen good :=
  fun state value after ran _ => consumes state value after ran trivial

theorem ConsumesWhen.bind {rule : Rule σ α} {next : α → Rule σ β} {good : β → Prop}
    {early : α → Prop} (first : rule.ConsumesWhen early)
    (second : ∀ value, ¬ early value → (next value).ConsumesWhen good) :
    (rule >>= next).ConsumesWhen good := by
  intro state result final ran accepted
  rw [run_bind] at ran
  split at ran
  · rename_i value after ranFirst
    have shorter := (leads_of_run ranFirst).left_le
    have shorterNext := (leads_of_run ran).left_le
    by_cases used : early value
    · exact Nat.lt_of_le_of_lt shorterNext (first state value after ranFirst used)
    · exact Nat.lt_of_lt_of_le (second value used after result final ran accepted) shorter
  · simp at ran

theorem consumesWhen_bind_of_first {rule : Rule σ α} {next : α → Rule σ β} {good : β → Prop}
    (first : rule.Consumes) : (rule >>= next).ConsumesWhen good :=
  first.bind fun _ unused => absurd trivial unused

theorem consumesWhen_bind_of_second {rule : Rule σ α} {next : α → Rule σ β} {good : β → Prop}
    (second : ∀ value, (next value).ConsumesWhen good) : (rule >>= next).ConsumesWhen good :=
  ConsumesWhen.bind (fun _ _ _ _ never => absurd never not_false)
    fun value _ => second value

theorem consumesWhen_takeWhen {choose : Token → Option α}
    (ends : ∀ token, token.kind = .fileEnd → choose token = none) :
    (takeWhen choose : Rule σ (Option α)).ConsumesWhen fun taken => taken.isSome := by
  intro state value after ran taken
  simp only [takeWhen, State.peek_zero] at ran
  split at ran
  · rename_i chosen
    have more : state.head.kind ≠ .fileEnd := by
      intro last
      simp [ends _ last] at chosen
    have some := congrArg List.length (State.ahead_eq_cons more)
    simp only [Prod.mk.injEq] at ran
    rw [← ran.2]
    simp only [State.left, Window.left, Window.ahead_discard, Window.ahead_peek, State.ahead] at *
    simp only [List.length_drop, List.length_cons] at *
    omega
  · simp only [Prod.mk.injEq, Except.ok.injEq] at ran
    simp [← ran.1] at taken

theorem consumes_refuseExpected (kinds : List Kind) :
    (refuseExpected kinds : Rule σ α).Consumes := by
  intro state value after ran
  simp [refuseExpected] at ran

theorem consumes_expect {kind : Kind} (more : kind ≠ .fileEnd) :
    (expect kind : Rule σ Token).Consumes := by
  refine (consumesWhen_takeWhen fun token last => by simp [last, more.symm]).bind ?_
  intro taken absent
  cases taken with
  | none => exact consumes_refuseExpected _
  | some token => simp at absent

theorem consumesWhen_accept {kind : Kind} (more : kind ≠ .fileEnd) :
    (accept kind : Rule σ Bool).ConsumesWhen fun accepted => accepted = true := by
  refine (consumesWhen_takeWhen fun token last => by simp [last, more.symm]).bind ?_
  intro taken absent
  exact consumesWhen_pure (by simpa using absent)

theorem consumesWhen_attempt {rule : Rule σ α} (consumes : rule.Consumes) :
    rule.attempt.ConsumesWhen fun answer => answer.isSome := by
  intro state value after ran answered
  simp only [attempt] at ran
  split at ran
  · rename_i answer final ranRule
    simp only [Prod.mk.injEq] at ran
    exact ran.2 ▸ consumes state answer final ranRule trivial
  · simp only [Prod.mk.injEq, Except.ok.injEq] at ran
    simp [← ran.1] at answered
  · simp at ran

def collectRun (step : Rule σ (Option α)) (progress : step.ConsumesWhen fun item => item.isSome)
    (state : State σ) : Except Stop (List α) × State σ :=
  match ran : step.run state with
  | (.error stop, after) => (.error stop, after)
  | (.ok none, after) => (.ok [], after)
  | (.ok (some item), after) =>
    have := progress state (some item) after ran rfl
    let (items, final) := collectRun step progress after
    (items.map (item :: ·), final)
termination_by state.left

theorem leads_collectRun (step : Rule σ (Option α))
    (progress : step.ConsumesWhen fun item => item.isSome) (state : State σ) :
    state.Leads (collectRun step progress state).2 := by
  fun_induction collectRun step progress state with
  | case1 state stop after ran => exact leads_of_run ran
  | case2 state after ran => exact leads_of_run ran
  | case3 state item after ran shorter items final rest ih =>
      rw [rest] at ih
      exact (leads_of_run ran).trans ih

theorem tells_collectRun (step : Rule σ (Option α))
    (progress : step.ConsumesWhen fun item => item.isSome) (state : State σ)
    (stopped : (collectRun step progress state).1 = .error .reported) :
    state.errors < (collectRun step progress state).2.errors := by
  fun_induction collectRun step progress state with
  | case1 state stop after ran =>
      simp only [Except.error.injEq] at stopped
      exact errors_lt_of_run (stopped ▸ ran)
  | case2 state after ran => simp at stopped
  | case3 state item after ran shorter items final rest ih =>
      rw [rest] at ih
      refine Nat.lt_of_le_of_lt (leads_of_run ran).errors_le (ih ?_)
      cases items with
      | ok items => simp [Except.map] at stopped
      | error stop => simpa [Except.map] using stopped

def collect (step : Rule σ (Option α)) (progress : step.ConsumesWhen fun item => item.isSome) :
    Rule σ (List α) where
  run := collectRun step progress
  leads := leads_collectRun step progress
  tells := tells_collectRun step progress

def loopRun (step : β → Rule σ (β ⊕ γ))
    (progress : ∀ value, (step value).ConsumesWhen fun next => next.isLeft)
    (value : β) (state : State σ) : Except Stop γ × State σ :=
  match ran : (step value).run state with
  | (.error stop, after) => (.error stop, after)
  | (.ok (.inr result), after) => (.ok result, after)
  | (.ok (.inl next), after) =>
    have := progress value state (.inl next) after ran rfl
    loopRun step progress next after
termination_by state.left

theorem leads_loopRun (step : β → Rule σ (β ⊕ γ))
    (progress : ∀ value, (step value).ConsumesWhen fun next => next.isLeft)
    (value : β) (state : State σ) : state.Leads (loopRun step progress value state).2 := by
  fun_induction loopRun step progress value state with
  | case1 value state stop after ran => exact leads_of_run ran
  | case2 value state result after ran => exact leads_of_run ran
  | case3 value state next after ran shorter ih => exact (leads_of_run ran).trans ih

theorem tells_loopRun (step : β → Rule σ (β ⊕ γ))
    (progress : ∀ value, (step value).ConsumesWhen fun next => next.isLeft)
    (value : β) (state : State σ)
    (stopped : (loopRun step progress value state).1 = .error .reported) :
    state.errors < (loopRun step progress value state).2.errors := by
  fun_induction loopRun step progress value state with
  | case1 value state stop after ran =>
      simp only [Except.error.injEq] at stopped
      exact errors_lt_of_run (stopped ▸ ran)
  | case2 value state result after ran => simp at stopped
  | case3 value state next after ran shorter ih =>
      exact Nat.lt_of_le_of_lt (leads_of_run ran).errors_le (ih stopped)

def loop (step : β → Rule σ (β ⊕ γ))
    (progress : ∀ value, (step value).ConsumesWhen fun next => next.isLeft)
    (value : β) : Rule σ γ where
  run := loopRun step progress value
  leads := leads_loopRun step progress value
  tells := tells_loopRun step progress value

theorem consumesWhen_whenNext {kind : Kind} {rule : Rule σ α} (consumes : rule.Consumes) :
    (whenNext kind rule).ConsumesWhen fun answer => answer.isSome := by
  refine consumesWhen_bind_of_second fun found => ?_
  cases found with
  | false => exact consumesWhen_pure (by simp)
  | true => exact consumesWhen_bind_of_first consumes

theorem consumesWhen_after {kind : Kind} (more : kind ≠ .fileEnd) (rule : Rule σ α) :
    (after kind rule).ConsumesWhen fun answer => answer.isSome := by
  refine (consumesWhen_accept more).bind ?_
  intro accepted absent
  simp only [absent, if_false]
  exact consumesWhen_pure (by simp)

def commaSeparated (item : Rule σ α) : Rule σ (List α) := do
  let first ← item
  let rest ← collect (after (.mark .comma) item) (consumesWhen_after (by simp) item)
  return first :: rest

end Beagle.Rule
