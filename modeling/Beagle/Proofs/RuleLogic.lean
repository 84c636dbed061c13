import Beagle.Grammar.Repeat

/-!
Reasoning about rules from the state they start in.  `Answers` says what holds of every answer; `Meets`
says besides that no node is attached twice on the way; `Yields` says that there is an answer.  All follow
a rule through its steps, and what a step does is said in terms of the tokens ahead and of the session
only, never of what a window happens to hold.
-/

namespace Beagle

namespace State

variable {σ : Type} [TokenSource σ]

structure Same (before after : State σ) : Prop where
  ahead : after.ahead = before.ahead
  ending : after.ending = before.ending
  session : after.session = before.session
  file : after.file = before.file

structure Took (before : State σ) (token : Token) (after : State σ) : Prop where
  ahead : before.ahead = token :: after.ahead
  ending : after.ending = before.ending
  session : after.session = before.session
  file : after.file = before.file

structure Still (before after : State σ) : Prop where
  ahead : after.ahead = before.ahead
  errors : after.errors = before.errors
  nextId : after.session.nextId = before.session.nextId

theorem Same.still {before after : State σ} (same : before.Same after) : before.Still after :=
  ⟨same.ahead, congrArg Session.errorCount same.session, congrArg Session.nextId same.session⟩

theorem Still.trans {first second third : State σ} (early : first.Still second)
    (late : second.Still third) : first.Still third :=
  ⟨late.ahead.trans early.ahead, late.errors.trans early.errors, late.nextId.trans early.nextId⟩

theorem Same.refl (state : State σ) : state.Same state := ⟨rfl, rfl, rfl, rfl⟩

theorem Same.head {before after : State σ} (same : before.Same after) : after.head = before.head := by
  rw [State.head, State.head, same.ahead, same.ending]

theorem same_peek (state : State σ) (offset : Nat) :
    state.Same { state with tokens := (state.tokens.peek offset).2 } :=
  ⟨state.tokens.ahead_peek offset, state.tokens.ending_peek offset, rfl, rfl⟩

theorem head_of_ahead {state : State σ} {token : Token} {rest : List Token}
    (ahead : state.ahead = token :: rest) : state.head = token := by
  simp [head, ahead]

theorem head_kind_of_nil {state : State σ} (ahead : state.ahead = []) :
    state.head.kind = .fileEnd := by
  simp [head, ahead]

theorem ahead_of_head_kind {state : State σ} (last : state.head.kind = .fileEnd) :
    state.ahead = [] := by
  cases ahead : state.ahead with
  | nil => rfl
  | cons token rest =>
      have member : token ∈ state.tokens.ahead := by
        rw [← State.ahead, ahead]
        exact List.mem_cons_self
      have more := Window.kind_of_mem_ahead member
      rw [head_of_ahead ahead] at last
      exact absurd last more

theorem took_discard {state : State σ} (more : state.head.kind ≠ .fileEnd) (window : Window σ)
    (ahead : window.ahead = state.ahead) (ending : window.ending = state.ending) :
    state.Took state.head { state with tokens := window.discard 1 } := by
  refine ⟨?_, ?_, rfl, rfl⟩
  · have dropped : (window.discard 1).ahead = state.ahead.drop 1 := by
      rw [Window.ahead_discard, ahead]
    exact (ahead_eq_cons more).trans (congrArg (state.head :: ·) dropped.symm)
  · exact (window.ending_discard 1).trans ending

end State

namespace Rule

variable {σ : Type} [TokenSource σ] {α β γ : Type}

def Answers (rule : Rule σ α) (state : State σ) (post : α → State σ → Prop) : Prop :=
  ∀ value after, rule.run state = (.ok value, after) → post value after

/-- From `state` on the rule attaches no node twice, and each of its answers satisfies `post`. -/
structure Meets (rule : Rule σ α) (state : State σ) (post : α → State σ → Prop) : Prop where
  attaches : ∀ fault, (rule.run state).1 ≠ .error (.misattached fault)
  answers : ∀ value after, rule.run state = (.ok value, after) → post value after

def Yields (rule : Rule σ α) (state : State σ) (post : α → State σ → Prop) : Prop :=
  ∃ value after, rule.run state = (.ok value, after) ∧ post value after

def Either (ended : State σ → Prop) (went : α → State σ → Prop) : Option α → State σ → Prop
  | none => ended
  | some item => went item

variable {rule : Rule σ α} {next : α → Rule σ β} {state : State σ}
variable {middle : α → State σ → Prop} {post : β → State σ → Prop}

theorem answers_any : rule.Answers state fun _ _ => True :=
  fun _ _ _ => trivial

theorem Answers.mono {weaker : α → State σ → Prop} (answers : rule.Answers state middle)
    (implies : ∀ value after, state.Leads after → middle value after → weaker value after) :
    rule.Answers state weaker :=
  fun value after ran => implies value after (leads_of_run ran) (answers value after ran)

theorem Answers.bind (first : rule.Answers state middle)
    (second : ∀ value after, state.Leads after → middle value after → (next value).Answers after post) :
    (rule >>= next).Answers state post := by
  intro result final ran
  rw [run_bind] at ran
  split at ran
  · rename_i value after ranFirst
    exact second value after (leads_of_run ranFirst) (first value after ranFirst) result final ran
  · simp at ran

theorem answers_pure {value : α} (holds : middle value state) :
    (pure value : Rule σ α).Answers state middle := by
  intro other after ran
  obtain ⟨rfl, rfl⟩ : value = other ∧ state = after := by simpa using ran
  exact holds

theorem answers_assemble {part : Assembly α} (holds : ∀ value, part = .ok value → middle value state) :
    (assemble part : Rule σ α).Answers state middle := by
  intro value after ran
  cases part with
  | error fault => cases ran
  | ok made =>
      cases ran
      exact holds _ rfl

theorem Yields.meets (yields : rule.Yields state middle) : rule.Meets state middle := by
  obtain ⟨value, after, ran, holds⟩ := yields
  constructor
  · intro fault failed
    rw [ran] at failed
    simp at failed
  · intro other final ranOther
    rw [ran] at ranOther
    simp only [Prod.mk.injEq, Except.ok.injEq] at ranOther
    exact ranOther.1 ▸ ranOther.2 ▸ holds

theorem Yields.answers (yields : rule.Yields state middle) : rule.Answers state middle :=
  yields.meets.answers

theorem Meets.mono {weaker : α → State σ → Prop} (meets : rule.Meets state middle)
    (implies : ∀ value after, state.Leads after → middle value after → weaker value after) :
    rule.Meets state weaker :=
  ⟨meets.attaches, fun value after ran =>
    implies value after (leads_of_run ran) (meets.answers value after ran)⟩

theorem Yields.mono {weaker : α → State σ → Prop} (yields : rule.Yields state middle)
    (implies : ∀ value after, state.Leads after → middle value after → weaker value after) :
    rule.Yields state weaker := by
  obtain ⟨value, after, ran, holds⟩ := yields
  exact ⟨value, after, ran, implies value after (leads_of_run ran) holds⟩

theorem Yields.and {more : α → State σ → Prop} (yields : rule.Yields state middle)
    (meets : rule.Meets state more) :
    rule.Yields state fun value after => middle value after ∧ more value after := by
  obtain ⟨value, after, ran, holds⟩ := yields
  exact ⟨value, after, ran, holds, meets.answers value after ran⟩

theorem Meets.bind (first : rule.Meets state middle)
    (second : ∀ value after, state.Leads after → middle value after → (next value).Meets after post) :
    (rule >>= next).Meets state post := by
  constructor
  · intro fault failed
    rw [run_bind] at failed
    split at failed
    · rename_i value after ran
      exact (second value after (leads_of_run ran) (first.answers value after ran)).attaches fault failed
    · rename_i stop after ran
      exact first.attaches fault (by rw [ran]; simpa using failed)
  · exact Answers.bind first.answers fun value after leads holds => (second value after leads holds).answers

theorem Yields.bind (first : rule.Yields state middle)
    (second : ∀ value after, state.Leads after → middle value after → (next value).Yields after post) :
    (rule >>= next).Yields state post := by
  obtain ⟨value, after, ran, holds⟩ := first
  obtain ⟨result, final, ranNext, done⟩ := second value after (leads_of_run ran) holds
  refine ⟨result, final, ?_, done⟩
  rw [run_bind, ran]
  exact ranNext

theorem yields_pure {value : α} (holds : middle value state) :
    (pure value : Rule σ α).Yields state middle :=
  ⟨value, state, rfl, holds⟩

theorem meets_pure {value : α} (holds : middle value state) :
    (pure value : Rule σ α).Meets state middle :=
  (yields_pure holds).meets

theorem yields_assemble {part : Assembly α} {value : α} (built : part = .ok value)
    (holds : middle value state) : (assemble part : Rule σ α).Yields state middle := by
  subst built
  exact ⟨value, state, rfl, holds⟩

theorem meets_refuse (position : Position) (complaint : Complaint) :
    (refuse position complaint : Rule σ α).Meets state middle := by
  constructor <;> simp [refuse]

theorem meets_refuseExpected (kinds : List Kind) :
    (refuseExpected kinds : Rule σ α).Meets state middle := by
  constructor <;> simp [refuseExpected]

theorem yields_current : (current : Rule σ Token).Yields state fun token after =>
    token = state.head ∧ state.Same after :=
  ⟨_, _, rfl, state.peek_zero, state.same_peek 0⟩

theorem yields_check (kind : Kind) : (check kind : Rule σ Bool).Yields state fun found after =>
    (found = true ↔ state.head.kind = kind) ∧ state.Same after := by
  refine yields_current.bind fun token after _ ⟨found, same⟩ => yields_pure ⟨?_, same⟩
  simp [found]

theorem yields_takeWhen (choose : Token → Option α)
    (ends : ∀ token, token.kind = .fileEnd → choose token = none) :
    (takeWhen choose : Rule σ (Option α)).Yields state fun taken after =>
      taken = choose state.head ∧
        if taken.isSome then state.Took state.head after else state.Same after := by
  unfold Yields takeWhen
  simp only [State.peek_zero]
  cases chosen : choose state.head with
  | none => exact ⟨_, _, rfl, rfl, by simpa using state.same_peek 0⟩
  | some value =>
      have more : state.head.kind ≠ .fileEnd := by
        intro last
        simp [ends _ last] at chosen
      exact ⟨_, _, rfl, rfl, State.took_discard more _ (state.tokens.ahead_peek 0)
        (state.tokens.ending_peek 0)⟩

theorem yields_accept {kind : Kind} (more : kind ≠ .fileEnd) :
    (accept kind : Rule σ Bool).Yields state fun accepted after =>
      if accepted then state.head.kind = kind ∧ state.Took state.head after
      else state.head.kind ≠ kind ∧ state.Same after := by
  refine (yields_takeWhen _ fun token last => by simp [last, more.symm]).bind ?_
  rintro taken after _ ⟨chosen, moved⟩
  refine yields_pure ?_
  by_cases found : state.head.kind = kind
  · simp only [found, if_true] at chosen
    subst chosen
    exact ⟨found, moved⟩
  · simp only [found, if_false] at chosen
    subst chosen
    exact ⟨found, moved⟩

theorem meets_expect {kind : Kind} (more : kind ≠ .fileEnd) :
    (expect kind : Rule σ Token).Meets state fun token after =>
      token.kind = kind ∧ state.Took token after := by
  refine (yields_takeWhen _ fun token last => by simp [last, more.symm]).meets.bind ?_
  rintro taken after _ ⟨chosen, moved⟩
  split at chosen
  · rename_i found
    subst chosen
    exact meets_pure ⟨found, moved⟩
  · subst chosen
    exact meets_refuseExpected _

theorem yields_startsWith {first second : Kind} (more : first ≠ .fileEnd)
    (moreSecond : second ≠ .fileEnd) :
    (startsWith [first, second] : Rule σ Bool).Yields state fun found after =>
      (found = true ↔ ∃ one two rest, state.ahead = one :: two :: rest ∧
        one.kind = first ∧ two.kind = second) ∧ state.Same after := by
  have looked : (startsWith [first, second] : Rule σ Bool).run state =
      (.ok (state.tokens.matchesFrom 0 [first, second]).1,
        { state with tokens := (state.tokens.matchesFrom 0 [first, second]).2 }) := rfl
  refine ⟨_, _, looked, ?_, state.tokens.ahead_matchesFrom 0 _, state.tokens.ending_matchesFrom 0 _, rfl, rfl⟩
  rw [Window.matchesFrom_iff]
  change _ ↔ ∃ one two rest, state.tokens.ahead = one :: two :: rest ∧ _
  constructor
  · intro all
    have one := all 0 first rfl
    have two := all 1 second rfl
    match ahead : state.tokens.ahead with
    | [] => exact absurd (by simpa [ahead] using one.symm) more
    | [_] => exact absurd (by simpa [ahead] using two.symm) moreSecond
    | one :: two :: rest => exact ⟨one, two, rest, rfl, by simp_all⟩
  · rintro ⟨one, two, rest, ahead, found, foundSecond⟩ index kind wanted
    match index with
    | 0 => simp_all
    | 1 => simp_all
    | _ + 2 => simp at wanted

theorem yields_discard (count : Nat) : (discard count : Rule σ Unit).Yields state fun _ after =>
    after.ahead = state.ahead.drop count ∧ after.ending = state.ending ∧
      after.session = state.session :=
  ⟨_, _, rfl, state.tokens.ahead_discard count, state.tokens.ending_discard count, rfl⟩

theorem yields_node : (node : Rule σ NodeInfo).Yields state fun info after =>
    info = .fresh state.session.nextId state.head.position ∧ after.ahead = state.ahead ∧
      after.ending = state.ending ∧ after.errors = state.errors ∧
      after.session.nextId = state.session.nextId + 1 := by
  refine ⟨_, _, rfl, ?_, state.tokens.ahead_peek 0, state.tokens.ending_peek 0, rfl, rfl⟩
  rw [State.peek_zero]

theorem yields_report (severity : Severity) (position : Position) (complaint : Complaint) :
    (report severity position complaint : Rule σ Unit).Yields state fun _ after =>
      after.ahead = state.ahead ∧ after.ending = state.ending ∧
        after.session = state.session.report severity (some position) complaint :=
  ⟨_, _, rfl, rfl, rfl, rfl⟩

theorem yields_reportExpected (kinds : List Kind) :
    (reportExpected kinds : Rule σ Unit).Yields state fun _ after =>
      after.ahead = state.ahead ∧ after.ending = state.ending ∧
        after.session = state.session.reportExpected state.head kinds := by
  refine ⟨_, _, rfl, state.tokens.ahead_peek 0, state.tokens.ending_peek 0, ?_⟩
  simp only [State.peek_zero]

theorem Answers.attempt (answers : rule.Answers state middle) :
    rule.attempt.Answers state (Either (state.errors < ·.errors) middle) := by
  intro answer after ran
  simp only [Rule.attempt] at ran
  split at ran
  · rename_i value final ranRule
    simp only [Prod.mk.injEq, Except.ok.injEq] at ran
    obtain ⟨rfl, rfl⟩ := ran
    exact answers value final ranRule
  · rename_i final ranRule
    simp only [Prod.mk.injEq, Except.ok.injEq] at ran
    obtain ⟨rfl, rfl⟩ := ran
    exact errors_lt_of_run ranRule
  · simp at ran

theorem Meets.attempt (meets : rule.Meets state middle) :
    rule.attempt.Meets state (Either (state.errors < ·.errors) middle) := by
  refine ⟨?_, Answers.attempt meets.answers⟩
  intro fault failed
  simp only [Rule.attempt] at failed
  split at failed
  · simp at failed
  · simp at failed
  · rename_i other after ran
    exact meets.attaches other (by rw [ran])

theorem Yields.attempt (yields : rule.Yields state middle) :
    rule.attempt.Yields state fun answer after => ∃ value, answer = some value ∧ middle value after := by
  obtain ⟨value, after, ran, holds⟩ := yields
  exact ⟨some value, after, by simp [Rule.attempt, ran], value, rfl, holds⟩

section Repetition

variable {step : Rule σ (Option α)} {progress : step.ConsumesWhen fun item => item.isSome}

/-- What relates the states before and after a run of items holds if it holds of the empty run and can
be extended by one item in front. -/
theorem answers_collect (related : State σ → List α → State σ → Prop)
    (round : ∀ state, step.Answers state (Either (related state []) fun item after =>
      ∀ items final, related after items final → related state (item :: items) final))
    (state : State σ) : (collect step progress).Answers state (related state) := by
  intro items final ran
  simp only [collect] at ran
  fun_induction collectRun step progress state generalizing items with
  | case1 state stop after stopped => simp at ran
  | case2 state after ended =>
      simp only [Prod.mk.injEq, Except.ok.injEq] at ran
      obtain ⟨rfl, rfl⟩ := ran
      exact round state none after ended
  | case3 state item after ranStep shorter others last rest ih =>
      cases others with
      | error stop => simp [Except.map] at ran
      | ok others =>
          simp only [Except.map, Prod.mk.injEq, Except.ok.injEq] at ran
          obtain ⟨rfl, rfl⟩ := ran
          exact round state (some item) after ranStep others last (ih others rest)

theorem meets_collect (related : State σ → List α → State σ → Prop)
    (round : ∀ state, step.Meets state (Either (related state []) fun item after =>
      ∀ items final, related after items final → related state (item :: items) final))
    (state : State σ) : (collect step progress).Meets state (related state) := by
  refine ⟨fun fault failed => ?_, answers_collect related (fun state => (round state).answers) state⟩
  simp only [collect] at failed
  fun_induction collectRun step progress state with
  | case1 state stop after ran => exact (round state).attaches fault (by rw [ran]; simpa using failed)
  | case2 state after ran => simp at failed
  | case3 state item after ran shorter items final rest ih =>
      cases items with
      | ok items => simp [Except.map] at failed
      | error stop => exact ih (by rw [rest]; simpa [Except.map] using failed)

theorem yields_collect_nil {post : List α → State σ → Prop}
    (ends : step.Yields state fun answer after => answer = none ∧ post [] after) :
    (collect step progress).Yields state post := by
  obtain ⟨_, after, ran, rfl, holds⟩ := ends
  refine ⟨[], after, ?_, holds⟩
  simp only [collect]
  unfold collectRun
  split <;> simp_all

theorem yields_collect_cons {post : List α → State σ → Prop}
    (goes : step.Yields state fun answer after => ∃ item, answer = some item ∧
      (collect step progress).Yields after fun items final => post (item :: items) final) :
    (collect step progress).Yields state post := by
  obtain ⟨_, after, ran, item, rfl, items, final, rest, holds⟩ := goes
  refine ⟨item :: items, final, ?_, holds⟩
  simp only [collect] at *
  unfold collectRun
  split
  · simp_all
  · simp_all
  · rename_i other middle ranOther
    rw [ran] at ranOther
    simp only [Prod.mk.injEq, Except.ok.injEq, Option.some.injEq] at ranOther
    obtain ⟨rfl, rfl⟩ := ranOther
    simp [rest, Except.map]

variable {turn : β → Rule σ (β ⊕ γ)}
variable {advance : ∀ value, (turn value).ConsumesWhen fun next => next.isLeft}

theorem meets_loop (related : β → State σ → γ → State σ → Prop)
    (round : ∀ value state, (turn value).Meets state fun answer after =>
      match answer with
      | .inr result => related value state result after
      | .inl next => ∀ result final, related next after result final → related value state result final)
    (value : β) (state : State σ) : (loop turn advance value).Meets state (related value state) := by
  constructor
  · intro fault failed
    simp only [loop] at failed
    fun_induction loopRun turn advance value state with
    | case1 value state stop after ran =>
        exact (round value state).attaches fault (by rw [ran]; simpa using failed)
    | case2 value state result after ran => simp at failed
    | case3 value state next after ran shorter ih => exact ih failed
  · intro result final ran
    simp only [loop] at ran
    fun_induction loopRun turn advance value state with
    | case1 value state stop after stopped => simp at ran
    | case2 value state result after ended =>
        simp only [Prod.mk.injEq, Except.ok.injEq] at ran
        obtain ⟨rfl, rfl⟩ := ran
        exact (round value state).answers (.inr result) after ended
    | case3 value state next after ranTurn shorter ih =>
        exact (round value state).answers (.inl next) after ranTurn result final (ih ran)

theorem yields_loop_done {value : β} {post : γ → State σ → Prop}
    (ends : (turn value).Yields state fun answer after => ∃ result, answer = .inr result ∧
      post result after) : (loop turn advance value).Yields state post := by
  obtain ⟨_, after, ran, result, rfl, holds⟩ := ends
  refine ⟨result, after, ?_, holds⟩
  simp only [loop]
  unfold loopRun
  split <;> simp_all

theorem yields_loop_next {value : β} {post : γ → State σ → Prop}
    (goes : (turn value).Yields state fun answer after => ∃ next, answer = .inl next ∧
      (loop turn advance next).Yields after post) : (loop turn advance value).Yields state post := by
  obtain ⟨_, after, ran, next, rfl, result, final, rest, holds⟩ := goes
  refine ⟨result, final, ?_, holds⟩
  simp only [loop] at *
  unfold loopRun
  split <;> simp_all

end Repetition

end Rule

end Beagle
