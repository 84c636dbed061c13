import Beagle.Proofs.RuleLogic

/-!
Invariants of a parse.  An invariant is kept by the few things that a rule can do: look ahead, use up
tokens that are not invalid, tell the session of a place that is known, and make a node.  Whatever is
built from these keeps it too, whether it answers or stops.  One thing is not bound by this: behind the
members of a class a token is dropped unseen, which may take the last token away.
-/

namespace Beagle

/-- What holds of the states of a parse until it is over.  Only `known` places are ever blamed. -/
structure Invariant (σ : Type) [TokenSource σ] where
  holds : State σ → Prop
  spent : State σ → Prop
  known : Position → Prop
  head : ∀ {state}, holds state → known state.head.position
  looks : ∀ {state} (offset : Nat), holds state →
    holds { state with tokens := (state.tokens.peek offset).2 }
  takes : ∀ {state} {tokens rest : List Token}, holds state → state.ahead = tokens ++ rest →
    (∀ token ∈ tokens, token.kind ≠ .invalid) →
    holds { state with tokens := state.tokens.discard tokens.length }
  tells : ∀ {state} {position} (severity : Severity) (complaint : Complaint), holds state →
    known position → holds { state with session := state.session.report severity (some position) complaint }
  makes : ∀ {state}, holds state → holds { state with session := state.session.takeId.2 }
  drops : ∀ {state}, holds state → (0 < state.errors ∨ state.head.kind = .mark .rightBrace) →
    holds { state with tokens := state.tokens.discard 1 } ∨
      spent { state with tokens := state.tokens.discard 1 }
  ended : ∀ {state}, spent state → state.head.kind = .fileEnd
  looksSpent : ∀ {state} (offset : Nat), spent state →
    spent { state with tokens := (state.tokens.peek offset).2 }

namespace Invariant

open Rule

variable {σ : Type} [TokenSource σ] {invariant : Invariant σ} {α β γ : Type}

structure Keeps (invariant : Invariant σ) (rule : Rule σ α) (state : State σ)
    (post : α → State σ → Prop) : Prop where
  holds : invariant.holds (rule.run state).2
  answers : ∀ value after, rule.run state = (.ok value, after) → post value after

abbrev Safe (invariant : Invariant σ) (rule : Rule σ α) (state : State σ) : Prop :=
  invariant.Keeps rule state fun _ _ => True

variable {rule : Rule σ α} {next : α → Rule σ β} {state : State σ}
variable {middle : α → State σ → Prop} {post : β → State σ → Prop}

theorem Keeps.mono {weaker : α → State σ → Prop} (keeps : invariant.Keeps rule state middle)
    (implies : ∀ value after, middle value after → weaker value after) :
    invariant.Keeps rule state weaker :=
  ⟨keeps.holds, fun value after ran => implies value after (keeps.answers value after ran)⟩

theorem Keeps.safe (keeps : invariant.Keeps rule state middle) : invariant.Safe rule state :=
  keeps.mono fun _ _ _ => trivial

theorem Keeps.and {more : α → State σ → Prop} (keeps : invariant.Keeps rule state middle)
    (meets : rule.Meets state more) :
    invariant.Keeps rule state fun value after => middle value after ∧ more value after :=
  ⟨keeps.holds, fun value after ran => ⟨keeps.answers value after ran, meets.answers value after ran⟩⟩

theorem Keeps.bind (first : invariant.Keeps rule state middle)
    (second : ∀ value after, invariant.holds after → middle value after →
      invariant.Keeps (next value) after post) :
    invariant.Keeps (rule >>= next) state post := by
  have held := first.holds
  rcases ran : rule.run state with ⟨stop | value, after⟩ <;> rw [ran] at held
  · have stopped : (rule >>= next).run state = (.error stop, after) := by rw [run_bind, ran]
    refine ⟨by rwa [stopped], fun result final answered => ?_⟩
    rw [stopped] at answered
    cases answered
  · have goes : (rule >>= next).run state = (next value).run after := by rw [run_bind, ran]
    obtain ⟨heldAfter, answers⟩ := second value after held (first.answers value after ran)
    exact ⟨by rwa [goes], by rwa [goes]⟩

theorem keeps_pure {value : α} (held : invariant.holds state) (good : middle value state) :
    invariant.Keeps (pure value) state middle := by
  refine ⟨held, fun other after ran => ?_⟩
  cases ran
  exact good

theorem safe_pure (value : α) (held : invariant.holds state) : invariant.Safe (pure value) state :=
  keeps_pure held trivial

theorem keeps_current (held : invariant.holds state) :
    invariant.Keeps current state fun token after => invariant.known token.position ∧
      token = state.head ∧ state.Same after := by
  refine Keeps.and ⟨invariant.looks 0 held, fun token after ran => ?_⟩ yields_current.meets
  cases ran
  rw [State.peek_zero]
  exact invariant.head held

theorem safe_check (kind : Kind) (held : invariant.holds state) :
    invariant.Safe (check kind) state :=
  (keeps_current held).bind fun _ _ later _ => safe_pure _ later

theorem holds_matchesFrom (held : invariant.holds state) (offset : Nat) (kinds : List Kind) :
    invariant.holds { state with tokens := (state.tokens.matchesFrom offset kinds).2 } := by
  induction kinds generalizing state offset with
  | nil => exact held
  | cons kind kinds ih =>
      simp only [Window.matchesFrom]
      split
      · exact ih (invariant.looks offset held) (offset + 1)
      · exact invariant.looks offset held

theorem safe_startsWith (kinds : List Kind) (held : invariant.holds state) :
    invariant.Safe (startsWith kinds) state :=
  ⟨holds_matchesFrom held 0 kinds, fun _ _ _ => trivial⟩

theorem safe_discard {tokens rest : List Token} (held : invariant.holds state)
    (ahead : state.ahead = tokens ++ rest) (valid : ∀ token ∈ tokens, token.kind ≠ .invalid) :
    invariant.Safe (discard tokens.length) state :=
  ⟨invariant.takes held ahead valid, fun _ _ _ => trivial⟩

theorem keeps_node (held : invariant.holds state) :
    invariant.Keeps node state fun info after => invariant.known info.position ∧
      after.ahead = state.ahead := by
  refine ⟨invariant.makes (invariant.looks 0 held), fun info after ran => ?_⟩
  cases ran
  refine ⟨?_, state.tokens.ahead_peek 0⟩
  rw [State.peek_zero]
  exact invariant.head held

theorem safe_report {position : Position} (severity : Severity) (complaint : Complaint)
    (held : invariant.holds state) (known : invariant.known position) :
    invariant.Safe (report severity position complaint) state :=
  ⟨invariant.tells severity complaint held known, fun _ _ _ => trivial⟩

theorem keeps_refuse {position : Position} (complaint : Complaint) (held : invariant.holds state)
    (known : invariant.known position) :
    invariant.Keeps (refuse position complaint) state middle := by
  refine ⟨invariant.tells .error complaint held known, fun value after ran => ?_⟩
  cases ran

theorem holds_reportExpected (kinds : List Kind) (held : invariant.holds state) :
    invariant.holds { state with
      tokens := (state.tokens.peek 0).2
      session := state.session.reportExpected (state.tokens.peek 0).1 kinds } := by
  refine invariant.tells .error _ (invariant.looks 0 held) ?_
  rw [State.peek_zero]
  exact invariant.head held

theorem safe_reportExpected (kinds : List Kind) (held : invariant.holds state) :
    invariant.Safe (reportExpected kinds) state :=
  ⟨holds_reportExpected kinds held, fun _ _ _ => trivial⟩

theorem keeps_refuseExpected (kinds : List Kind) (held : invariant.holds state) :
    invariant.Keeps (refuseExpected kinds) state middle := by
  refine ⟨holds_reportExpected kinds held, fun value after ran => ?_⟩
  cases ran

theorem safe_assemble (part : Assembly α) (held : invariant.holds state) :
    invariant.Safe (assemble part) state :=
  ⟨held, fun _ _ _ => trivial⟩

theorem keeps_takeWhen {choose : Token → Option α} (good : α → Prop) (held : invariant.holds state)
    (ends : ∀ token, token.kind = .fileEnd → choose token = none)
    (valid : ∀ token, token.kind = .invalid → choose token = none)
    (chosen : ∀ token value, invariant.known token.position → choose token = some value → good value) :
    invariant.Keeps (takeWhen choose) state fun taken _ => ∀ value ∈ taken, good value := by
  have looked := invariant.looks 0 held
  have known := invariant.head held
  unfold takeWhen
  constructor
  · simp only [State.peek_zero]
    split
    · rename_i value found
      have more : state.head.kind ≠ .fileEnd := fun last => by simp [ends _ last] at found
      have ahead : State.ahead { state with tokens := (state.tokens.peek 0).2 } =
          [state.head] ++ state.ahead.drop 1 :=
        (state.tokens.ahead_peek 0).trans (State.ahead_eq_cons more)
      refine invariant.takes looked ahead fun token member => ?_
      rw [List.mem_singleton.mp member]
      exact fun invalid => by simp [valid _ invalid] at found
    · exact looked
  · intro taken after ran value member
    simp only [State.peek_zero] at ran
    split at ran
    · rename_i found
      cases ran
      cases member
      exact chosen state.head value known found
    · cases ran
      cases member

theorem keeps_expect {kind : Kind} (held : invariant.holds state) (ends : kind ≠ .fileEnd)
    (valid : kind ≠ .invalid) :
    invariant.Keeps (expect kind) state fun token _ => invariant.known token.position := by
  refine (keeps_takeWhen (fun token => invariant.known token.position) held ?_ ?_ ?_).bind ?_
  · intro token last
    simp [last, ends.symm]
  · intro token invalid
    simp [invalid, valid.symm]
  · intro token value known found
    split at found
    · exact Option.some.inj found ▸ known
    · cases found
  · rintro (_ | token) after later good
    · exact keeps_refuseExpected _ later
    · exact keeps_pure later (good token rfl)

theorem safe_accept {kind : Kind} (held : invariant.holds state) (ends : kind ≠ .fileEnd)
    (valid : kind ≠ .invalid) : invariant.Safe (accept kind) state := by
  refine (keeps_takeWhen (fun _ => True) held ?_ ?_ fun _ _ _ _ => trivial).bind
    fun _ _ later _ => safe_pure _ later
  · intro token last
    simp [last, ends.symm]
  · intro token invalid
    simp [invalid, valid.symm]

theorem safe_whenNext (kind : Kind) (held : invariant.holds state)
    (safe : ∀ {state}, invariant.holds state → invariant.Safe rule state) :
    invariant.Safe (whenNext kind rule) state := by
  refine (safe_check kind held).bind fun found after later _ => ?_
  cases found with
  | false => exact safe_pure none later
  | true => exact (safe later).bind fun _ _ last _ => safe_pure _ last

theorem safe_after {kind : Kind} (held : invariant.holds state) (ends : kind ≠ .fileEnd)
    (valid : kind ≠ .invalid) (safe : ∀ {state}, invariant.holds state → invariant.Safe rule state) :
    invariant.Safe (after kind rule) state := by
  refine (safe_accept held ends valid).bind fun accepted middle later _ => ?_
  cases accepted with
  | false => exact safe_pure none later
  | true => exact (safe later).bind fun _ _ last _ => safe_pure _ last

theorem Keeps.attempt (keeps : invariant.Keeps rule state middle) :
    invariant.Safe rule.attempt state := by
  refine ⟨?_, fun _ _ _ => trivial⟩
  have held := keeps.holds
  simp only [Rule.attempt]
  split <;> rename_i ran <;> rwa [ran] at held

section Repetition

variable {step : Rule σ (Option α)} {progress : step.ConsumesWhen fun item => item.isSome}

theorem keeps_collect (good : α → Prop) (held : invariant.holds state)
    (steps : ∀ {state}, invariant.holds state →
      invariant.Keeps step state fun answer _ => ∀ item ∈ answer, good item) :
    invariant.Keeps (collect step progress) state fun items _ => ∀ item ∈ items, good item := by
  constructor
  · simp only [collect]
    fun_induction collectRun step progress state with
    | case1 state stop after ran => simpa [ran] using (steps held).holds
    | case2 state after ran => simpa [ran] using (steps held).holds
    | case3 state item after ran shorter items final rest ih =>
        rw [rest] at ih
        exact ih (by simpa [ran] using (steps held).holds)
  · intro items final ran
    simp only [collect] at ran
    fun_induction collectRun step progress state generalizing items with
    | case1 state stop after stopped => simp at ran
    | case2 state after ended =>
        simp only [Prod.mk.injEq, Except.ok.injEq] at ran
        obtain ⟨rfl, rfl⟩ := ran
        simp
    | case3 state item after ranStep shorter others last rest ih =>
        cases others with
        | error stop => simp [Except.map] at ran
        | ok others =>
            simp only [Except.map, Prod.mk.injEq, Except.ok.injEq] at ran
            obtain ⟨rfl, rfl⟩ := ran
            have heldAfter : invariant.holds after := by simpa [ranStep] using (steps held).holds
            refine List.forall_mem_cons.mpr ⟨?_, ih heldAfter others rest⟩
            exact (steps held).answers (some item) after ranStep item rfl

theorem safe_collect (held : invariant.holds state)
    (steps : ∀ {state}, invariant.holds state → invariant.Safe step state) :
    invariant.Safe (collect step progress) state :=
  (keeps_collect (fun _ => True) held fun later =>
    (steps later).mono fun _ _ _ _ _ => trivial).safe

variable {turn : β → Rule σ (β ⊕ γ)}
variable {advance : ∀ value, (turn value).ConsumesWhen fun next => next.isLeft}

theorem safe_loop (held : invariant.holds state) (value : β)
    (turns : ∀ value {state}, invariant.holds state → invariant.Safe (turn value) state) :
    invariant.Safe (loop turn advance value) state := by
  refine ⟨?_, fun _ _ _ => trivial⟩
  simp only [loop]
  fun_induction loopRun turn advance value state with
  | case1 value state stop after ran => simpa [ran] using (turns value held).holds
  | case2 value state result after ran => simpa [ran] using (turns value held).holds
  | case3 value state next after ran shorter ih =>
      exact ih (by simpa [ran] using (turns value held).holds)

theorem safe_commaSeparated (held : invariant.holds state)
    (safe : ∀ {state}, invariant.holds state → invariant.Safe rule state) :
    invariant.Safe (commaSeparated rule) state :=
  (safe held).bind fun _ _ later _ =>
    (safe_collect later fun again => safe_after again (by simp) (by simp) safe).bind
      fun _ _ last _ => safe_pure _ last

end Repetition

def Done (invariant : Invariant σ) (state : State σ) : Prop :=
  invariant.holds state ∨ invariant.spent state

def Finishes (invariant : Invariant σ) (rule : Rule σ α) (state : State σ) : Prop :=
  invariant.Done (rule.run state).2

theorem Finishes.bind (first : invariant.Finishes rule state)
    (second : ∀ value after, invariant.Done after → invariant.Finishes (next value) after) :
    invariant.Finishes (rule >>= next) state := by
  rw [Finishes] at first ⊢
  rw [run_bind]
  rcases ran : rule.run state with ⟨stop | value, after⟩ <;> rw [ran] at first
  · exact first
  · exact second value after first

theorem Keeps.bind_finishes (first : invariant.Keeps rule state middle)
    (second : ∀ value after, invariant.holds after → middle value after →
      invariant.Finishes (next value) after) : invariant.Finishes (rule >>= next) state := by
  have held := first.holds
  rw [Finishes, run_bind]
  rcases ran : rule.run state with ⟨stop | value, after⟩ <;> rw [ran] at held
  · exact .inl held
  · exact second value after held (first.answers value after ran)

theorem finishes_pure (value : α) (done : invariant.Done state) : invariant.Finishes (pure value) state :=
  done

theorem finishes_assemble (part : Assembly α) (done : invariant.Done state) :
    invariant.Finishes (assemble part) state :=
  done

theorem finishes_collect {step : Rule σ (Option α)}
    {progress : step.ConsumesWhen fun item => item.isSome} (done : invariant.Done state)
    (steps : ∀ {state}, invariant.Done state → invariant.Finishes step state) :
    invariant.Finishes (collect step progress) state := by
  simp only [Finishes, collect] at *
  fun_induction collectRun step progress state with
  | case1 state stop after ran => simpa [ran] using steps done
  | case2 state after ran => simpa [ran] using steps done
  | case3 state item after ran shorter items final rest ih =>
      rw [rest] at ih
      exact ih (by simpa [ran] using steps done)

theorem spent_takeWhen {choose : Token → Option α} (spent : invariant.spent state)
    (ends : ∀ token, token.kind = .fileEnd → choose token = none) :
    (takeWhen choose).Yields state fun taken after => taken = none ∧ invariant.spent after := by
  refine ⟨none, _, ?_, rfl, invariant.looksSpent 0 spent⟩
  simp only [takeWhen, State.peek_zero, ends _ (invariant.ended spent)]

theorem spent_check (kind : Kind) (spent : invariant.spent state) :
    (check kind).Yields state fun found after =>
      (found = true ↔ kind = .fileEnd) ∧ invariant.spent after := by
  refine ⟨_, _, rfl, ?_, invariant.looksSpent 0 spent⟩
  rw [State.peek_zero, decide_eq_true_iff, invariant.ended spent, eq_comm]

end Invariant

end Beagle
