import Beagle.Session
import Beagle.Token.Window

/-!
Rules of the grammar.  A rule reads tokens through a window, talks to the session, and answers or stops.
What it read and reported before it stopped stays read and reported.  A rule only goes forward: it
uses up tokens from the front, and a loop of rules ends because each round uses up a token.  A rule that
stops for what it read has reported an error.
-/

namespace Beagle

structure State (σ : Type) where
  tokens : Window σ
  session : Session
  file : String

/-- Why a rule has no answer: the session was told why, or a node was attached twice. -/
inductive Stop
  | reported
  | misattached (fault : AttachFault)
deriving DecidableEq

namespace State

variable {σ : Type} [TokenSource σ]

def ofSource (source : σ) (capacity : Nat) (session : Session) : State σ :=
  ⟨.ofSource source capacity, session, TokenStream.file source⟩

def ahead (state : State σ) : List Token :=
  state.tokens.ahead

def ending (state : State σ) : FileEnd :=
  state.tokens.ending

def head (state : State σ) : Token :=
  state.ahead.head?.getD state.ending.token

def left (state : State σ) : Nat :=
  state.tokens.left

def errors (state : State σ) : Nat :=
  state.session.errorCount

/-- Where a rule may lead: further on in the same tokens, in a session that went on. -/
structure Leads (before after : State σ) : Prop where
  ahead : after.ahead <:+ before.ahead
  ending : after.ending = before.ending
  session : before.session.Continues after.session
  file : after.file = before.file

theorem Leads.refl (state : State σ) : state.Leads state :=
  ⟨List.suffix_refl _, rfl, .refl _, rfl⟩

theorem Leads.trans {first second third : State σ} (early : first.Leads second)
    (late : second.Leads third) : first.Leads third :=
  ⟨late.ahead.trans early.ahead, late.ending.trans early.ending, early.session.trans late.session,
    late.file.trans early.file⟩

theorem Leads.left_le {before after : State σ} (leads : before.Leads after) :
    after.left ≤ before.left :=
  leads.ahead.length_le

theorem Leads.errors_le {before after : State σ} (leads : before.Leads after) :
    before.errors ≤ after.errors :=
  leads.session.errorCount_le

theorem Leads.nextId_le {before after : State σ} (leads : before.Leads after) :
    before.session.nextId ≤ after.session.nextId :=
  leads.session.nextId

theorem ahead_eq_cons {state : State σ} (more : state.head.kind ≠ .fileEnd) :
    state.ahead = state.head :: state.ahead.drop 1 := by
  unfold head at *
  cases tokens : state.ahead with
  | nil => simp [tokens] at more
  | cons token rest => simp

theorem peek_zero (state : State σ) : (state.tokens.peek 0).1 = state.head := by
  rw [Window.peek_fst, ← List.head?_eq_getElem?]
  rfl

theorem leads_peek (state : State σ) (offset : Nat) :
    state.Leads { state with tokens := (state.tokens.peek offset).2 } where
  ahead := by simp [State.ahead]
  ending := state.tokens.ending_peek offset
  session := .refl _
  file := rfl

theorem leads_matchesFrom (state : State σ) (offset : Nat) (kinds : List Kind) :
    state.Leads { state with tokens := (state.tokens.matchesFrom offset kinds).2 } where
  ahead := by simp [State.ahead]
  ending := state.tokens.ending_matchesFrom offset kinds
  session := .refl _
  file := rfl

theorem leads_discard (state : State σ) (count : Nat) :
    state.Leads { state with tokens := state.tokens.discard count } where
  ahead := by simp [State.ahead, List.drop_suffix]
  ending := state.tokens.ending_discard count
  session := .refl _
  file := rfl

theorem leads_session {state : State σ} {session : Session}
    (continues : state.session.Continues session) : state.Leads { state with session } :=
  ⟨List.suffix_refl _, rfl, continues, rfl⟩

end State

structure Rule (σ : Type) [TokenSource σ] (α : Type) where
  run : State σ → Except Stop α × State σ
  leads : ∀ state : State σ, state.Leads (run state).2
  tells : ∀ state, (run state).1 = .error .reported → state.errors < (run state).2.errors

namespace Rule

variable {σ : Type} [TokenSource σ] {α β γ : Type}

theorem leads_of_run {rule : Rule σ α} {state after : State σ} {result : Except Stop α}
    (ran : rule.run state = (result, after)) : state.Leads after := by
  have leads := rule.leads state
  rwa [ran] at leads

theorem errors_lt_of_run {rule : Rule σ α} {state after : State σ}
    (ran : rule.run state = (.error .reported, after)) : state.errors < after.errors := by
  have told := rule.tells state
  rw [ran] at told
  exact told rfl

protected def pure (value : α) : Rule σ α where
  run state := (.ok value, state)
  leads := .refl
  tells _ stopped := by simp at stopped

protected def bind (rule : Rule σ α) (next : α → Rule σ β) : Rule σ β where
  run state :=
    match rule.run state with
    | (.ok value, state) => (next value).run state
    | (.error stop, state) => (.error stop, state)
  leads state := by
    split
    · rename_i value after ran
      exact (leads_of_run ran).trans ((next value).leads after)
    · rename_i stop after ran
      exact leads_of_run ran
  tells state stopped := by
    split at stopped
    · rename_i value after ran
      exact Nat.lt_of_le_of_lt (leads_of_run ran).errors_le ((next value).tells after stopped)
    · rename_i stop after ran
      simp only [Except.error.injEq] at stopped
      exact errors_lt_of_run (stopped ▸ ran)

instance : Monad (Rule σ) where
  pure := Rule.pure
  bind := Rule.bind

@[simp] theorem run_pure (value : α) (state : State σ) :
    (pure value : Rule σ α).run state = (.ok value, state) := rfl

theorem run_bind (rule : Rule σ α) (next : α → Rule σ β) (state : State σ) :
    (rule >>= next).run state =
      match rule.run state with
      | (.ok value, state) => (next value).run state
      | (.error stop, state) => (.error stop, state) := rfl

def current : Rule σ Token where
  run state :=
    let (token, tokens) := state.tokens.peek 0
    (.ok token, { state with tokens })
  leads state := state.leads_peek 0
  tells _ stopped := by simp at stopped

def startsWith (kinds : List Kind) : Rule σ Bool where
  run state :=
    let (found, tokens) := state.tokens.startsWith kinds
    (.ok found, { state with tokens })
  leads state := state.leads_matchesFrom 0 kinds
  tells _ stopped := by simp at stopped

def discard (count : Nat) : Rule σ Unit where
  run state := (.ok (), { state with tokens := state.tokens.discard count })
  leads state := state.leads_discard count
  tells _ stopped := by simp at stopped

def takeWhen (choose : Token → Option α) : Rule σ (Option α) where
  run state :=
    let (token, tokens) := state.tokens.peek 0
    match choose token with
    | some value => (.ok (some value), { state with tokens := tokens.discard 1 })
    | none => (.ok none, { state with tokens })
  leads state := by
    simp only
    split
    · exact (state.leads_peek 0).trans (State.leads_discard _ 1)
    · exact state.leads_peek 0
  tells state stopped := by
    simp only at stopped
    split at stopped <;> simp at stopped

def report (severity : Severity) (position : Position) (complaint : Complaint) : Rule σ Unit where
  run state :=
    (.ok (), { state with session := state.session.report severity (some position) complaint })
  leads state := State.leads_session (state.session.continues_report _ _ _)
  tells _ stopped := by simp at stopped

def reportExpected (kinds : List Kind) : Rule σ Unit where
  run state :=
    let (found, tokens) := state.tokens.peek 0
    (.ok (), { state with tokens, session := state.session.reportExpected found kinds })
  leads state := (state.leads_peek 0).trans (State.leads_session (Session.continues_report _ _ _ _))
  tells _ stopped := by simp at stopped

def assemble (part : Assembly α) : Rule σ α where
  run state := (part.mapError .misattached, state)
  leads := .refl
  tells _ stopped := by
    cases part with
    | ok value => cases stopped
    | error fault => cases stopped

def attempt (rule : Rule σ α) : Rule σ (Option α) where
  run state :=
    match rule.run state with
    | (.ok value, state) => (.ok (some value), state)
    | (.error .reported, state) => (.ok none, state)
    | (.error (.misattached fault), state) => (.error (.misattached fault), state)
  leads state := by
    split <;> exact leads_of_run ‹_›
  tells state stopped := by
    split at stopped <;> simp at stopped

def refuse (position : Position) (complaint : Complaint) : Rule σ α where
  run state :=
    (.error .reported,
      { state with session := state.session.report .error (some position) complaint })
  leads state := State.leads_session (state.session.continues_report _ _ _)
  tells state _ := by simp [State.errors]

def refuseExpected (kinds : List Kind) : Rule σ α where
  run state :=
    let (found, tokens) := state.tokens.peek 0
    (.error .reported, { state with tokens, session := state.session.reportExpected found kinds })
  leads state := (state.leads_peek 0).trans (State.leads_session (Session.continues_report _ _ _ _))
  tells state _ := by simp [State.errors]

def node : Rule σ NodeInfo where
  run state :=
    let (token, tokens) := state.tokens.peek 0
    let (info, session) := state.session.node token.position
    (.ok info, { state with tokens, session })
  leads state := (state.leads_peek 0).trans (State.leads_session (Session.continues_node _ _))
  tells _ stopped := by simp at stopped

def check (kind : Kind) : Rule σ Bool := do
  return (← current).kind = kind

def demand (kinds : List Kind) : Rule σ Token := do
  let token ← current
  if token.kind ∈ kinds then return token else refuseExpected kinds

def expect (kind : Kind) : Rule σ Token := do
  match ← takeWhen fun token => if token.kind = kind then some token else none with
  | some token => return token
  | none => refuseExpected [kind]

def accept (kind : Kind) : Rule σ Bool := do
  return (← takeWhen fun token => if token.kind = kind then some () else none).isSome

def whenNext (kind : Kind) (rule : Rule σ α) : Rule σ (Option α) := do
  if ← check kind then return some (← rule) else return none

def after (kind : Kind) (rule : Rule σ α) : Rule σ (Option α) := do
  if ← accept kind then return some (← rule) else return none

end Rule

end Beagle
