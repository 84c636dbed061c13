import Beagle.Proofs.Interchange
import Beagle.Proofs.Invariance.Grammar

/-!
Progress.  Every loop of the grammar runs round by round, and a round that is followed by another one
leaves fewer tokens before the end of file.  So a parse comes to an end over every source, and it asks
for no token behind the first end of file.
-/

namespace Beagle

namespace Rule

variable {σ : Type} [TokenSource σ] {α β γ : Type}

theorem ext_run {rule other : Rule σ α} (same : ∀ state, rule.run state = other.run state) :
    rule = other := by
  obtain ⟨run, leads, tells⟩ := rule
  obtain ⟨runOther, leadsOther, tellsOther⟩ := other
  obtain rfl : run = runOther := funext same
  rfl

theorem bind_pure_eq (rule : Rule σ α) : rule >>= pure = rule := by
  refine ext_run fun state => ?_
  rw [run_bind]
  rcases rule.run state with ⟨stop | value, after⟩ <;> rfl

theorem bind_bind (rule : Rule σ α) (next : α → Rule σ β) (final : β → Rule σ γ) :
    rule >>= next >>= final = rule >>= fun value => next value >>= final := by
  refine ext_run fun state => ?_
  simp only [run_bind]
  rcases rule.run state with ⟨stop | value, after⟩ <;> rfl

instance : LawfulMonad (Rule σ) :=
  LawfulMonad.mk' (Rule σ) bind_pure_eq (fun _ _ => rfl) bind_bind

theorem collect_eq (step : Rule σ (Option α)) (progress : step.ConsumesWhen fun item => item.isSome) :
    collect step progress = do
      match ← step with
      | none => return []
      | some item => return item :: (← collect step progress) := by
  refine ext_run fun state => ?_
  change collectRun step progress state = _
  rw [run_bind]
  rcases ran : step.run state with ⟨stop | _ | item, after⟩
  · exact collectRun_error ran
  · exact collectRun_none ran
  · rw [collectRun_some ran]
    simp only [run_bind]
    rw [show (collect step progress).run after = collectRun step progress after from rfl]
    rcases collectRun step progress after with ⟨stop | items, final⟩ <;> rfl

theorem loop_eq (step : β → Rule σ (β ⊕ γ))
    (progress : ∀ value, (step value).ConsumesWhen fun next => next.isLeft) (value : β) :
    Rule.loop step progress value = do
      match ← step value with
      | .inl next => Rule.loop step progress next
      | .inr result => return result := by
  refine ext_run fun state => ?_
  change loopRun step progress value state = _
  rw [run_bind]
  rcases ran : (step value).run state with ⟨stop | next | result, after⟩
  · exact loopRun_error ran
  · exact loopRun_next ran
  · exact loopRun_done ran

theorem after_bind (kind : Kind) (rule : Rule σ α) (next : Option α → Rule σ β) :
    after kind rule >>= next = accept kind >>= fun accepted =>
      if accepted then (rule >>= fun value => next (some value)) else next none := by
  rw [after, bind_assoc]
  congr
  funext accepted
  cases accepted with
  | false => rfl
  | true => simp only [if_true, bind_assoc, pure_bind]

end Rule

namespace Grammar

open Rule

variable {σ : Type} [TokenSource σ] {α : Type}

/-- A loop of the grammar before one of its rounds.  A block is somewhere among its braces, and the types
of a unit are at the first one or at a later one. -/
inductive Loop
  | terminators
  | segments
  | annotations
  | modifiers
  | names
  | initials
  | params
  | bases
  | block (progress : BlockProgress)
  | members
  | imports
  | firstType
  | laterTypes

namespace Loop

def again (loop : Loop) (step : Rule σ (Option α)) : Rule σ (Option Loop) := do
  return (← step).map fun _ => loop

def untilLast (loop : Loop) (item : Rule σ α) : Rule σ (Option Loop) := do
  let _ ← item
  return if ← accept (.mark .comma) then some loop else none

def round : Loop → Rule σ (Option Loop)
  | .terminators => again .terminators terminatorStep
  | .segments => again .segments segmentStep
  | .annotations => again .annotations (whenNext (.mark .atSign) annot)
  | .modifiers => again .modifiers modifierStep
  | .names => untilLast .names declaredName
  | .initials => untilLast .initials literal
  | .params => untilLast .params param
  | .bases => again .bases (after (.mark .comma) typeRef)
  | .block progress => do
    match ← blockStep progress with
    | .inl next => return some (.block next)
    | .inr _ => return none
  | .members => again .members memberStep
  | .imports => again .imports importStep
  | .firstType => do
    Grammar.terminators
    let _ ← typeDecl
    return some .laterTypes
  | .laterTypes => again .laterTypes typeStep

def rule : Loop → Rule σ Unit
  | .terminators => Grammar.terminators
  | .segments => do let _ ← collect segmentStep consumesWhen_segmentStep
  | .annotations => do let _ ← Grammar.annotations
  | .modifiers => do let _ ← collect modifierStep consumesWhen_modifierStep
  | .names => do let _ ← commaSeparated declaredName
  | .initials => do let _ ← commaSeparated literal
  | .params => do let _ ← commaSeparated param
  | .bases => do let _ ← collect (after (.mark .comma) typeRef) (consumesWhen_after (by simp) typeRef)
  | .block progress => do let _ ← Rule.loop blockStep consumesWhen_blockStep progress
  | .members => do let _ ← collect memberStep consumesWhen_memberStep
  | .imports => do let _ ← collect importStep consumesWhen_importStep
  | .firstType => do
    Grammar.terminators
    let _ ← typeDecl
    let _ ← collect typeStep consumesWhen_typeStep
  | .laterTypes => do let _ ← collect typeStep consumesWhen_typeStep

/-- Round after round, up to one that stops or that no other follows.  The list has the states in which the
rounds behind the first one start. -/
inductive Runs : Loop → State σ → List (State σ) → Except Stop Unit → State σ → Prop
  | stops {loop : Loop} {state after : State σ} {stop : Stop}
      (ran : loop.round.run state = (.error stop, after)) : Runs loop state [] (.error stop) after
  | ends {loop : Loop} {state after : State σ}
      (ran : loop.round.run state = (.ok none, after)) : Runs loop state [] (.ok ()) after
  | goesOn {loop next : Loop} {state after final : State σ} {later : List (State σ)}
      {result : Except Stop Unit} (ran : loop.round.run state = (.ok (some next), after))
      (rest : Runs next after later result final) : Runs loop state (after :: later) result final

section Step

theorem consumesWhen_again (loop : Loop) {step : Rule σ (Option α)}
    (progress : step.ConsumesWhen fun item => item.isSome) :
    (again loop step).ConsumesWhen fun next => next.isSome :=
  progress.bind fun item absent => consumesWhen_pure (by simpa using absent)

theorem consumesWhen_untilLast (loop : Loop) (item : Rule σ α) :
    (untilLast loop item).ConsumesWhen fun next => next.isSome := by
  refine consumesWhen_bind_of_second fun _ => (consumesWhen_accept (by simp)).bind ?_
  intro accepted absent
  exact consumesWhen_pure (by simp [absent])

theorem consumesWhen_round (loop : Loop) :
    (loop.round : Rule σ (Option Loop)).ConsumesWhen fun next => next.isSome := by
  cases loop with
  | terminators => exact consumesWhen_again _ consumesWhen_terminatorStep
  | segments => exact consumesWhen_again _ consumesWhen_segmentStep
  | annotations => exact consumesWhen_again _ (consumesWhen_whenNext consumes_annot)
  | modifiers => exact consumesWhen_again _ consumesWhen_modifierStep
  | names => exact consumesWhen_untilLast _ _
  | initials => exact consumesWhen_untilLast _ _
  | params => exact consumesWhen_untilLast _ _
  | bases => exact consumesWhen_again _ (consumesWhen_after (by simp) _)
  | block progress =>
      refine (consumesWhen_blockStep progress).bind fun next closed => ?_
      cases next with
      | inl next => simp at closed
      | inr size => exact consumesWhen_pure (by simp)
  | members => exact consumesWhen_again _ consumesWhen_memberStep
  | imports => exact consumesWhen_again _ consumesWhen_importStep
  | firstType =>
      exact consumesWhen_bind_of_second fun _ => consumesWhen_bind_of_first consumes_typeDecl
  | laterTypes => exact consumesWhen_again _ consumesWhen_typeStep

end Step

section Runs

variable {loop : Loop} {state final : State σ} {later : List (State σ)} {result : Except Stop Unit}

theorem Runs.isChain (runs : loop.Runs state later result final) :
    (state :: later).IsChain fun earlier next => next.left < earlier.left := by
  induction runs with
  | stops ran => exact .singleton _
  | ends ran => exact .singleton _
  | goesOn ran rest ih => exact .cons_cons (consumesWhen_round _ _ _ _ ran rfl) ih

theorem Runs.length_le (runs : loop.Runs state later result final) : later.length ≤ state.left := by
  induction runs with
  | stops ran => exact Nat.zero_le _
  | ends ran => exact Nat.zero_le _
  | goesOn ran rest ih => exact Nat.lt_of_le_of_lt ih (consumesWhen_round _ _ _ _ ran rfl)

end Runs

section Unfolding

variable {loop : Loop}

def onward : Option Loop → Rule σ Unit
  | none => return
  | some next => next.rule

theorem rule_eq_of_again {step : Rule σ (Option α)} {progress : step.ConsumesWhen fun item => item.isSome}
    (isRule : loop.rule = do let _ ← collect step progress) :
    loop.rule = again loop step >>= onward := by
  rw [isRule, collect_eq, again, bind_assoc, bind_assoc]
  congr
  funext item
  cases item with
  | none => rfl
  | some item =>
      simp only [bind_assoc, pure_bind]
      exact isRule.symm

/-- The items that are collected start in front of their comma.  A round goes up to the comma, and so the
next one starts in front of an item. -/
theorem rule_eq_of_untilLast {item : Rule σ α} (isRule : loop.rule = do let _ ← commaSeparated item) :
    loop.rule = untilLast loop item >>= onward := by
  have others : (do let _ ← collect (after (.mark .comma) item) (consumesWhen_after (by simp) item)) =
      accept (.mark .comma) >>= fun accepted => onward (if accepted then some loop else none) := by
    nth_rewrite 1 [collect_eq]
    rw [bind_assoc, after_bind]
    congr
    funext accepted
    cases accepted with
    | false => rfl
    | true =>
        refine Eq.trans ?_ isRule.symm
        simp only [commaSeparated, if_true, bind_assoc, pure_bind]
  rw [isRule, commaSeparated, untilLast]
  simp only [bind_assoc, pure_bind, others]

theorem rule_eq (loop : Loop) : (loop.rule : Rule σ Unit) = loop.round >>= onward := by
  cases loop with
  | names => exact rule_eq_of_untilLast rfl
  | initials => exact rule_eq_of_untilLast rfl
  | params => exact rule_eq_of_untilLast rfl
  | block progress =>
      rw [rule, loop_eq, round, bind_assoc, bind_assoc]
      congr
      funext next
      cases next <;> rfl
  | firstType => simp only [rule, round, bind_assoc, pure_bind, onward]
  | _ => exact rule_eq_of_again rfl

theorem exists_runs (loop : Loop) (state : State σ) :
    ∃ later, loop.Runs state later (loop.rule.run state).1 (loop.rule.run state).2 := by
  induction left : state.left using Nat.strong_induction_on generalizing loop state with
  | _ left ih =>
      rw [rule_eq, run_bind]
      rcases ran : loop.round.run state with ⟨stop | _ | next, after⟩
      · exact ⟨[], .stops ran⟩
      · exact ⟨[], .ends ran⟩
      · have shorter := consumesWhen_round loop state (some next) after ran rfl
        obtain ⟨later, runs⟩ := ih after.left (left ▸ shorter) next after rfl
        exact ⟨after :: later, .goesOn ran runs⟩

end Unfolding

end Loop

end Grammar

section Pulls

open TokenStream TokenSource

variable {σ : Type} [TokenSource σ] {source : σ} {stop : Nat}

theorem TokenStream.EndsAt.eq_length (ends : EndsAt source stop) : stop = (ahead source).length := by
  have other := endsAt_ahead source
  rcases Nat.lt_trichotomy stop (ahead source).length with before | same | behind
  · exact absurd ends.last (other.more stop before)
  · exact same
  · exact absurd other.last (ends.more _ behind)

theorem Metered.ahead_eq (source : σ) (pulls : Nat) :
    ahead (⟨source, pulls⟩ : Metered σ) = ahead source := by
  fun_induction ahead source generalizing pulls with
  | case1 source pulled => exact ahead_eq_nil ‹_›
  | case2 source pulled more ih =>
      have first : ahead (⟨source, pulls⟩ : Metered σ) =
          pulled.1 :: ahead (⟨pulled.2, pulls + 1⟩ : Metered σ) := ahead_eq_cons more
      rw [first, ih]

def Invariant.shows (ends : EndsAt source stop) : Invariant (Metered σ) where
  holds state := ∃ cursor, state.tokens.Shows source stop cursor
  spent _ := False
  known _ := True
  head _ := trivial
  looks offset := fun ⟨cursor, shows⟩ => ⟨cursor.look stop offset, (shows.peek ends offset).2⟩
  takes := fun ⟨cursor, shows⟩ _ _ => ⟨cursor.skip stop _, shows.discard ends _⟩
  tells _ _ held _ := held
  makes held := held
  drops := fun ⟨cursor, shows⟩ _ => .inl ⟨cursor.skip stop 1, shows.discard ends 1⟩
  ended := False.elim
  looksSpent _ := False.elim

theorem State.pulls_parse_le (ends : EndsAt source stop) (capacity : Nat) (session : Session) :
    (ofSource (⟨source, 0⟩ : Metered σ) capacity session).parse.2.tokens.source.pulls ≤ stop + 1 := by
  obtain ⟨after, ⟨cursor, shows⟩ | spent, isAfter⟩ := (Invariant.shows ends).done_parse
    (ofSource (⟨source, 0⟩ : Metered σ) capacity session) ⟨.start, Window.shows_ofSource source stop capacity⟩
  · rw [isAfter]
    exact (congrArg Metered.pulls shows.meter).trans_le shows.bound
  · exact spent.elim

theorem State.left_ofSource (ends : EndsAt source stop) (capacity : Nat) (session : Session) :
    (ofSource (⟨source, 0⟩ : Metered σ) capacity session).left = stop := by
  rw [ends.eq_length, ← Metered.ahead_eq source 0]
  exact congrArg List.length (ahead_ofSource _ capacity session)

theorem State.parse_cases (state : State σ) :
    state.parse.1 = .error .reported ∨ ∃ unit, state.parse.1 = .ok unit := by
  rcases parsed : state.parse.1 with (_ | fault) | unit
  · exact .inl rfl
  · exact absurd parsed (state.parse_ne_misattached fault)
  · exact .inr ⟨unit, rfl⟩

end Pulls

/-- Every sequence of tokens with an end of file is, as far as its first one, what a tape gives. -/
theorem Tape.exists_drawn {tokens : Nat → Token} {stop : Nat} (last : (tokens stop).kind = .fileEnd)
    (more : ∀ index < stop, (tokens index).kind ≠ .fileEnd) (file : String) :
    ∃ tape : Tape, tape.file = file ∧ ∀ index ≤ stop, TokenStream.drawn tape index = tokens index := by
  let tape : Tape := ⟨file, (List.range stop).map tokens, (tokens stop).fileEnd⟩
  have unended : ∀ token ∈ tape.tokens, token.kind ≠ .fileEnd := by
    simpa [tape] using more
  have all : (TokenSource.ahead tape).length = stop := by simp [ahead_eq_tokens unended, tape]
  refine ⟨tape, rfl, fun index bound => ?_⟩
  rw [TokenSource.drawn_eq_ahead tape (all.symm ▸ bound), ahead_eq_tokens unended, ending_eq_last unended]
  rcases Nat.lt_or_eq_of_le bound with before | rfl
  · simp [tape, before]
  · simpa [tape] using Token.fileEnd_token last

open TokenStream in
/-- Let the first end of file of a sequence of tokens be at `stop`.  Over every source that gives the tokens
up to there, and there is one, a parse comes to an end, with a unit or with a reported error, and asks for
no token behind `stop`.  Every loop of the grammar goes from round to round, and each round that is followed
by another one leaves fewer tokens before the end of file. -/
theorem parse_makes_progress {tokens : Nat → Token} {stop : Nat} (last : (tokens stop).kind = .fileEnd)
    (more : ∀ index < stop, (tokens index).kind ≠ .fileEnd) :
    (∀ file, ∃ tape : Tape, tape.file = file ∧ ∀ index ≤ stop, drawn tape index = tokens index) ∧
    (∀ {σ : Type} [TokenSource σ] (source : σ), (∀ index ≤ stop, drawn source index = tokens index) →
      ∀ (capacity : Nat) (session : Session),
        let before := State.ofSource (⟨source, 0⟩ : Metered σ) capacity session
        before.left = stop ∧
        (before.parse.1 = .error .reported ∨ ∃ unit, before.parse.1 = .ok unit) ∧
        before.parse.2.tokens.source.pulls ≤ stop + 1) ∧
    ∀ {σ : Type} [TokenSource σ] (loop : Grammar.Loop) (state : State σ), ∃ later,
      loop.Runs state later (loop.rule.run state).1 (loop.rule.run state).2 ∧
      (state :: later).IsChain (fun earlier next => next.left < earlier.left) ∧
      later.length ≤ state.left := by
  refine ⟨Tape.exists_drawn last more, ?_, ?_⟩
  · intro σ _ source gives capacity session before
    have ends : EndsAt source stop := by
      refine ⟨by rwa [gives stop (Nat.le_refl _)], fun index bound => ?_⟩
      rw [gives index (Nat.le_of_lt bound)]
      exact more index bound
    exact ⟨State.left_ofSource ends capacity session, before.parse_cases,
      State.pulls_parse_le ends capacity session⟩
  · intro σ _ loop state
    obtain ⟨later, runs⟩ := loop.exists_runs state
    exact ⟨later, runs, runs.isChain, runs.length_le⟩

def cutOffClass : Nat → Token
  | 0 => .symbol (.keyword .classWord) ⟨1, 1⟩
  | 1 => ⟨.identifier, "A", ⟨1, 7⟩⟩
  | 2 => .symbol (.mark .leftBrace) ⟨1, 9⟩
  | 3 => (FileEnd.ofPosition ⟨1, 10⟩).token
  | _ => .symbol (.keyword .classWord) ⟨2, 1⟩

def cutOffTape : Tape :=
  ⟨"a.bgl", (List.range 3).map cutOffClass, .ofPosition ⟨1, 10⟩⟩

theorem parse_makes_progress_example :
    (cutOffClass 3).kind = .fileEnd ∧ (∀ index < 3, (cutOffClass index).kind ≠ .fileEnd) ∧
    (∀ index ≤ 3, TokenStream.drawn cutOffTape index = cutOffClass index) ∧
    let state := State.ofSource (⟨cutOffTape, 0⟩ : Metered Tape) 2 .empty
    state.left = 3 ∧
    (state.parse.1 = .error .reported ∨ ∃ unit, state.parse.1 = .ok unit) ∧
    state.parse.2.tokens.source.pulls ≤ 4 ∧
    ∃ later, Grammar.Loop.firstType.Runs state later (Grammar.Loop.firstType.rule.run state).1
        (Grammar.Loop.firstType.rule.run state).2 ∧
      (state :: later).IsChain fun earlier next => next.left < earlier.left := by
  have more : ∀ index < 3, (cutOffClass index).kind ≠ .fileEnd := by decide
  have gives : ∀ index ≤ 3, TokenStream.drawn cutOffTape index = cutOffClass index := by decide
  obtain ⟨-, parses, loops⟩ := parse_makes_progress rfl more
  obtain ⟨left, ends, pulls⟩ := parses cutOffTape gives 2 .empty
  obtain ⟨later, runs, chain, -⟩ :=
    loops .firstType (State.ofSource (⟨cutOffTape, 0⟩ : Metered Tape) 2 .empty)
  exact ⟨rfl, more, gives, left, ends, pulls, later, runs, chain⟩

end Beagle
