import Beagle.Proofs.Derivation
import Beagle.Proofs.FailFast.Rule
import Beagle.Proofs.Likeness.Rule

/-!
Blocks and their braces.  A block is read up to the brace that matches the first one.  If there is no
such brace before the first invalid token and before the end of file, all tokens in between are used
up and one error is reported there.
-/

namespace Beagle

open Spelling

variable {σ : Type} [TokenSource σ]

def Spelling.Encloses (tokens inside : List Token) : Prop :=
  ∃ left right, left.kind = .mark .leftBrace ∧ right.kind = .mark .rightBrace ∧ Balanced 0 inside ∧
    left :: (inside ++ [right]) <+: tokens

namespace State

def sound (state : State σ) : List Token :=
  state.ahead.takeWhile fun token => token.kind ≠ .invalid

def unsound (state : State σ) : List Token :=
  state.ahead.dropWhile fun token => token.kind ≠ .invalid

/-- The first token that no block can have: an invalid one, or the end of file. -/
def stop (state : State σ) : Token :=
  state.unsound.head?.getD state.ending.token

/-- All tokens that a block could have were used up, and what comes then was reported. -/
structure Unclosed (before after : State σ) : Prop where
  ahead : after.ahead = before.unsound
  ending : after.ending = before.ending
  session : after.session = before.session.reportExpected before.stop [.mark .rightBrace]

variable {state middle after : State σ} {token : Token}

theorem unsound_of_took (took : state.Took token middle) (valid : token.kind ≠ .invalid) :
    state.unsound = middle.unsound := by
  rw [unsound, took.ahead, List.dropWhile_cons_of_pos (by simpa using valid)]
  rfl

theorem Unclosed.of_took (took : state.Took token middle) (valid : token.kind ≠ .invalid)
    (unclosed : middle.Unclosed after) : state.Unclosed after := by
  have unsound := unsound_of_took took valid
  have stop : state.stop = middle.stop := by rw [State.stop, State.stop, unsound, took.ending]
  refine ⟨unclosed.ahead.trans unsound.symm, unclosed.ending.trans took.ending, ?_⟩
  rw [unclosed.session, took.session, stop]

theorem unsound_of_head (stops : Grammar.isBlockToken state.head.kind = false) :
    state.unsound = state.ahead ∧ state.stop = state.head := by
  have same : state.unsound = state.ahead := by
    rw [unsound]
    cases ahead : state.ahead with
    | nil => rfl
    | cons token rest =>
        have member : token ∈ state.tokens.ahead := by
          rw [← State.ahead, ahead]
          exact List.mem_cons_self
        have more := Window.kind_of_mem_ahead member
        rw [head_of_ahead ahead] at stops
        refine List.dropWhile_cons_of_neg ?_
        simpa [Grammar.isBlockToken, more] using stops
  exact ⟨same, by rw [stop, same]; rfl⟩

theorem isBlockToken_stop (state : State σ) : Grammar.isBlockToken state.stop.kind = false := by
  rw [stop]
  cases first : state.unsound.head? with
  | none => simp [Grammar.isBlockToken]
  | some token =>
      have invalid := List.head?_dropWhile_not (fun token : Token => token.kind ≠ .invalid) state.ahead
      rw [← unsound, first] at invalid
      have isInvalid : token.kind = .invalid := by simpa using invalid
      simp [Grammar.isBlockToken, isInvalid]

end State

theorem Rule.stopped_refuseExpected {α : Type} {kinds : List Kind} {state after : State σ}
    (stopped : (refuseExpected kinds : Rule σ α).run state = (.error .reported, after)) :
    after.ahead = state.ahead ∧ after.ending = state.ending ∧
      after.session = state.session.reportExpected state.head kinds := by
  obtain rfl : ⟨_, _, _⟩ = after := congrArg Prod.snd stopped
  refine ⟨state.tokens.ahead_peek 0, state.tokens.ending_peek 0, ?_⟩
  rw [← state.peek_zero]

theorem Rule.yields_node_session (state : State σ) :
    (node : Rule σ NodeInfo).Yields state fun info after =>
      info = .fresh state.session.nextId state.head.position ∧ after.ahead = state.ahead ∧
        after.ending = state.ending ∧ after.session = (state.session.node state.head.position).2 := by
  refine ⟨_, _, rfl, ?_, state.tokens.ahead_peek 0, state.tokens.ending_peek 0, ?_⟩
  · rw [State.peek_zero]
  · rfl

theorem Rule.yields_expect {kind : Kind} {state : State σ} (more : kind ≠ .fileEnd)
    (found : state.head.kind = kind) :
    (expect kind : Rule σ Token).Yields state fun token after => state.Took token after := by
  refine (yields_takeWhen _ fun token last => by simp [last, more.symm]).bind ?_
  rintro taken after _ ⟨chosen, moved⟩
  obtain rfl : taken = some state.head := by simpa [found] using chosen
  exact yields_pure moved

namespace Grammar

variable {state after : State σ}

theorem unclosed_blockStep {progress : BlockProgress}
    (stopped : (blockStep progress : Rule σ _).run state = (.error .reported, after)) :
    state.Unclosed after := by
  have taking : (Rule.takeWhen fun token => if isBlockToken token.kind then some token.kind else none :
      Rule σ (Option Kind)).Yields state _ :=
    Rule.yields_takeWhen _ fun token last => by simp [last, isBlockToken]
  obtain ⟨taken, middle, ran, chosen, moved⟩ := taking
  rw [blockStep, Rule.run_bind, ran] at stopped
  cases isToken : isBlockToken state.head.kind with
  | true =>
      obtain rfl : taken = some state.head.kind := by simpa [isToken] using chosen
      simp at stopped
  | false =>
      obtain rfl : taken = none := by simpa [isToken] using chosen
      have same : state.Same middle := moved
      obtain ⟨ahead, ending, session⟩ := Rule.stopped_refuseExpected stopped
      obtain ⟨unsound, stop⟩ := state.unsound_of_head isToken
      refine ⟨(ahead.trans same.ahead).trans unsound.symm, ending.trans same.ending, ?_⟩
      rw [session, same.session, same.head, stop]

theorem unclosed_blockLoop {progress : BlockProgress}
    (stopped : (Rule.loop blockStep consumesWhen_blockStep progress : Rule σ Nat).run state =
      (.error .reported, after)) : state.Unclosed after := by
  refine Rule.stops_loop State.Unclosed (fun _ _ _ => unclosed_blockStep) ?_ stopped
  intro progress state next middle after ran unclosed
  obtain ⟨isToken, _, took⟩ := (meets_blockStep progress).answers _ middle ran
  refine unclosed.of_took took ?_
  intro invalid
  simp [invalid, isBlockToken] at isToken

theorem run_block (starts : state.head.kind = .mark .leftBrace) :
    ∃ inner : State σ, state.ahead = state.head :: inner.ahead ∧ inner.ending = state.ending ∧
      inner.session = (state.session.node state.head.position).2 ∧
      block.run state = (Rule.loop blockStep consumesWhen_blockStep ⟨0, 0⟩ >>= fun size =>
        pure (Block.mk (.fresh state.session.nextId state.head.position) size)).run inner := by
  obtain ⟨info, middle, ranNode, rfl, ahead, ending, session⟩ := Rule.yields_node_session state
  have head : middle.head = state.head := by rw [State.head, State.head, ahead, ending]
  obtain ⟨token, inner, ranExpect, took⟩ := Rule.yields_expect (by simp) (head.symm ▸ starts)
  have isHead : token = state.head := by rw [← head, State.head_of_ahead took.ahead]
  refine ⟨inner, ?_, took.ending.trans ending, took.session.trans session, ?_⟩
  · rw [← ahead, took.ahead, isHead]
  · rw [block, Rule.run_bind, ranNode]
    change (Rule.expect (.mark .leftBrace) >>= _).run middle = _
    rw [Rule.run_bind, ranExpect]

theorem encloses_sound_iff (starts : state.head.kind = .mark .leftBrace) {inside : List Token} :
    Encloses state.sound inside ↔ ∃ close rest, state.ahead = state.head :: (inside ++ close :: rest) ∧
      close.kind = .mark .rightBrace ∧ Balanced 0 inside ∧ ∀ token ∈ inside, token.kind ≠ .invalid := by
  constructor
  · rintro ⟨left, close, isLeft, isClose, balanced, isPrefix⟩
    obtain ⟨rest, ahead⟩ := isPrefix.trans (List.takeWhile_prefix _)
    have same : state.head = left := State.head_of_ahead ahead.symm
    refine ⟨close, rest, by simp [same, ← ahead], isClose, balanced, fun token member => ?_⟩
    have inSound : token ∈ state.sound := isPrefix.subset (by simp [member])
    simpa using List.mem_takeWhile_imp inSound
  · rintro ⟨close, rest, ahead, isClose, balanced, valid⟩
    refine ⟨state.head, close, starts, isClose, balanced,
      rest.takeWhile fun token => token.kind ≠ .invalid, ?_⟩
    rw [State.sound, ahead, List.takeWhile_cons_of_pos (by simp [starts]),
      List.takeWhile_append_of_pos (by simpa using valid),
      List.takeWhile_cons_of_pos (by simp [isClose])]
    simp

theorem encloses_of_block {block : Block} (starts : state.head.kind = .mark .leftBrace)
    (ran : Grammar.block.run state = (.ok block, after)) : ∃ inside, Encloses state.sound inside := by
  obtain ⟨inner, ahead, _, _, same⟩ := run_block starts
  rw [same] at ran
  obtain ⟨size, middle, ranLoop, ranPure⟩ := Rule.answered_of_bind ran
  obtain ⟨_, tokens, close, inside, isClose, balanced, valid, _⟩ :=
    (meets_blockLoop _).answers size middle ranLoop
  exact ⟨tokens, (encloses_sound_iff starts).mpr
    ⟨close, middle.ahead, by rw [ahead, inside], isClose, balanced, valid⟩⟩

theorem run_block_of_encloses {inside : List Token} (starts : state.head.kind = .mark .leftBrace)
    (encloses : Encloses state.sound inside) : ∃ after : State σ,
      block.run state = (.ok ⟨.fresh state.session.nextId state.head.position, inside.length⟩, after) ∧
      after.ahead = state.ahead.drop (inside.length + 2) ∧ after.ending = state.ending ∧
      after.session = (state.session.node state.head.position).2 := by
  obtain ⟨close, rest, ahead, isClose, balanced, valid⟩ := (encloses_sound_iff starts).mp encloses
  obtain ⟨inner, first, ending, session, same⟩ := run_block starts
  have innerAhead : inner.ahead = inside ++ close :: rest := by
    rw [first] at ahead
    exact (List.cons.inj ahead).2
  have fromOutside : Balanced (BlockProgress.mk 0 0).depth inside := balanced
  obtain ⟨size, after, ran, ⟨rfl, rfl⟩, _⟩ :=
    accepts_blockLoop isClose valid fromOutside inner innerAhead
  have unchanged := ((meets_blockLoop _).answers _ _ ran).1
  refine ⟨after, ?_, ?_, (Rule.leads_of_run ran).ending.trans ending, unchanged.trans session⟩
  · rw [same, Rule.run_bind, ran]
    simp
  · rw [ahead]
    simp

theorem encloses_unique {inside other : List Token} (starts : state.head.kind = .mark .leftBrace)
    (encloses : Encloses state.sound inside) (enclosesOther : Encloses state.sound other) :
    other = inside := by
  obtain ⟨first, ranFirst, _⟩ := run_block_of_encloses starts encloses
  obtain ⟨second, ranSecond, _⟩ := run_block_of_encloses starts enclosesOther
  have length : other.length = inside.length := by
    rw [ranFirst] at ranSecond
    simp only [Prod.mk.injEq, Except.ok.injEq, Block.mk.injEq] at ranSecond
    exact ranSecond.1.2.symm
  obtain ⟨close, rest, ahead, _⟩ := (encloses_sound_iff starts).mp encloses
  obtain ⟨closeOther, restOther, aheadOther, _⟩ := (encloses_sound_iff starts).mp enclosesOther
  have tails : other ++ closeOther :: restOther = inside ++ close :: rest := by
    rw [ahead] at aheadOther
    exact (List.cons.inj aheadOther).2.symm
  exact (List.append_inj tails length).1

theorem run_block_of_not_encloses (starts : state.head.kind = .mark .leftBrace)
    (never : ¬∃ inside, Encloses state.sound inside) : ∃ after : State σ,
      block.run state = (.error .reported, after) ∧ after.ahead = state.unsound ∧
      after.ending = state.ending ∧ after.session =
        (state.session.node state.head.position).2.reportExpected state.stop [.mark .rightBrace] := by
  obtain ⟨inner, ahead, ending, session, same⟩ := run_block starts
  match ran : block.run state with
  | (.ok block, after) => exact absurd (encloses_of_block starts ran) never
  | (.error (.misattached fault), after) =>
      exact absurd (congrArg Prod.fst ran) (meets_block.attaches fault)
  | (.error .reported, after) =>
      rw [same] at ran
      have unclosed := unclosed_blockLoop (Rule.stopped_of_bind_pure ran)
      have unsound : state.unsound = inner.unsound := by
        rw [State.unsound, ahead, List.dropWhile_cons_of_pos (by simp [starts])]
        rfl
      have stop : state.stop = inner.stop := by rw [State.stop, State.stop, unsound, ending]
      refine ⟨after, rfl, unclosed.ahead.trans unsound.symm, unclosed.ending.trans ending, ?_⟩
      rw [unclosed.session, session, stop]

end Grammar

inductive Rule.Passes {β γ : Type} (turn : β → Rule σ (β ⊕ γ)) (first : β) (start : State σ) :
    β → State σ → Prop
  | here : Passes turn first start first start
  | next {value next : β} {state after : State σ} : Passes turn first start value state →
      (turn value).run state = (.ok (.inl next), after) → Passes turn first start next after

theorem Rule.Passes.run_loop {β γ : Type} {turn : β → Rule σ (β ⊕ γ)} {first value : β}
    {start state : State σ} (advance : ∀ value, (turn value).ConsumesWhen fun next => next.isLeft)
    (passes : Passes turn first start value state) :
    (loop turn advance first).run start = (loop turn advance value).run state := by
  induction passes with
  | here => rfl
  | next _ ran ih => exact ih.trans (loopRun_next ran)

namespace Grammar

variable {state inner between : State σ} {progress : BlockProgress}

theorem BlockProgress.moves_of_take {next : BlockProgress} {kind : Kind}
    (taken : progress.take kind = .inl next) : next.size = progress.size + 1 ∧
      next.depth + (if kind = .mark .rightBrace then 1 else 0) =
        progress.depth + if kind = .mark .leftBrace then 1 else 0 := by
  by_cases left : kind = .mark .leftBrace
  · subst left
    obtain rfl := Sum.inl.inj taken
    simp
  by_cases right : kind = .mark .rightBrace
  · subst right
    obtain ⟨depth, size⟩ := progress
    cases depth with
    | zero => simp [BlockProgress.take] at taken
    | succ depth =>
        obtain rfl := Sum.inl.inj taken
        simp
  · rw [BlockProgress.take_other left right] at taken
    obtain rfl := Sum.inl.inj taken
    simp [left, right]

theorem counts_of_passes (passes : Rule.Passes blockStep ⟨0, 0⟩ inner progress between) :
    ∃ before, inner.ahead = before ++ between.ahead ∧
      progress.depth + countMark .rightBrace before = countMark .leftBrace before ∧
      progress.size = before.length := by
  induction passes with
  | here => exact ⟨[], rfl, rfl, rfl⟩
  | @next progress next between after _ ran ih =>
      obtain ⟨before, ahead, depth, size⟩ := ih
      obtain ⟨_, taken, took⟩ := (meets_blockStep progress).answers _ after ran
      obtain ⟨moreSize, moves⟩ := BlockProgress.moves_of_take taken.symm
      refine ⟨before ++ [between.head], by simp [ahead, took.ahead], ?_, by simp [moreSize, size]⟩
      simp only [countMark, List.countP_append, List.countP_singleton, decide_eq_true_eq] at depth ⊢
      omega

end Grammar

/-- A block is read if and only if balanced tokens and a closing brace follow its opening brace, and then
just those are used up.  Otherwise the first token that no block can have is reported.  In every round the
braces still open are those opened so far and not closed, so that no more are closed than opened. -/
theorem block_reads_matching_braces (state : State σ) (starts : state.head.kind = .mark .leftBrace) :
    ((∃ block after, Grammar.block.run state = (.ok block, after)) ↔
      ∃ inside, Encloses state.sound inside) ∧
    (∀ inside, Encloses state.sound inside → (∀ other, Encloses state.sound other → other = inside) ∧
      ∃ block after, Grammar.block.run state = (.ok block, after) ∧ block.size = inside.length ∧
        after.ahead = state.ahead.drop (inside.length + 2) ∧ after.ending = state.ending ∧
        after.session = { state.session with nextId := state.session.nextId + 1 }) ∧
    ((¬∃ inside, Encloses state.sound inside) →
      ∃ after, Grammar.block.run state = (.error .reported, after) ∧ after.ahead = state.unsound ∧
        after.head = state.stop ∧ Grammar.isBlockToken state.stop.kind = false ∧
        after.session.diagnostics = state.session.diagnostics ++ [⟨.error, state.session.file,
          some state.stop.position, .expected [.mark .rightBrace] state.stop⟩]) ∧
    ∃ inner : State σ, state.ahead = state.head :: inner.ahead ∧
      ∀ progress between, Rule.Passes Grammar.blockStep ⟨0, 0⟩ inner progress between →
        Grammar.block.run state =
          (Rule.loop Grammar.blockStep Grammar.consumesWhen_blockStep progress >>= fun size =>
            pure (Block.mk (.fresh state.session.nextId state.head.position) size)).run between ∧
        ∃ before, inner.ahead = before ++ between.ahead ∧
          progress.depth + countMark .rightBrace before = countMark .leftBrace before ∧
          progress.size = before.length := by
  refine ⟨⟨?_, ?_⟩, ?_, ?_, ?_⟩
  · rintro ⟨block, after, ran⟩
    exact Grammar.encloses_of_block starts ran
  · rintro ⟨inside, encloses⟩
    obtain ⟨after, ran, _⟩ := Grammar.run_block_of_encloses starts encloses
    exact ⟨_, after, ran⟩
  · intro inside encloses
    refine ⟨fun other => Grammar.encloses_unique starts encloses, ?_⟩
    obtain ⟨after, ran, ahead, ending, session⟩ := Grammar.run_block_of_encloses starts encloses
    exact ⟨_, after, ran, rfl, ahead, ending, session⟩
  · intro never
    obtain ⟨after, ran, ahead, ending, session⟩ := Grammar.run_block_of_not_encloses starts never
    refine ⟨after, ran, ahead, ?_, state.isBlockToken_stop, ?_⟩
    · rw [State.head, ahead, ending, State.stop]
    · rw [session]
      rfl
  · obtain ⟨inner, ahead, _, _, same⟩ := Grammar.run_block starts
    refine ⟨inner, ahead, fun progress between passes => ⟨?_, Grammar.counts_of_passes passes⟩⟩
    rw [same, Rule.run_bind, Rule.run_bind, passes.run_loop Grammar.consumesWhen_blockStep]

def startOfBlock : List Token :=
  [.symbol (.mark .leftBrace) ⟨1, 1⟩, .symbol (.mark .leftBrace) ⟨1, 2⟩, ⟨.identifier, "x", ⟨1, 3⟩⟩,
    .symbol (.mark .rightBrace) ⟨1, 4⟩]

def blockBefore (tokens : List Token) : State Tape :=
  .ofSource (.ofTokens "a.bgl" (startOfBlock ++ tokens)) 2 .empty

theorem ahead_blockBefore {tokens : List Token} (more : ∀ token ∈ tokens, token.kind ≠ .fileEnd) :
    (blockBefore tokens).ahead = startOfBlock ++ tokens := by
  rw [blockBefore, State.ahead_ofSource, Tape.ahead_ofTokens, List.takeWhile_eq_self_iff]
  simpa [startOfBlock, Token.symbol] using more

theorem starts_blockBefore {tokens : List Token} (more : ∀ token ∈ tokens, token.kind ≠ .fileEnd) :
    (blockBefore tokens).head.kind = .mark .leftBrace := by
  rw [State.head_of_ahead (ahead_blockBefore more)]
  rfl

def closing (column : Nat) : Token :=
  .symbol (.mark .rightBrace) ⟨1, column⟩

theorem encloses_startOfBlock (tokens : List Token) :
    Encloses (startOfBlock ++ closing 5 :: tokens) startOfBlock.tail := by
  refine ⟨_, closing 5, ?_, rfl, ?_, tokens, rfl⟩
  · rfl
  · refine (balanced_cons_left_iff rfl).mpr ((balanced_cons_other_iff ?_ ?_).mpr ?_)
    · simp
    · simp
    · exact (balanced_cons_right_iff rfl).mpr (balanced_nil_iff.mpr rfl)

theorem block_reads_matching_braces_example :
    (∃ block after, Grammar.block.run (blockBefore [closing 5, closing 6]) = (.ok block, after) ∧
      block.size = 3 ∧ after.ahead = [closing 6]) ∧
    ∃ after, Grammar.block.run (blockBefore [⟨.invalid, "?", ⟨1, 5⟩⟩, closing 6]) =
        (.error .reported, after) ∧
      after.head.kind = .invalid ∧ after.ahead.length = 2 := by
  constructor
  · have more : ∀ token ∈ [closing 5, closing 6], token.kind ≠ .fileEnd := by
      simp [closing, Token.symbol]
    have ahead := ahead_blockBefore more
    have sound : (blockBefore [closing 5, closing 6]).sound =
        startOfBlock ++ [closing 5, closing 6] := by
      rw [State.sound, ahead]
      rfl
    obtain ⟨_, closed, _⟩ := block_reads_matching_braces _ (starts_blockBefore more)
    obtain ⟨_, block, after, ran, size, left, _⟩ :=
      closed startOfBlock.tail (sound ▸ encloses_startOfBlock _)
    exact ⟨block, after, ran, size, by rw [left, ahead]; rfl⟩
  · let tokens : List Token := [⟨.invalid, "?", ⟨1, 5⟩⟩, closing 6]
    have more : ∀ token ∈ tokens, token.kind ≠ .fileEnd := by
      simp [tokens, closing, Token.symbol]
    have ahead := ahead_blockBefore more
    obtain ⟨answers, _, stops, _⟩ := block_reads_matching_braces _ (starts_blockBefore more)
    have stopped : (Grammar.block.run (blockBefore tokens)).1.isOk = false := by decide +kernel
    have never : ¬∃ inside, Encloses (blockBefore tokens).sound inside := by
      rw [← answers]
      rintro ⟨block, after, ran⟩
      simp [ran, Except.isOk, Except.toBool] at stopped
    obtain ⟨after, ran, left, head, _⟩ := stops never
    refine ⟨after, ran, ?_, ?_⟩
    · rw [head, State.stop, State.unsound, ahead]
      rfl
    · rw [left, State.unsound, ahead]
      rfl

end Beagle
