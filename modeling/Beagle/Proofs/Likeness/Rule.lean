import Beagle.Proofs.Likeness.Mask
import Beagle.Proofs.RuleLogic

/-!
Two runs of a rule side by side.  States are alike if they differ only in what a mask hides, and in what
their sessions held to begin with.  Rules mirror each other if from states that are alike they come to
the same end and leave states that are alike: nothing that is hidden decides anything.
-/

namespace Beagle

/-- How two runs are compared: what is hidden, and what either session held to begin with. -/
structure Comparison where
  mask : Mask
  held : List Diagnostic
  others : List Diagnostic

def Stop.masked (mask : Mask) : Stop → Stop
  | .reported => .reported
  | .misattached fault => .misattached (fault.masked mask)

def Stop.outcome {α β : Type} (mask : Mask) (view : α → β) : Except Stop α → Except Stop β
  | .ok value => .ok (view value)
  | .error stop => .error (stop.masked mask)

def Stop.forgiven {α : Type} : Except Stop α → Except Stop (Option α)
  | .ok value => .ok (some value)
  | .error .reported => .ok none
  | .error (.misattached fault) => .error (.misattached fault)

theorem Stop.outcome_forgiven {α β : Type} (mask : Mask) (view : α → β) (result : Except Stop α) :
    outcome mask (Option.map view) (forgiven result) = forgiven (outcome mask view result) := by
  rcases result with (_ | _) | _ <;> rfl

theorem Stop.outcome_misattached {α β : Type} (mask : Mask) (view : α → β) (part : Assembly α) :
    outcome mask view (part.mapError .misattached) = (part.masked mask view).mapError .misattached := by
  cases part <;> rfl

namespace Rule

variable {σ : Type} [TokenSource σ] {α β γ : Type}

theorem run_attempt (rule : Rule σ α) (state : State σ) :
    rule.attempt.run state = (Stop.forgiven (rule.run state).1, (rule.run state).2) := by
  simp only [attempt]
  split <;> rename_i ran <;> rw [ran] <;> rfl

section Repetition

variable {step : Rule σ (Option α)} {progress : step.ConsumesWhen fun item => item.isSome}
variable {state after : State σ}

theorem collectRun_error {stop : Stop} (ran : step.run state = (.error stop, after)) :
    collectRun step progress state = (.error stop, after) := by
  unfold collectRun
  split <;> simp_all

theorem collectRun_none (ran : step.run state = (.ok none, after)) :
    collectRun step progress state = (.ok [], after) := by
  unfold collectRun
  split <;> simp_all

theorem collectRun_some {item : α} (ran : step.run state = (.ok (some item), after)) :
    collectRun step progress state =
      ((collectRun step progress after).1.map (item :: ·), (collectRun step progress after).2) := by
  rw [collectRun]
  split
  · simp_all
  · simp_all
  · rename_i other middle ranOther
    rw [ran] at ranOther
    cases ranOther
    rfl

variable {turn : β → Rule σ (β ⊕ γ)}
variable {advance : ∀ value, (turn value).ConsumesWhen fun next => next.isLeft} {value : β}

theorem loopRun_error {stop : Stop} (ran : (turn value).run state = (.error stop, after)) :
    loopRun turn advance value state = (.error stop, after) := by
  unfold loopRun
  split <;> simp_all

theorem loopRun_done {result : γ} (ran : (turn value).run state = (.ok (.inr result), after)) :
    loopRun turn advance value state = (.ok result, after) := by
  unfold loopRun
  split <;> simp_all

theorem loopRun_next {next : β} (ran : (turn value).run state = (.ok (.inl next), after)) :
    loopRun turn advance value state = loopRun turn advance next after := by
  rw [loopRun]
  split <;> simp_all

end Repetition

end Rule

namespace Comparison

variable {σ τ : Type} [TokenSource σ] [TokenSource τ] {comparison : Comparison}

structure Alike (comparison : Comparison) (left : State σ) (right : State τ) : Prop where
  ahead : left.ahead.map (Token.masked comparison.mask) = right.ahead.map (Token.masked comparison.mask)
  ending : left.ending.masked comparison.mask = right.ending.masked comparison.mask
  file : left.session.file = right.session.file
  nextId : ∀ count, comparison.mask.id (left.session.nextId + count) =
    comparison.mask.id (right.session.nextId + count)
  told : ∃ more others, left.session.diagnostics = comparison.held ++ more ∧
    right.session.diagnostics = comparison.others ++ others ∧
    more.map (Diagnostic.masked comparison.mask) = others.map (Diagnostic.masked comparison.mask)

namespace Alike

variable {left : State σ} {right : State τ} (alike : comparison.Alike left right)

include alike

theorem token (offset : Nat) :
    (left.ahead[offset]?.getD left.ending.token).masked comparison.mask =
      (right.ahead[offset]?.getD right.ending.token).masked comparison.mask := by
  have same := congrArg (fun tokens : List Token => tokens[offset]?) alike.ahead
  simp only [List.getElem?_map] at same
  cases found : left.ahead[offset]? with
  | none =>
      cases other : right.ahead[offset]? with
      | none => exact congrArg FileEnd.token alike.ending
      | some token => simp [found, other] at same
  | some token =>
      cases other : right.ahead[offset]? with
      | none => simp [found, other] at same
      | some image => simpa [found, other] using same

theorem head : left.head.masked comparison.mask = right.head.masked comparison.mask := by
  have first := alike.token 0
  rwa [← List.head?_eq_getElem?, ← List.head?_eq_getElem?] at first

theorem same {leftAfter : State σ} {rightAfter : State τ} (first : left.Same leftAfter)
    (second : right.Same rightAfter) : comparison.Alike leftAfter rightAfter := by
  obtain ⟨ahead, ending, file, nextId, told⟩ := alike
  rw [← first.ahead, ← second.ahead] at ahead
  rw [← first.ending, ← second.ending] at ending
  rw [← first.session, ← second.session] at file told
  simp only [← first.session, ← second.session] at nextId
  exact ⟨ahead, ending, file, nextId, told⟩

theorem report (severity : Severity) {position image : Position} {complaint other : Complaint}
    (samePosition : comparison.mask.position position = comparison.mask.position image)
    (sameComplaint : complaint.masked comparison.mask = other.masked comparison.mask) :
    comparison.Alike { left with session := left.session.report severity (some position) complaint }
      { right with session := right.session.report severity (some image) other } := by
  obtain ⟨more, others, told, toldOther, same⟩ := alike.told
  refine ⟨alike.ahead, alike.ending, alike.file, alike.nextId,
    more ++ [⟨severity, left.session.file, some position, complaint⟩],
    others ++ [⟨severity, right.session.file, some image, other⟩], ?_, ?_, ?_⟩
  · simp [Session.report, told]
  · simp [Session.report, toldOther]
  · simp [Diagnostic.masked, same, alike.file, samePosition, sameComplaint]

end Alike

open Rule

variable {α β γ δ : Type} {view : α → β} {later : γ → δ} {rule : Rule σ α} {other : Rule τ α}

/-- The rules come to the same end from states that are alike, and leave states that are alike.  Of
their answers only a view is compared. -/
def Mirrors (comparison : Comparison) (view : α → β) (rule : Rule σ α) (other : Rule τ α) : Prop :=
  ∀ left right, comparison.Alike left right →
    Stop.outcome comparison.mask view (rule.run left).1 =
      Stop.outcome comparison.mask view (other.run right).1 ∧
    comparison.Alike (rule.run left).2 (other.run right).2

abbrev Blind (comparison : Comparison) (σ τ : Type) [TokenSource σ] [TokenSource τ] (view : α → β)
    (rule : {ρ : Type} → [TokenSource ρ] → Rule ρ α) : Prop :=
  comparison.Mirrors view (rule (ρ := σ)) (rule (ρ := τ))

theorem mirrors_pure {value image : α} (same : view value = view image) :
    comparison.Mirrors view (pure value : Rule σ α) (pure image : Rule τ α) :=
  fun _ _ alike => ⟨congrArg Except.ok same, alike⟩

theorem Mirrors.bind {next : α → Rule σ γ} {otherNext : α → Rule τ γ}
    (first : comparison.Mirrors view rule other)
    (second : ∀ value image, view value = view image →
      comparison.Mirrors later (next value) (otherNext image)) :
    comparison.Mirrors later (rule >>= next) (other >>= otherNext) := by
  intro left right alike
  obtain ⟨same, alikeAfter⟩ := first left right alike
  rw [run_bind, run_bind]
  rcases ran : rule.run left with ⟨_ | value, leftAfter⟩ <;>
    rcases ranOther : other.run right with ⟨_ | image, rightAfter⟩ <;>
    rw [ran, ranOther] at same alikeAfter
  · exact ⟨congrArg Except.error (Except.error.inj same), alikeAfter⟩
  · cases same
  · cases same
  · exact second value image (Except.ok.inj same) leftAfter rightAfter alikeAfter

theorem mirrors_current : comparison.Blind σ τ (Token.masked comparison.mask) current := by
  intro left right alike
  refine ⟨congrArg Except.ok ?_, alike.same (left.same_peek 0) (right.same_peek 0)⟩
  rw [State.peek_zero, State.peek_zero]
  exact alike.head

theorem mirrors_startsWith (kinds : List Kind) :
    comparison.Blind σ τ (fun found => found) (startsWith kinds) := by
  intro left right alike
  refine ⟨congrArg Except.ok (Bool.eq_iff_iff.mpr ?_), alike.same ⟨?_, ?_, rfl, rfl⟩ ⟨?_, ?_, rfl, rfl⟩⟩
  · change (left.tokens.matchesFrom 0 kinds).1 = true ↔ (right.tokens.matchesFrom 0 kinds).1 = true
    rw [Window.matchesFrom_iff, Window.matchesFrom_iff]
    refine forall_congr' fun index => forall_congr' fun kind => ?_
    have same := Token.kind_of_masked (alike.token (0 + index))
    rw [State.ahead, State.ending, State.ahead, State.ending] at same
    rw [same]
  · exact left.tokens.ahead_matchesFrom 0 kinds
  · exact left.tokens.ending_matchesFrom 0 kinds
  · exact right.tokens.ahead_matchesFrom 0 kinds
  · exact right.tokens.ending_matchesFrom 0 kinds

theorem Alike.discard {left : State σ} {right : State τ} (alike : comparison.Alike left right)
    (count : Nat) :
    comparison.Alike { left with tokens := left.tokens.discard count }
      { right with tokens := right.tokens.discard count } := by
  refine ⟨?_, ?_, alike.file, alike.nextId, alike.told⟩
  · have dropped := congrArg (List.drop count) alike.ahead
    rw [← List.map_drop, ← List.map_drop] at dropped
    simpa [State.ahead] using dropped
  · simpa [State.ending] using alike.ending

theorem mirrors_discard (count : Nat) :
    comparison.Blind σ τ (fun done => done) (discard count) :=
  fun _ _ alike => ⟨rfl, alike.discard count⟩

theorem mirrors_takeWhen {choose : Token → Option α}
    (blind : ∀ token image, token.masked comparison.mask = image.masked comparison.mask →
      (choose token).map view = (choose image).map view) :
    comparison.Blind σ τ (Option.map view) (takeWhen choose) := by
  intro left right alike
  have chosen := blind left.head right.head alike.head
  have peeked := alike.same (left.same_peek 0) (right.same_peek 0)
  simp only [takeWhen, State.peek_zero]
  cases first : choose left.head <;> cases second : choose right.head <;> rw [first, second] at chosen
  · exact ⟨rfl, peeked⟩
  · cases chosen
  · cases chosen
  · exact ⟨congrArg Except.ok chosen, peeked.discard 1⟩

theorem mirrors_report {severity : Severity} {position image : Position} {complaint other : Complaint}
    (samePosition : comparison.mask.position position = comparison.mask.position image)
    (sameComplaint : complaint.masked comparison.mask = other.masked comparison.mask) :
    comparison.Mirrors (fun done => done) (report severity position complaint : Rule σ Unit)
      (report severity image other : Rule τ Unit) :=
  fun _ _ alike => ⟨rfl, alike.report severity samePosition sameComplaint⟩

theorem mirrors_refuse {position image : Position} {complaint otherComplaint : Complaint}
    (samePosition : comparison.mask.position position = comparison.mask.position image)
    (sameComplaint : complaint.masked comparison.mask = otherComplaint.masked comparison.mask) :
    comparison.Mirrors view (refuse position complaint : Rule σ α)
      (refuse image otherComplaint : Rule τ α) :=
  fun _ _ alike => ⟨rfl, alike.report .error samePosition sameComplaint⟩

theorem Alike.reportExpected {left : State σ} {right : State τ}
    (alike : comparison.Alike left right) (kinds : List Kind) :
    comparison.Alike
      { left with
        tokens := (left.tokens.peek 0).2
        session := left.session.reportExpected (left.tokens.peek 0).1 kinds }
      { right with
        tokens := (right.tokens.peek 0).2
        session := right.session.reportExpected (right.tokens.peek 0).1 kinds } := by
  have peeked := alike.same (left.same_peek 0) (right.same_peek 0)
  refine peeked.report .error ?_ ?_
  · rw [State.peek_zero, State.peek_zero]
    exact Token.position_of_masked alike.head
  · rw [State.peek_zero, State.peek_zero]
    exact congrArg (Complaint.expected kinds) alike.head

theorem mirrors_reportExpected (kinds : List Kind) :
    comparison.Blind σ τ (fun done => done) (reportExpected kinds) :=
  fun _ _ alike => ⟨rfl, alike.reportExpected kinds⟩

theorem mirrors_refuseExpected (kinds : List Kind) :
    comparison.Blind σ τ view (refuseExpected kinds) :=
  fun _ _ alike => ⟨rfl, alike.reportExpected kinds⟩

theorem mirrors_node : comparison.Blind σ τ (NodeInfo.masked comparison.mask) node := by
  intro left right alike
  have peeked := alike.same (left.same_peek 0) (right.same_peek 0)
  refine ⟨congrArg Except.ok ?_, peeked.ahead, peeked.ending, alike.file, ?_, alike.told⟩
  · have samePosition := Token.position_of_masked alike.head
    rw [← State.peek_zero, ← State.peek_zero] at samePosition
    exact NodeInfo.masked_fresh (alike.nextId 0) samePosition
  · intro count
    have later := alike.nextId (1 + count)
    rwa [← Nat.add_assoc, ← Nat.add_assoc] at later

theorem mirrors_assemble {part image : Assembly α}
    (same : part.masked comparison.mask view = image.masked comparison.mask view) :
    comparison.Mirrors view (assemble part : Rule σ α) (assemble image : Rule τ α) := by
  intro left right alike
  refine ⟨?_, alike⟩
  rw [assemble, Stop.outcome_misattached, same, ← Stop.outcome_misattached]
  rfl

theorem Mirrors.attempt (mirrors : comparison.Mirrors view rule other) :
    comparison.Mirrors (Option.map view) rule.attempt other.attempt := by
  intro left right alike
  obtain ⟨same, alikeAfter⟩ := mirrors left right alike
  rw [run_attempt, run_attempt]
  exact ⟨by rw [Stop.outcome_forgiven, same, ← Stop.outcome_forgiven], alikeAfter⟩

theorem map_cons_congr {first second : α} {rest others : List α} (same : view first = view second)
    (sameRest : rest.map view = others.map view) :
    (first :: rest).map view = (second :: others).map view := by
  rw [List.map_cons, List.map_cons, same, sameRest]

section Repetition

variable {step : Rule σ (Option α)} {progress : step.ConsumesWhen fun item => item.isSome}
variable {otherStep : Rule τ (Option α)}
variable {otherProgress : otherStep.ConsumesWhen fun item => item.isSome}

theorem mirrors_collect (mirrors : comparison.Mirrors (Option.map view) step otherStep) :
    comparison.Mirrors (List.map view) (collect step progress) (collect otherStep otherProgress) := by
  intro left right alike
  simp only [collect]
  fun_induction collectRun step progress left generalizing right with
  | case1 left stop leftAfter ran =>
      obtain ⟨same, alikeAfter⟩ := mirrors left right alike
      rcases ranOther : otherStep.run right with ⟨_ | item, rightAfter⟩ <;>
        rw [ran, ranOther] at same alikeAfter
      · rw [collectRun_error ranOther]
        exact ⟨congrArg Except.error (Except.error.inj same), alikeAfter⟩
      · cases same
  | case2 left leftAfter ran =>
      obtain ⟨same, alikeAfter⟩ := mirrors left right alike
      rcases ranOther : otherStep.run right with ⟨_ | _ | item, rightAfter⟩ <;>
        rw [ran, ranOther] at same alikeAfter
      · cases same
      · rw [collectRun_none ranOther]
        exact ⟨rfl, alikeAfter⟩
      · cases same
  | case3 left item leftAfter ran shorter items final rest ih =>
      obtain ⟨same, alikeAfter⟩ := mirrors left right alike
      rcases ranOther : otherStep.run right with ⟨_ | _ | image, rightAfter⟩ <;>
        rw [ran, ranOther] at same alikeAfter
      · cases same
      · cases same
      · rw [collectRun_some ranOther]
        obtain ⟨sameRest, alikeRest⟩ := ih rightAfter alikeAfter
        rw [rest] at sameRest alikeRest
        refine ⟨?_, alikeRest⟩
        have sameItem := Option.some.inj (Except.ok.inj same)
        cases items <;> cases images : (collectRun otherStep otherProgress rightAfter).1 <;>
          rw [images] at sameRest
        · exact congrArg Except.error (Except.error.inj sameRest)
        · cases sameRest
        · cases sameRest
        · exact congrArg Except.ok (map_cons_congr sameItem (Except.ok.inj sameRest))

variable {turn : β → Rule σ (β ⊕ γ)} {otherTurn : β → Rule τ (β ⊕ γ)}
variable {advance : ∀ value, (turn value).ConsumesWhen fun next => next.isLeft}
variable {otherAdvance : ∀ value, (otherTurn value).ConsumesWhen fun next => next.isLeft}

theorem mirrors_loop
    (mirrors : ∀ value, comparison.Mirrors (fun answer => answer) (turn value) (otherTurn value))
    (value : β) :
    comparison.Mirrors (fun result => result) (loop turn advance value)
      (loop otherTurn otherAdvance value) := by
  intro left right alike
  simp only [loop]
  fun_induction loopRun turn advance value left generalizing right with
  | case1 value left stop leftAfter ran =>
      obtain ⟨same, alikeAfter⟩ := mirrors value left right alike
      rcases ranOther : (otherTurn value).run right with ⟨_ | answer, rightAfter⟩ <;>
        rw [ran, ranOther] at same alikeAfter
      · rw [loopRun_error ranOther]
        exact ⟨congrArg Except.error (Except.error.inj same), alikeAfter⟩
      · cases same
  | case2 value left result leftAfter ran =>
      obtain ⟨same, alikeAfter⟩ := mirrors value left right alike
      rcases ranOther : (otherTurn value).run right with ⟨_ | answer, rightAfter⟩ <;>
        rw [ran, ranOther] at same alikeAfter
      · cases same
      · obtain rfl := Except.ok.inj same
        rw [loopRun_done ranOther]
        exact ⟨rfl, alikeAfter⟩
  | case3 value left next leftAfter ran shorter ih =>
      obtain ⟨same, alikeAfter⟩ := mirrors value left right alike
      rcases ranOther : (otherTurn value).run right with ⟨_ | answer, rightAfter⟩ <;>
        rw [ran, ranOther] at same alikeAfter
      · cases same
      · obtain rfl := Except.ok.inj same
        rw [loopRun_next ranOther]
        exact ih rightAfter alikeAfter

end Repetition

theorem mirrors_check (kind : Kind) : comparison.Blind σ τ (fun found => found) (check kind) :=
  mirrors_current.bind fun token image same => mirrors_pure (by rw [Token.kind_of_masked same])

theorem mirrors_demand (kinds : List Kind) :
    comparison.Blind σ τ (Token.masked comparison.mask) (demand kinds) := by
  refine mirrors_current.bind fun token image same => ?_
  rw [Token.kind_of_masked same]
  split
  · exact mirrors_pure same
  · exact mirrors_refuseExpected kinds

theorem blind_kind (kind : Kind) (token image : Token)
    (same : token.masked comparison.mask = image.masked comparison.mask) :
    (if token.kind = kind then some token else none).map (Token.masked comparison.mask) =
      (if image.kind = kind then some image else none).map (Token.masked comparison.mask) := by
  rw [Token.kind_of_masked same]
  split
  · exact congrArg some same
  · rfl

theorem mirrors_expect (kind : Kind) :
    comparison.Blind σ τ (Token.masked comparison.mask) (expect kind) := by
  refine (mirrors_takeWhen (blind_kind kind)).bind ?_
  rintro (_ | token) (_ | image) same
  · exact mirrors_refuseExpected _
  · cases same
  · cases same
  · exact mirrors_pure (Option.some.inj same)

theorem mirrors_accept (kind : Kind) :
    comparison.Blind σ τ (fun accepted => accepted) (accept kind) := by
  have blind : ∀ token image : Token, token.masked comparison.mask = image.masked comparison.mask →
      (if token.kind = kind then some () else none).map (fun taken => taken) =
        (if image.kind = kind then some () else none).map (fun taken => taken) := by
    intro token image same
    rw [Token.kind_of_masked same]
  refine (mirrors_takeWhen blind).bind fun taken image same => mirrors_pure ?_
  simp only [Option.map_id'] at same
  rw [same]

theorem mirrors_whenNext (kind : Kind) (mirrors : comparison.Mirrors view rule other) :
    comparison.Mirrors (Option.map view) (whenNext kind rule) (whenNext kind other) := by
  refine (mirrors_check kind).bind fun found image same => ?_
  subst same
  cases found with
  | false => exact mirrors_pure rfl
  | true => exact mirrors.bind fun value image same => mirrors_pure (congrArg some same)

theorem mirrors_after (kind : Kind) (mirrors : comparison.Mirrors view rule other) :
    comparison.Mirrors (Option.map view) (after kind rule) (after kind other) := by
  refine (mirrors_accept kind).bind fun accepted image same => ?_
  subst same
  cases accepted with
  | false => exact mirrors_pure rfl
  | true => exact mirrors.bind fun value image same => mirrors_pure (congrArg some same)

theorem mirrors_commaSeparated (mirrors : comparison.Mirrors view rule other) :
    comparison.Mirrors (List.map view) (commaSeparated rule) (commaSeparated other) :=
  mirrors.bind fun _ _ same => (mirrors_collect (mirrors_after _ mirrors)).bind fun _ _ sameRest =>
    mirrors_pure (map_cons_congr same sameRest)

end Comparison

end Beagle
