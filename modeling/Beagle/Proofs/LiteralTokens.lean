import Beagle.Proofs.Blocks

/-!
Literals, token by token.  The current token alone settles what the rule for literals does: it has a value
and is used up, or it is an integer out of range, or it is no literal.  In the last two cases one error is
reported there and nothing is used up.
-/

namespace Beagle

namespace Numeral

variable {digits : List Char}

theorem signed?_of_digits (nonempty : digits ≠ []) (areDigits : ∀ digit ∈ digits, digit.isDigit) :
    signed? digits = some (value digits : Int) := by
  have read : unsigned? digits = some (value digits) := by
    simpa [unsigned?, nonempty] using areDigits
  have unsigned {sign : Char} (other : sign.isDigit = false) : ∀ rest, digits ≠ sign :: rest := by
    rintro rest rfl
    simp [areDigits sign (by simp)] at other
  unfold signed?
  split
  · exact absurd rfl (unsigned rfl _)
  · exact absurd rfl (unsigned rfl _)
  · rw [read]
    rfl

theorem int32?_of_digits (nonempty : digits ≠ []) (areDigits : ∀ digit ∈ digits, digit.isDigit) :
    int32? (String.ofList digits) =
      if value digits < 2 ^ 31 then some (.ofInt (value digits)) else none := by
  have small : (-2147483648 ≤ (value digits : Int) ∧ (value digits : Int) ≤ 2147483647) ↔
      value digits < 2 ^ 31 := by omega
  simp only [int32?, String.toList_ofList, signed?_of_digits nonempty areDigits, Option.bind_eq_bind,
    Option.bind_some, small]

end Numeral

namespace Grammar

open Rule

variable {σ : Type} [TokenSource σ] {state : State σ}

theorem kind_of_literalValue {token : Token} {value : LiteralValue}
    (read : literalValue? token = some value) : token.kind ∈ literalKinds :=
  (literalValue_of_denotes (denotes_of_literalValue read)).1

theorem yields_demand {kinds : List Kind} (wanted : state.head.kind ∈ kinds) :
    (demand kinds : Rule σ Token).Yields state fun token after =>
      token = state.head ∧ state.Same after := by
  refine yields_current.bind fun token after _ ⟨isHead, same⟩ => ?_
  rw [if_pos (isHead ▸ wanted)]
  exact yields_pure ⟨isHead, same⟩

theorem run_literal (wanted : state.head.kind ∈ literalKinds) : ∃ here : State σ,
    here.ahead = state.ahead ∧ here.ending = state.ending ∧
      here.session = (state.session.node state.head.position).2 ∧
      literal.run state = ((literalValue? state.head).elim
        (refuse state.head.position (.integerRange state.head.text)) fun value =>
          Rule.discard 1 >>= fun _ =>
            pure ⟨.fresh state.session.nextId state.head.position, value⟩ : Rule σ Literal).run here := by
  obtain ⟨token, start, demanded, rfl, same⟩ := yields_demand wanted
  obtain ⟨info, here, made, rfl, ahead, ending, session⟩ := yields_node_session start
  rw [same.head, same.session] at session
  refine ⟨here, ahead.trans same.ahead, ending.trans same.ending, session, ?_⟩
  rw [literal, run_bind, demanded]
  change (node >>= _).run start = _
  rw [run_bind, made, same.head, same.session]
  cases literalValue? state.head <;> rfl

theorem yields_literal {value : LiteralValue} (read : literalValue? state.head = some value) :
    (literal : Rule σ Literal).Yields state fun literal after =>
      literal = ⟨.fresh state.session.nextId state.head.position, value⟩ ∧
        after.ahead = state.ahead.drop 1 ∧ after.ending = state.ending ∧
        after.session = (state.session.node state.head.position).2 := by
  obtain ⟨here, ahead, ending, session, ran⟩ := run_literal (kind_of_literalValue read)
  obtain ⟨_, after, dropped, left, still, told⟩ := (yields_discard 1 : Yields _ here _)
  refine ⟨_, after, ?_, rfl, ahead ▸ left, still.trans ending, told.trans session⟩
  rw [ran, read, Option.elim_some, run_bind, dropped]
  rfl

theorem refuses_literal_range (wanted : state.head.kind ∈ literalKinds)
    (absent : literalValue? state.head = none) : ∃ after, literal.run state = (.error .reported, after) ∧
      after.ahead = state.ahead ∧ after.ending = state.ending ∧
      after.session = (state.session.node state.head.position).2.report .error
        (some state.head.position) (.integerRange state.head.text) := by
  obtain ⟨here, ahead, ending, session, ran⟩ := run_literal wanted
  rw [absent] at ran
  exact ⟨_, ran, ahead, ending, congrArg (Session.report · _ _ _) session⟩

theorem refuses_literal_kind (unwanted : state.head.kind ∉ literalKinds) : ∃ after,
    literal.run state = (.error .reported, after) ∧ after.ahead = state.ahead ∧
      after.ending = state.ending ∧ after.session = state.session.reportExpected state.head literalKinds := by
  obtain ⟨token, here, ran, rfl, same⟩ := (yields_current : Yields _ state _)
  have refused : (refuseExpected literalKinds : Rule σ Token).run here = (.error .reported, _) := rfl
  obtain ⟨ahead, ending, session⟩ := stopped_refuseExpected refused
  refine ⟨_, ?_, ahead.trans same.ahead, ending.trans same.ending, ?_⟩
  · rw [literal, run_bind, demand, run_bind, ran]
    simp only [if_neg unwanted, refused]
  · rw [session, same.session, same.head]

end Grammar

end Beagle
