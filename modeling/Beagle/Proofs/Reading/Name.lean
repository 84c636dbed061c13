import Beagle.Proofs.Reading.Answer
import Mathlib.Data.List.TakeWhile

/-!
Readings of names, annotations, modifiers and literals.
-/

namespace Beagle

open Spelling

namespace Grammar

open Rule

variable {σ : Type} [TokenSource σ] {state : State σ}

def endsLine (token : Token) : Bool :=
  isTerminator token.kind

theorem endsLine_iff (token : Token) :
    endsLine token = true ↔ token.kind = .mark .semicolon ∨ token.kind = .lineEnd := by
  unfold endsLine isTerminator
  split <;> simp_all

theorem yields_terminatorStep :
    (terminatorStep : Rule σ (Option Unit)).Yields state fun taken after =>
      if endsLine state.head then taken = some () ∧ state.Took state.head after
      else taken = none ∧ state.Same after := by
  refine (yields_takeWhen _ fun token last => by simp [last, isTerminator]).mono ?_
  rintro taken after _ ⟨rfl, moved⟩
  by_cases ends : isTerminator state.head.kind = true
  · simpa [endsLine, ends] using moved
  · simpa [endsLine, ends] using moved

theorem yields_terminators : (terminators : Rule σ Unit).Yields state fun _ after =>
    after.ahead = state.ahead.dropWhile endsLine ∧ after.ending = state.ending ∧
      after.session = state.session := by
  suffices run : (collect terminatorStep consumesWhen_terminatorStep : Rule σ _).Yields state
      fun _ after => after.ahead = state.ahead.dropWhile endsLine ∧ after.ending = state.ending ∧
        after.session = state.session from
    run.bind fun _ _ _ reached => yields_pure reached
  generalize tokens : state.ahead = ahead
  induction ahead generalizing state with
  | nil =>
      refine yields_collect_nil (yields_terminatorStep.mono fun taken after _ moved => ?_)
      simp only [endsLine, State.head_kind_of_nil tokens, isTerminator, Bool.false_eq_true,
        if_false] at moved
      exact ⟨moved.1, moved.2.ahead.trans tokens, moved.2.ending, moved.2.session⟩
  | cons token rest ih =>
      by_cases ends : endsLine token = true
      · refine yields_collect_cons (yields_terminatorStep.mono fun taken after _ moved => ?_)
        rw [State.head_of_ahead tokens, if_pos ends] at moved
        obtain ⟨taken, took⟩ := moved
        have reached : after.ahead = rest := (List.cons.inj (tokens.symm.trans took.ahead)).2.symm
        refine ⟨(), taken, (ih reached).mono ?_⟩
        rintro _ final _ ⟨ahead, ending, session⟩
        rw [List.dropWhile_cons_of_pos ends]
        exact ⟨ahead, ending.trans took.ending, session.trans took.session⟩
      · refine yields_collect_nil (yields_terminatorStep.mono fun taken after _ moved => ?_)
        rw [State.head_of_ahead tokens, if_neg ends] at moved
        rw [List.dropWhile_cons_of_neg ends]
        exact ⟨moved.1, moved.2.ahead.trans tokens, moved.2.ending, moved.2.session⟩

theorem takeWhile_mem_terminators (tokens : List Token) :
    tokens.takeWhile endsLine ∈ Spelling.terminators := by
  intro token member
  exact (endsLine_iff token).mp (List.mem_takeWhile_imp member)

theorem meets_terminators : (terminators : Rule σ Unit).Meets state fun _ after =>
    Answer state after Spelling.terminators [] ∧ after.errors = state.errors := by
  refine yields_terminators.meets.mono fun _ after leads ⟨ahead, _, session⟩ => ⟨⟨leads, by simp, .nil _ _, ?_, ?_⟩, ?_⟩
  · intro _
    refine ⟨_, takeWhile_mem_terminators state.ahead, ?_⟩
    rw [ahead, List.takeWhile_append_dropWhile]
  · intro _
    simp [session]
  · rw [State.errors, session]
    rfl

theorem meets_simpleName_took : (simpleName : Rule σ String).Meets state fun text after =>
    ∃ token, token.kind = .identifier ∧ token.text = text ∧ state.Took token after := by
  refine (meets_expect (by simp)).bind fun token after _ ⟨found, took⟩ => meets_pure ?_
  exact ⟨token, found, rfl, took⟩

theorem meets_simpleName : (simpleName : Rule σ String).Meets state fun text after =>
    Answer state after (identifier text) [] :=
  meets_simpleName_took.mono fun _ _ _ ⟨token, found, text, took⟩ =>
    .took took ⟨token, found, text, rfl⟩

theorem meets_segmentStep : (segmentStep : Rule σ (Option String)).Meets state
    (Either state.Same fun text after => Answer state after (mark .dot * identifier text) []) := by
  refine (yields_startsWith (by simp) (by simp)).meets.bind fun found start _ ⟨_, same⟩ => ?_
  cases found with
  | false => exact meets_pure same
  | true =>
      refine (meets_word (by simp)).bind fun _ middle _ dot => ?_
      refine meets_simpleName.bind fun text after _ name => meets_pure ?_
      exact .same_left same (dot.append name)

theorem meets_qualifiedName : (qualifiedName : Rule σ DottedName).Meets state fun name after =>
    Answer state after (ofName name) [] := by
  refine meets_simpleName.bind fun first middle _ answer => ?_
  refine (meets_collect_answer (fun _ => meets_segmentStep) middle).bind ?_
  rintro rest after _ ⟨last, others, same⟩
  refine meets_pure ?_
  have all := answer.append (Answer.ofNone (others.same_right same))
  simpa [ofName, separated, List.map_map, Function.comp_def] using all

theorem meets_typeRef : (typeRef : Rule σ TypeRef).Meets state fun type after =>
    Answer state after (ofTypeRef type) [.typeRef type] := by
  refine meets_node.bind fun info middle _ opened => ?_
  refine meets_qualifiedName.bind fun name after _ answer => meets_pure ?_
  exact Opened.close (.typeRef ⟨info, name⟩) opened answer (by simp) (.refl _)

theorem meets_annot : (annot : Rule σ Annot).Meets state fun annot after =>
    Answer state after (ofAnnot annot) [.annot annot] := by
  refine meets_node.bind fun info middle _ opened => ?_
  refine (meets_word (by simp)).bind fun _ inside _ sign => ?_
  refine meets_typeRef.bind fun type after _ answer => ?_
  have loose : Loose type := answer.loose (.typeRef type) (by simp)
  refine (yields_assemble (Annot.make_eq loose) ?_).meets
  exact Opened.close (.annot ⟨info, owned info.id type⟩) opened (sign.append answer) (by simp)
    (.refl _)

theorem meets_annotations : (annotations : Rule σ (List Annot)).Meets state fun annotations after =>
    Answer state after (ofAnnots annotations) (annotations.map .annot) := by
  refine (meets_collect_answer (fun _ => meets_whenNext fun _ => meets_annot) state).mono ?_
  rintro annotations after _ ⟨last, answer, same⟩
  exact .ofSingles (answer.same_right same)

theorem meets_modifierStep :
    (modifierStep : Rule σ (Option (Modifier × Position))).Meets state (Either state.Same
      fun item after => Answer state after (word (.modifier item.1)) []) := by
  refine (yields_takeWhen _ fun token last => by simp [last]).meets.mono ?_
  rintro _ after _ ⟨rfl, moved⟩
  split at moved
  · rename_i word found
    exact .took moved (singleton_mem_word found)
  · exact moved

theorem yields_warnRepeated (seen : Modifiers) (run : List (Modifier × Position)) :
    (warnRepeated seen run : Rule σ Unit).Yields state fun _ after => state.Still after := by
  induction run generalizing seen state with
  | nil => exact yields_pure (State.Same.refl state).still
  | cons item run ih =>
      simp only [warnRepeated]
      split
      · refine (yields_report _ _ _).bind fun _ middle _ ⟨ahead, _, session⟩ => ?_
        have early : state.Still middle := by
          refine ⟨ahead, ?_, ?_⟩
          · simp [State.errors, session]
          · simp [session, Session.report]
        exact (ih _).mono fun _ after _ late => early.trans late
      · exact ih _

theorem meets_modifiers : (modifiers : Rule σ (Option Modifiers)).Meets state fun modifiers after =>
    Answer state after (ofModifiers modifiers) [] := by
  refine (meets_collect_answer (fun _ => meets_modifierStep) state).bind ?_
  rintro run middle _ ⟨last, answer, same⟩
  refine (yields_warnRepeated _ run).meets.bind fun _ after leads still => meets_pure ?_
  have all := (Answer.ofNone (answer.same_right same)).append (.still leads still)
  rw [mul_one] at all
  refine all.weaken fun tokens spells => ⟨run.map Prod.fst, ?_, ?_⟩
  · have kinds : tokens ∈ ((run.map fun item => Kind.modifier item.1).map word).prod := by
      rwa [List.map_map]
    rw [mem_prod_word_iff.mp kinds, List.map_map]
    rfl
  · cases run <;> simp

theorem meets_demand (kinds : List Kind) : (demand kinds : Rule σ Token).Meets state
    fun token after => token = state.head ∧ token.kind ∈ kinds ∧ state.Same after := by
  refine yields_current.meets.bind fun token after _ ⟨isHead, same⟩ => ?_
  split
  · rename_i member
    exact meets_pure ⟨isHead, member, same⟩
  · exact meets_refuseExpected _

theorem denotes_of_literalValue {token : Token} {value : LiteralValue}
    (found : literalValue? token = some value) : Denotes token value := by
  unfold literalValue? at found
  split at found <;> rename_i kind
  · rw [← Option.some.inj found]
    exact kind
  · rw [← Option.some.inj found]
    exact kind
  · rw [← Option.some.inj found]
    exact ⟨kind, rfl⟩
  · obtain ⟨number, read, rfl⟩ := Option.map_eq_some_iff.mp found
    exact ⟨kind, read⟩
  · simp at found

theorem meets_literal : (literal : Rule σ Literal).Meets state fun literal after =>
    Answer state after (ofLiteral literal) [.literal literal] := by
  refine (meets_demand _).bind fun token start _ ⟨isHead, wanted, same⟩ => ?_
  refine meets_node.bind fun info middle _ opened => ?_
  split
  · rename_i value read
    refine (yields_discard 1).meets.bind fun _ after leads ⟨ahead, ending, session⟩ => meets_pure ?_
    have more : state.head.kind ≠ .fileEnd := by
      intro last
      rw [isHead, last] at wanted
      simp [literalKinds] at wanted
    have took : middle.Took token after := by
      refine ⟨?_, ending, session, leads.file⟩
      rw [ahead, opened.ahead, same.ahead, isHead]
      exact State.ahead_eq_cons more
    refine .same_left same (Opened.close (.literal ⟨info, value⟩) opened
      (.took took ⟨token, denotes_of_literalValue read, rfl⟩) ?_ (.refl _))
    rintro ⟨_, _, absurd⟩
    simp at absurd
  · exact meets_refuse _ _

end Grammar

end Beagle
