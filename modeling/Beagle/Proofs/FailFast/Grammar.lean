import Beagle.Proofs.FailFast.Rule
import Beagle.Proofs.Reading.Unit

/-!
Where the rules of the grammar stop.  All are strict up to fields: a field with too many or too few
initial values is read to its end and then refused at its first token.  What comes after a field, and
every rule that may read one, either stops at the token that it reported or at such a field.
-/

namespace Beagle

open Spelling

namespace Grammar

open Rule

variable {σ : Type} [TokenSource σ]

theorem strict_terminators : (terminators : Rule σ Unit).Strict :=
  (strict_collect (strict_takeWhen _)).bind fun _ => strict_pure _

theorem strict_simpleName : (simpleName : Rule σ String).Strict :=
  (strict_expect _).bind fun _ => strict_pure _

theorem strict_segmentStep : (segmentStep : Rule σ (Option String)).Strict := by
  refine (strict_startsWith _).bind fun found => ?_
  cases found with
  | false => exact strict_pure none
  | true => exact (strict_expect _).bind fun _ => strict_simpleName.bind fun _ => strict_pure _

theorem strict_qualifiedName : (qualifiedName : Rule σ DottedName).Strict :=
  strict_simpleName.bind fun _ => (strict_collect strict_segmentStep).bind fun _ => strict_pure _

theorem strict_typeRef : (typeRef : Rule σ TypeRef).Strict :=
  strict_node.bind fun _ => strict_qualifiedName.bind fun _ => strict_pure _

theorem strict_annot : (annot : Rule σ Annot).Strict :=
  strict_node.bind fun _ => (strict_expect _).bind fun _ => strict_typeRef.bind fun _ =>
    strict_assemble _

theorem strict_annotations : (annotations : Rule σ (List Annot)).Strict :=
  strict_collect (strict_whenNext _ strict_annot)

theorem strict_warnRepeated (seen : Modifiers) (run : List (Modifier × Position)) :
    (warnRepeated seen run : Rule σ Unit).Strict :=
  strict_of_yields fun _ => (yields_warnRepeated seen run).mono fun _ _ _ still => still.errors

theorem strict_modifiers : (modifiers : Rule σ (Option Modifiers)).Strict :=
  (strict_collect (strict_takeWhen _)).bind fun _ => (strict_warnRepeated _ _).bind fun _ =>
    strict_pure _

theorem strict_demand (kinds : List Kind) : (demand kinds : Rule σ Token).Strict := by
  refine strict_current.bind fun token => ?_
  split
  · exact strict_pure token
  · exact strict_refuseExpected kinds

theorem strict_literal : (literal : Rule σ Literal).Strict := by
  refine ⟨(strict_demand _).quiet.bind fun token => strict_node.quiet.bind fun _ => ?_, ?_⟩
  · split
    · exact ((strict_discard 1).bind fun _ => strict_pure _).quiet
    · exact quiet_refuse _ _
  · intro state after stopped
    rcases stopped_of_bind stopped with early | ⟨token, start, demanded, late⟩
    · exact (strict_demand _).blames state after early
    rcases stopped_of_bind late with early | ⟨info, here, made, late⟩
    · exact (strict_node.blames start after early).after (leads_of_run demanded)
    refine State.Blames.after ((leads_of_run demanded).trans (leads_of_run made)) ?_
    split at late
    · exact ((strict_discard 1).bind fun _ => strict_pure _).blames here after late
    · obtain rfl : ⟨_, _, _⟩ = after := congrArg Prod.snd late
      obtain ⟨isHead, _, same⟩ := (meets_demand _).answers token start demanded
      obtain ⟨_, ahead, ending, _⟩ := yields_node.meets.answers info here made
      have unmoved : here.head = start.head := by
        rw [State.head, State.head, ahead, ending]
      exact blames_report here.tokens rfl rfl (by simp) (by rw [isHead, unmoved, same.head])

theorem strict_preamble : (preamble : Rule σ Preamble).Strict :=
  strict_node.bind fun _ => strict_annotations.bind fun _ => strict_modifiers.bind fun _ =>
    strict_pure _

theorem strict_declaredName : (declaredName : Rule σ (String × Position)).Strict :=
  strict_current.bind fun _ => strict_simpleName.bind fun _ => strict_pure _

theorem strict_optionalType : (optionalType : Rule σ (Option TypeRef)).Strict :=
  strict_after _ strict_typeRef

theorem strict_initials (kind : FieldKind) : (initials kind : Rule σ (List Literal)).Strict := by
  refine (strict_after _ (strict_commaSeparated strict_literal)).bind ?_
  rintro (_ | literals)
  · cases kind with
    | mutable => exact strict_pure []
    | constant => exact strict_refuseExpected _
  · exact strict_pure literals

theorem strict_param : (param : Rule σ Param).Strict :=
  strict_node.bind fun _ => strict_simpleName.bind fun _ => (strict_expect _).bind fun _ =>
    strict_typeRef.bind fun _ => strict_assemble _

theorem strict_params : (params : Rule σ (List Param)).Strict := by
  refine (strict_expect _).bind fun _ => .bind ?_ fun _ => (strict_expect _).bind fun _ => strict_pure _
  refine (strict_check _).bind fun closed => ?_
  cases closed with
  | true => exact strict_pure []
  | false => exact strict_commaSeparated strict_param

theorem strict_blockStep (progress : BlockProgress) :
    (blockStep progress : Rule σ (BlockProgress ⊕ Nat)).Strict := by
  refine (strict_takeWhen _).bind fun taken => ?_
  cases taken with
  | none => exact strict_refuseExpected _
  | some kind => exact strict_pure _

theorem strict_block : (block : Rule σ Block).Strict :=
  strict_node.bind fun _ => (strict_expect _).bind fun _ =>
    (strict_loop strict_blockStep _).bind fun _ => strict_pure _

theorem strict_method (start : Preamble) : (method start : Rule σ Method).Strict :=
  (strict_expect _).bind fun _ => strict_simpleName.bind fun _ => strict_params.bind fun _ =>
    strict_optionalType.bind fun _ => (strict_whenNext _ strict_block).bind fun _ => strict_assemble _

theorem strict_packageClause : (packageClause : Rule σ PackageClause).Strict :=
  strict_node.bind fun _ => (strict_expect _).bind fun _ => strict_qualifiedName.bind fun _ =>
    strict_pure _

theorem strict_bases : (bases : Rule σ (List TypeRef)).Strict :=
  (strict_after _ (strict_commaSeparated strict_typeRef)).bind fun _ => strict_pure _

end Grammar

namespace Spelling

def miscounted : Language Token :=
  {tokens | ∃ annotations modifiers kind type, ∃ names : List (String × Position),
    ∃ initials : List Literal, initials.length ≠ names.length ∧
    tokens ∈ ofAnnots annotations * ofModifiers modifiers * (keyword (Grammar.fieldWord kind) *
      (separated .comma (names.map declared) * (ofOptionalType type *
        (mark .assign * separated .comma (initials.map ofLiteral)))))}

def membersSoFar : Language Token :=
  {tokens | ∃ members, tokens ∈ ofMembers members * terminators}

def upToMember : Language Token :=
  {tokens | ∃ outer inner, tokens = outer ++ inner ∧ inner ∈ mark .leftBrace * membersSoFar}

end Spelling

namespace State

variable {σ : Type} [TokenSource σ]

/-- The last thing told in between is that a field is miscounted.  It was told at the first token of
the field, and `front` stands before that. -/
def Miscounts (front : Language Token) (before after : State σ) : Prop :=
  ∃ last skipped field, before.Told after last ∧ last.complaint = .initializerCount ∧
    before.ahead = skipped ++ field ++ after.ahead ∧ skipped ∈ front ∧ field ∈ miscounted ∧
    last.position = field.head?.map Token.position

theorem Miscounts.after {front wider : Language Token} {first before after : State σ}
    {tokens : List Token} (leads : first.Leads before) (ahead : first.ahead = tokens ++ before.ahead)
    (widen : ∀ skipped ∈ front, tokens ++ skipped ∈ wider) (miscounts : before.Miscounts front after) :
    first.Miscounts wider after := by
  obtain ⟨last, skipped, field, told, complaint, aheadLater, place, offends, position⟩ := miscounts
  refine ⟨last, tokens ++ skipped, field, told.after leads, complaint, ?_, widen skipped place, offends,
    position⟩
  rw [ahead, aheadLater]
  simp only [List.append_assoc]

theorem Miscounts.later {first before after : State σ} (leads : first.Leads before)
    (miscounts : before.Miscounts upToMember after) : first.Miscounts upToMember after := by
  obtain ⟨tokens, ahead⟩ := leads.ahead
  refine miscounts.after leads ahead.symm ?_
  rintro _ ⟨outer, inner, rfl, inside⟩
  exact ⟨tokens ++ outer, inner, by simp, inside⟩

end State

namespace Grammar

open Rule

variable {σ : Type} [TokenSource σ] {before state after : State σ} {start : Preamble}

theorem Begun.leads (begun : Begun before state start) : before.Leads state := by
  obtain ⟨_, opens, startRead⟩ := begun
  exact opens.leads.trans startRead.leads

theorem quiet_field (start : Preamble) (kind : FieldKind) : (field start kind : Rule σ Field).Quiet := by
  refine (strict_expect _).quiet.bind fun _ => ?_
  refine (strict_commaSeparated strict_declaredName).quiet.bind fun _ => ?_
  refine strict_optionalType.quiet.bind fun _ => (strict_initials kind).quiet.bind fun _ => ?_
  split
  · exact quiet_refuse _ _
  · exact (strict_assemble _).quiet

theorem stops_field {kind : FieldKind} (begun : Begun before state start)
    (clean : state.errors = before.errors)
    (stopped : (field start kind).run state = (.error .reported, after)) :
    before.Blames after ∨ before.Miscounts 1 after := by
  refine Classical.or_iff_not_imp_left.mpr fun innocent => ?_
  obtain ⟨_, first, ran, quietWord, leads, stopped⟩ :=
    (strict_expect _).passed begun.leads innocent stopped
  have wordRead := (meets_word (by simp)).answers _ first ran
  obtain ⟨names, second, ran, quietNames, leads, stopped⟩ :=
    (strict_commaSeparated strict_declaredName).passed leads innocent stopped
  have namesRead := (meets_commaSeparated fun _ => meets_declaredName).answers names second ran
  obtain ⟨type, third, ran, quietType, leads, stopped⟩ :=
    strict_optionalType.passed leads innocent stopped
  have typeRead := meets_optionalType.answers type third ran
  obtain ⟨initials, fourth, ran, quietInitials, leads, stopped⟩ :=
    (strict_initials kind).passed leads innocent stopped
  have initialsRead := (meets_initials kind).answers initials fourth ran
  split at stopped
  · rename_i wrong
    obtain ⟨given, differ⟩ : initials ≠ [] ∧ initials.length ≠ names.length := by simpa using wrong
    obtain rfl : ⟨_, _, _⟩ = after := congrArg Prod.snd stopped
    have valuesRead := initialsRead.weaken fun tokens spells =>
      spells.resolve_left fun absent => given absent.2.1
    obtain ⟨opened, opens, startRead⟩ := begun
    have allRead := startRead.append (wordRead.append ((Answer.ofNone namesRead).append
      (typeRead.append valuesRead)))
    have quiet : fourth.errors = opened.errors := by
      rw [quietInitials, quietType, quietNames, quietWord, clean, opens.errors]
    obtain ⟨tokens, spells, ahead⟩ := allRead.spelled quiet
    rw [opens.ahead] at ahead
    refine ⟨⟨.error, fourth.session.file, some start.info.position, .initializerCount⟩, [], tokens,
      .after leads ⟨rfl, [], ?_⟩, rfl, ahead, rfl, ⟨_, _, kind, type, names, initials, differ, spells⟩, ?_⟩
    · simp [Session.report]
    · cases tokens with
      | nil => simp at spells
      | cons token rest =>
          rw [opens.fresh, State.head_of_ahead ahead]
          rfl
  · exact absurd (((strict_assemble _).blames fourth after stopped).after leads) innocent

theorem stops_memberAfter (begun : Begun before state start) (clean : state.errors = before.errors)
    (stopped : (memberAfter start).run state = (.error .reported, after)) :
    before.Blames after ∨ before.Miscounts 1 after := by
  refine Classical.or_iff_not_imp_left.mpr fun innocent => ?_
  obtain ⟨token, here, ran, quiet, leads, stopped⟩ := strict_current.passed begun.leads innocent stopped
  obtain ⟨_, same⟩ := yields_current.meets.answers token here ran
  have begun := begun.same_right same
  split at stopped
  · exact (stops_field begun (quiet.trans clean) (stopped_of_bind_pure stopped)).resolve_left innocent
  · exact (stops_field begun (quiet.trans clean) (stopped_of_bind_pure stopped)).resolve_left innocent
  · have blames := (strict_method start).blames here after (stopped_of_bind_pure stopped)
    exact absurd (blames.after leads) innocent
  · cases stopped_of_bind_pure stopped

theorem stops_memberStep (stopped : memberStep.run state = (.error .reported, after)) :
    state.Blames after ∨ state.Miscounts Spelling.terminators after := by
  refine Classical.or_iff_not_imp_left.mpr fun innocent => ?_
  obtain ⟨_, skipped, ran, quiet, leads, stopped⟩ :=
    strict_terminators.passed (.refl state) innocent stopped
  obtain ⟨tokens, spells, ahead⟩ := (meets_terminators.answers _ skipped ran).1.spelled quiet
  obtain ⟨closed, here, ran, _, leads, stopped⟩ := (strict_check _).passed leads innocent stopped
  obtain ⟨_, same⟩ := (yields_check _).meets.answers closed here ran
  cases closed with
  | true => nomatch congrArg Prod.fst stopped
  | false =>
      obtain ⟨start, begun, ran, quiet, _, stopped⟩ := strict_preamble.passed leads innocent stopped
      rcases stops_memberAfter (meets_preamble.answers start begun ran) quiet stopped with
        blames | miscounts
      · exact absurd (blames.after leads) innocent
      · refine miscounts.after leads (ahead.trans (by rw [same.ahead])) ?_
        rintro _ rfl
        simpa using spells

theorem errors_of_memberAfter {member : Member}
    (ran : (memberAfter start).run state = (.ok (some member), after)) : after.errors = state.errors := by
  obtain ⟨token, here, ranCurrent, ran⟩ := answered_of_bind ran
  rw [← strict_current.quiet state token here ranCurrent]
  split at ran
  · exact ((quiet_field _ _).bind fun _ => (strict_pure _).quiet) here _ after ran
  · exact ((quiet_field _ _).bind fun _ => (strict_pure _).quiet) here _ after ran
  · exact ((strict_method _).bind fun _ => strict_pure _).quiet here _ after ran
  · nomatch congrArg Prod.fst ran

theorem errors_of_memberStep {member : Member} (ran : memberStep.run state = (.ok (some member), after)) :
    after.errors = state.errors := by
  obtain ⟨_, skipped, ranSkip, ran⟩ := answered_of_bind ran
  obtain ⟨closed, here, ranCheck, ran⟩ := answered_of_bind ran
  rw [← strict_terminators.quiet state _ skipped ranSkip, ← (strict_check _).quiet skipped _ here ranCheck]
  cases closed with
  | true => nomatch congrArg Prod.fst ran
  | false =>
      obtain ⟨start, begun, ranStart, ran⟩ := answered_of_bind ran
      rw [errors_of_memberAfter ran, strict_preamble.quiet here start begun ranStart]

theorem stops_members
    (stopped : (collect memberStep consumesWhen_memberStep).run state = (.error .reported, after)) :
    state.Blames after ∨ state.Miscounts membersSoFar after := by
  refine stops_collect (fun state after => state.Blames after ∨ state.Miscounts membersSoFar after)
    ?_ ?_ stopped
  · intro state after stopped
    refine (stops_memberStep stopped).imp id fun miscounts => ?_
    exact miscounts.after (.refl state) (List.nil_append _).symm fun skipped place =>
      ⟨[], by simpa [ofMembers] using place⟩
  · rintro state member middle after ran (blames | miscounts)
    · exact .inl (blames.after (leads_of_run ran))
    · obtain ⟨tokens, spells, ahead⟩ :=
        (meets_memberStep.answers (some member) middle ran).spelled (errors_of_memberStep ran)
      refine .inr (miscounts.after (leads_of_run ran) ahead ?_)
      rintro skipped ⟨members, place⟩
      refine ⟨member :: members, ?_⟩
      rw [ofMembers, List.map_cons, List.prod_cons, mul_assoc]
      exact Language.append_mem_mul spells place

def FailsFast {α : Type} (rule : Rule σ α) : Prop :=
  ∀ state after, rule.run state = (.error .reported, after) →
    state.Blames after ∨ state.Miscounts upToMember after

section Composition

variable {α β : Type} {rule : Rule σ α} {next : α → Rule σ β}

theorem failsFast_of_strict (strict : rule.Strict) : FailsFast rule :=
  fun state after stopped => .inl (strict.blames state after stopped)

theorem FailsFast.bind (first : FailsFast rule) (second : ∀ value, FailsFast (next value)) :
    FailsFast (rule >>= next) := by
  intro state after stopped
  rcases stopped_of_bind stopped with early | ⟨value, middle, ran, late⟩
  · exact first state after early
  · have leads := leads_of_run ran
    exact (second value middle after late).imp (·.after leads) (·.later leads)

theorem failsFast_bind (first : rule.Strict) (second : ∀ value, FailsFast (next value)) :
    FailsFast (rule >>= next) :=
  (failsFast_of_strict first).bind second

theorem failsFast_pure (value : α) : FailsFast (pure value : Rule σ α) :=
  failsFast_of_strict (strict_pure value)

theorem failsFast_attempt (rule : Rule σ α) : FailsFast rule.attempt := by
  intro state after stopped
  simp only [attempt] at stopped
  split at stopped <;> simp at stopped

theorem failsFast_collect {step : Rule σ (Option α)}
    {progress : step.ConsumesWhen fun item => item.isSome} (steps : FailsFast step) :
    FailsFast (collect step progress) := by
  intro state after
  refine stops_collect (fun state after => state.Blames after ∨ state.Miscounts upToMember after) steps ?_
  intro state item middle after ran fails
  exact fails.imp (·.after (leads_of_run ran)) (·.later (leads_of_run ran))

end Composition

theorem failsFast_body : FailsFast (body : Rule σ Body) := by
  refine failsFast_bind strict_node fun info state after stopped => ?_
  refine Classical.or_iff_not_imp_left.mpr fun innocent => ?_
  obtain ⟨_, inside, ran, quiet, leads, stopped⟩ :=
    (strict_expect _).passed (.refl state) innocent stopped
  obtain ⟨brace, isBrace, ahead⟩ := ((meets_word (by simp)).answers _ inside ran).spelled quiet
  rcases stopped_of_bind stopped with early | ⟨_, ended, ran, late⟩
  · rcases stops_members early with blames | miscounts
    · exact absurd (blames.after leads) innocent
    · refine miscounts.after leads ahead fun skipped place => ?_
      exact ⟨[], brace ++ skipped, rfl, Language.append_mem_mul isBrace place⟩
  · have blames := ((strict_discard 1).bind fun _ => strict_assemble _).blames ended after late
    exact absurd (blames.after (leads.trans (leads_of_run ran))) innocent

theorem failsFast_typeDecl : FailsFast (typeDecl : Rule σ TypeDecl) := by
  refine failsFast_bind strict_preamble fun _ => failsFast_bind (strict_expect _) fun _ => ?_
  refine failsFast_bind strict_qualifiedName fun _ => failsFast_bind strict_bases fun _ => ?_
  refine failsFast_bind strict_terminators fun _ => .bind ?_ fun _ =>
    failsFast_of_strict (strict_assemble _)
  refine failsFast_bind (strict_check _) fun found => ?_
  cases found with
  | false => exact failsFast_pure none
  | true => exact failsFast_body.bind fun _ => failsFast_pure _

theorem failsFast_importStep : FailsFast (importStep : Rule σ (Option ImportClause)) := by
  refine failsFast_bind (strict_check _) fun found => ?_
  cases found with
  | false => exact failsFast_pure none
  | true =>
      refine (failsFast_attempt _).bind fun clause => ?_
      cases clause with
      | none => exact failsFast_pure none
      | some clause => exact failsFast_bind strict_terminators fun _ => failsFast_pure _

theorem failsFast_typeStep : FailsFast (typeStep : Rule σ (Option TypeDecl)) := by
  refine failsFast_bind strict_terminators fun _ => failsFast_bind (strict_check _) fun ended => ?_
  cases ended with
  | true => exact failsFast_pure none
  | false => exact failsFast_typeDecl.bind fun _ => failsFast_pure _

theorem failsFast_unit (file : String) : FailsFast (unit file : Rule σ SourceUnit) := by
  refine failsFast_bind strict_node fun _ => failsFast_bind strict_terminators fun _ => ?_
  refine failsFast_bind (strict_whenNext _ strict_packageClause) fun _ => ?_
  refine failsFast_bind strict_terminators fun _ => ?_
  refine (failsFast_collect failsFast_importStep).bind fun _ => ?_
  refine failsFast_bind strict_terminators fun _ => failsFast_typeDecl.bind fun _ => ?_
  exact (failsFast_collect failsFast_typeStep).bind fun _ => failsFast_of_strict (strict_assemble _)

end Grammar

end Beagle
