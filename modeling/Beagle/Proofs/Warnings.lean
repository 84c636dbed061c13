import Beagle.Proofs.Derivation
import Beagle.Proofs.ModifierRuns
import Beagle.SourceText

/-!
Warnings of a parse.  A parse without an error has warned of the modifiers that repeat an earlier one of
their run, and of nothing else.  Each rule is followed from the tokens before it, as far as they matter: how
many braces they leave open, and whether a run is going on behind them.
-/

namespace Beagle

open Spelling Runs

def warning (file : String) (found : Modifier × Position) : Diagnostic :=
  ⟨.warning, file, some found.2, .repeatedModifier found.1⟩

variable {σ : Type} [TokenSource σ]

/-- Without an error in between, the tokens that were used up lead from places of the one kind to places of
the other, and the warnings are those of the modifiers that they repeat. -/
def Warned (pre post : List Token → Prop) (before after : State σ) : Prop :=
  after.errors = before.errors → ∃ tokens, before.ahead = tokens ++ after.ahead ∧ ∀ past, pre past →
    post (past ++ tokens) ∧ after.session.diagnostics =
      before.session.diagnostics ++ (gather repeated? past tokens).map (warning before.session.file)

namespace Warned

variable {pre between post : List Token → Prop} {before middle after : State σ} {tokens : List Token}
variable {depth : Nat}

theorem trans (early : Warned pre between before middle) (late : Warned between post middle after)
    (leads : before.Leads middle) (onward : middle.Leads after) : Warned pre post before after := by
  intro clean
  have first := leads.errors_le
  have second := onward.errors_le
  obtain ⟨front, ahead, warns⟩ := early (by omega)
  obtain ⟨back, behind, warnsBehind⟩ := late (by omega)
  refine ⟨front ++ back, ?_, ?_⟩
  · rw [ahead, behind, List.append_assoc]
  · intro past holds
    obtain ⟨reached, told⟩ := warns past holds
    obtain ⟨final, toldBehind⟩ := warnsBehind (past ++ front) reached
    rw [List.append_assoc] at final
    refine ⟨final, ?_⟩
    rw [toldBehind, told, gather_append, List.map_append, leads.session.file, List.append_assoc]

theorem lost (reported : before.errors < after.errors) : Warned pre post before after :=
  fun clean => absurd clean (Nat.ne_of_gt reported)

theorem of_unpicked (ahead : before.ahead = tokens ++ after.ahead)
    (told : after.session.diagnostics = before.session.diagnostics)
    (unpicked : ∀ past, pre past → post (past ++ tokens) ∧ gather repeated? past tokens = []) :
    Warned pre post before after := by
  intro _
  refine ⟨tokens, ahead, ?_⟩
  intro past holds
  obtain ⟨reached, none⟩ := unpicked past holds
  rw [none, List.map_nil, List.append_nil]
  exact ⟨reached, told⟩

theorem unmoved (ahead : after.ahead = before.ahead)
    (told : after.session.diagnostics = before.session.diagnostics) : Warned pre pre before after := by
  have none : before.ahead = [] ++ after.ahead := ahead.symm
  refine of_unpicked none told ?_
  intro past holds
  rw [List.append_nil]
  exact ⟨holds, rfl⟩

theorem same (same : before.Same after) : Warned pre pre before after :=
  unmoved same.ahead (congrArg Session.diagnostics same.session)

theorem of_inert (ahead : before.ahead = tokens ++ after.ahead)
    (told : after.session.diagnostics = before.session.diagnostics)
    (inert : ∀ token ∈ tokens, Inert token.kind) : Warned (Calm depth) (Calm depth) before after := by
  refine of_unpicked ahead told ?_
  intro past calm
  refine ⟨calm.append_inert inert, gather_of_ignored ignores_repeated ?_⟩
  exact fun token member => (inert token member).1

theorem took {token : Token} (took : before.Took token after) (other : ∀ word, token.kind ≠ .modifier word)
    (leads : ∀ past, pre past → post (past ++ [token])) : Warned pre post before after := by
  have single : before.ahead = [token] ++ after.ahead := took.ahead
  refine of_unpicked single (congrArg Session.diagnostics took.session) ?_
  intro past holds
  refine ⟨leads past holds, gather_of_unpicked ?_⟩
  intro found member run
  rw [List.mem_singleton.mp member]
  exact repeated?_of_other other run

theorem took_inert {token : Token} (took : before.Took token after) (inert : Inert token.kind) :
    Warned (Calm depth) (Calm depth) before after :=
  .took took inert.ne_modifier fun past calm => calm.append_inert (by simpa using inert)

end Warned

namespace Rule

variable {α β : Type} {rule : Rule σ α} {next : α → Rule σ β} {state : State σ}
variable {pre between post : List Token → Prop} {depth : Nat}

def Warns (rule : Rule σ α) (pre post : List Token → Prop) : Prop :=
  ∀ state, rule.Answers state fun _ after => Warned pre post state after

theorem Warns.bind (first : rule.Warns pre between) (second : ∀ value, (next value).Warns between post) :
    (rule >>= next).Warns pre post := by
  intro state
  refine (first state).bind fun value middle leads early => ?_
  exact (second value middle).mono fun answer after onward late => early.trans late leads onward

theorem warns_pure (value : α) : (pure value : Rule σ α).Warns pre pre :=
  fun state => answers_pure (.same (.refl state))

theorem warns_assemble (part : Assembly α) : (assemble part : Rule σ α).Warns pre pre :=
  fun state => answers_assemble fun _ _ => .same (.refl state)

theorem warns_refuse (position : Position) (complaint : Complaint) :
    (refuse position complaint : Rule σ α).Warns pre post :=
  fun _ => (meets_refuse position complaint).answers

theorem warns_refuseExpected (kinds : List Kind) : (refuseExpected kinds : Rule σ α).Warns pre post :=
  fun _ => (meets_refuseExpected kinds).answers

theorem warns_reportExpected (kinds : List Kind) : (reportExpected kinds : Rule σ Unit).Warns pre post := by
  intro state
  refine (yields_reportExpected kinds).answers.mono fun _ after _ reported => .lost ?_
  rw [State.errors, State.errors, reported.2.2, Session.errorCount_reportExpected]
  exact Nat.lt_succ_self _

theorem warns_current : (current : Rule σ Token).Warns pre pre :=
  fun _ => yields_current.answers.mono fun _ _ _ found => .same found.2

theorem warns_check (kind : Kind) : (check kind : Rule σ Bool).Warns pre pre :=
  warns_current.bind fun _ => warns_pure _

theorem warns_startsWith (kinds : List Kind) : (startsWith kinds : Rule σ Bool).Warns pre pre := by
  intro state found after ran
  cases ran
  exact .unmoved (state.tokens.ahead_matchesFrom 0 kinds) rfl

theorem answers_node : (node : Rule σ NodeInfo).Answers state fun _ after =>
    after.ahead = state.ahead ∧ after.session.diagnostics = state.session.diagnostics := by
  intro info after ran
  cases ran
  exact ⟨state.tokens.ahead_peek 0, rfl⟩

theorem warns_node : (node : Rule σ NodeInfo).Warns pre pre :=
  fun _ => answers_node.mono fun _ _ _ unmoved => .unmoved unmoved.1 unmoved.2

theorem warns_expect {kind : Kind} (more : kind ≠ .fileEnd) (other : ∀ word, kind ≠ .modifier word)
    (leads : ∀ past token, token.kind = kind → pre past → post (past ++ [token])) :
    (expect kind : Rule σ Token).Warns pre post := by
  intro state
  refine Answers.mono (meets_expect more).answers fun token after _ found => ?_
  obtain ⟨rfl, took⟩ := found
  exact .took took other fun past => leads past token rfl

theorem warns_word {kind : Kind} (more : kind ≠ .fileEnd) (inert : Inert kind) :
    (expect kind : Rule σ Token).Warns (Calm depth) (Calm depth) := by
  intro state
  refine Answers.mono (meets_expect more).answers fun token after _ found => ?_
  obtain ⟨rfl, took⟩ := found
  exact .took_inert took inert

theorem warns_accept {kind : Kind} (more : kind ≠ .fileEnd) (inert : Inert kind) :
    (accept kind : Rule σ Bool).Warns (Calm depth) (Calm depth) := by
  intro state
  refine (yields_accept more).answers.mono fun accepted after _ moved => ?_
  cases accepted with
  | false => exact .same moved.2
  | true => exact .took_inert moved.2 (moved.1 ▸ inert)

theorem Warns.whenNext {kind : Kind} (warns : rule.Warns pre pre) : (whenNext kind rule).Warns pre pre := by
  refine (warns_check kind).bind fun found => ?_
  cases found with
  | false => exact warns_pure _
  | true => exact warns.bind fun _ => warns_pure _

theorem Warns.after {kind : Kind} (more : kind ≠ .fileEnd) (inert : Inert kind)
    (warns : rule.Warns (Calm depth) (Calm depth)) :
    (after kind rule).Warns (Calm depth) (Calm depth) := by
  refine (warns_accept more inert).bind fun accepted => ?_
  cases accepted with
  | false => exact warns_pure _
  | true => exact warns.bind fun _ => warns_pure _

theorem Warns.attempt (warns : rule.Warns pre post) : rule.attempt.Warns pre post := by
  intro state
  refine (warns state).attempt.mono fun answer after _ either => ?_
  cases answer with
  | none => exact .lost either
  | some value => exact either

theorem Warns.collect {step : Rule σ (Option α)} {progress : step.ConsumesWhen fun item => item.isSome}
    (round : step.Warns pre pre) : (collect step progress).Warns pre pre := by
  intro state
  refine Answers.mono (answers_collect (fun before _ after => before.Leads after ∧ Warned pre pre before after)
    (fun before => (round before).mono fun answer middle leads early => ?_) state) fun _ _ _ all => all.2
  cases answer with
  | none => exact ⟨leads, early⟩
  | some item =>
      rintro items final ⟨onward, late⟩
      exact ⟨leads.trans onward, early.trans late leads onward⟩

theorem Warns.commaSeparated (warns : rule.Warns (Calm depth) (Calm depth)) :
    (commaSeparated rule).Warns (Calm depth) (Calm depth) :=
  warns.bind fun _ => (Warns.collect (.after (by simp) (by decide) warns)).bind fun _ => warns_pure _

end Rule

namespace Grammar

open Rule

variable {state : State σ} {depth : Nat}

section Names

theorem warns_terminators : (terminators : Rule σ Unit).Warns (Calm depth) (Calm depth) := by
  intro state
  refine yields_terminators.answers.mono fun _ after _ moved => ?_
  have ahead : state.ahead = state.ahead.takeWhile endsLine ++ after.ahead := by
    rw [moved.1, List.takeWhile_append_dropWhile]
  exact .of_inert ahead (congrArg Session.diagnostics moved.2.2)
    (plain_terminators _ (takeWhile_mem_terminators state.ahead))

theorem warns_simpleName : (simpleName : Rule σ String).Warns (Calm depth) (Calm depth) :=
  (warns_word (by simp) (by decide)).bind fun _ => warns_pure _

theorem warns_segmentStep : (segmentStep : Rule σ (Option String)).Warns (Calm depth) (Calm depth) := by
  refine (warns_startsWith _).bind fun found => ?_
  cases found with
  | false => exact warns_pure _
  | true => exact (warns_word (by simp) (by decide)).bind fun _ => warns_simpleName.bind fun _ => warns_pure _

theorem warns_qualifiedName : (qualifiedName : Rule σ DottedName).Warns (Calm depth) (Calm depth) :=
  warns_simpleName.bind fun _ => warns_segmentStep.collect.bind fun _ => warns_pure _

theorem warns_typeRef : (typeRef : Rule σ TypeRef).Warns (Calm depth) (Calm depth) :=
  warns_node.bind fun _ => warns_qualifiedName.bind fun _ => warns_pure _

theorem warns_annot : (annot : Rule σ Annot).Warns (Calm depth) (Calm depth) :=
  warns_node.bind fun _ => (warns_word (by simp) (by decide)).bind fun _ =>
    warns_typeRef.bind fun _ => warns_assemble _

theorem warns_annotations : (annotations : Rule σ (List Annot)).Warns (Calm depth) (Calm depth) :=
  warns_annot.whenNext.collect

theorem inert_of_mem_literalKinds {kind : Kind} (wanted : kind ∈ literalKinds) : Inert kind := by
  revert kind
  decide

theorem warns_literal : (literal : Rule σ Literal).Warns (Calm depth) (Calm depth) := by
  intro state
  refine Answers.bind (meets_demand _).answers fun token start leads found => ?_
  refine answers_node.bind fun info middle onward unmoved => ?_
  obtain ⟨isHead, wanted, same⟩ := found
  have inert := inert_of_mem_literalKinds wanted
  split
  · refine (yields_discard 1).answers.bind fun _ after _ moved => answers_pure ?_
    have more : state.head.kind ≠ .fileEnd := by
      intro last
      rw [isHead, last] at wanted
      simp [literalKinds] at wanted
    have ahead : state.ahead = [token] ++ after.ahead := by
      rw [moved.1, unmoved.1, same.ahead, isHead]
      exact State.ahead_eq_cons more
    refine .of_inert ahead ?_ (by simpa using inert)
    rw [moved.2.2, unmoved.2, same.session]
  · exact (meets_refuse _ _).answers

end Names

section Modifiers

def Writes (token : Token) (item : Modifier × Position) : Prop :=
  token.kind = .modifier item.1 ∧ token.position = item.2

theorem answers_modifierStep : (modifierStep : Rule σ (Option (Modifier × Position))).Answers state
    (Either state.Same fun item after => Writes state.head item ∧ state.Took state.head after) := by
  refine (yields_takeWhen _ fun token last => by simp [last]).answers.mono ?_
  rintro _ after _ ⟨rfl, moved⟩
  split at moved
  · rename_i word found
    exact ⟨⟨found, rfl⟩, moved⟩
  · exact moved

theorem answers_modifierRun :
    (collect modifierStep consumesWhen_modifierStep : Rule σ (List (Modifier × Position))).Answers state
      fun run after => ∃ tokens, state.ahead = tokens ++ after.ahead ∧
        after.session = state.session ∧ List.Forall₂ Writes tokens run := by
  refine answers_collect (fun before run after => ∃ tokens, before.ahead = tokens ++ after.ahead ∧
    after.session = before.session ∧ List.Forall₂ Writes tokens run) (fun before => ?_) state
  refine answers_modifierStep.mono fun answer middle _ either => ?_
  cases answer with
  | none => exact ⟨[], either.ahead.symm, either.session, .nil⟩
  | some item =>
      rintro run after ⟨tokens, ahead, session, writes⟩
      obtain ⟨isItem, took⟩ := either
      refine ⟨before.head :: tokens, ?_, session.trans took.session, .cons isItem writes⟩
      rw [took.ahead, ahead]
      rfl

theorem kinds_of_writes {tokens : List Token} {run : List (Modifier × Position)}
    (writes : List.Forall₂ Writes tokens run) :
    tokens.map Token.kind = (run.map Prod.fst).map .modifier := by
  induction writes with
  | nil => rfl
  | cons isItem _ ih => rw [List.map_cons, List.map_cons, List.map_cons, isItem.1, ih]

theorem answers_warnRepeated {tokens past : List Token} {run : List (Modifier × Position)}
    {seen : Modifiers} (few : depth ≤ 1) (writes : List.Forall₂ Writes tokens run)
    (reached : Depth depth past) (knows : ∀ word, seen.contains word = true ↔ word ∈ last past) :
    (warnRepeated seen run : Rule σ Unit).Answers state fun _ after => after.session.diagnostics =
      state.session.diagnostics ++ (gather repeated? past tokens).map (warning state.session.file) := by
  induction writes generalizing past seen state with
  | nil => exact answers_pure (List.append_nil _).symm
  | @cons token item tokens run isItem _ ih =>
      have here := reached.concat_modifier isItem.1
      have knowsMore (word : Modifier) :
          (seen.insert item.1).contains word = true ↔ word ∈ last (past ++ [token]) := by
        rw [Modifiers.contains_insert, knows, last_concat, extend, isItem.1, List.mem_append,
          List.mem_singleton]
        exact Or.comm
      rw [gather, if_neg (reached.not_inBlock few), repeated?, isItem.1, isItem.2]
      simp only [warnRepeated]
      split
      · rename_i again
        refine (yields_report _ _ _).answers.bind fun _ middle leads told => ?_
        refine (ih here knowsMore).mono fun _ after _ later => ?_
        rw [later, told.2.2, if_pos ((knows item.1).mp again)]
        simp [Session.report, warning]
      · rename_i first
        refine (ih here knowsMore).mono fun _ after _ later => ?_
        rw [later, if_neg fun again => first ((knows item.1).mpr again)]
        rfl

theorem warns_modifiers (few : depth ≤ 1) :
    (modifiers : Rule σ (Option Modifiers)).Warns (Calm depth) (Depth depth) := by
  intro state
  refine answers_modifierRun.bind fun run middle _ found => ?_
  obtain ⟨tokens, ahead, session, writes⟩ := found
  -- The run is read as a whole before any warning, so the warnings use up no token.
  have yields : (warnRepeated .empty run : Rule σ Unit).Yields middle fun _ after => middle.Still after :=
    yields_warnRepeated .empty run
  obtain ⟨_, warned, ranWarn, still⟩ := yields
  intro value after ran _
  rw [run_bind, ranWarn] at ran
  cases ran
  refine ⟨tokens, by rw [ahead, still.ahead], ?_⟩
  intro past calm
  have knows (word : Modifier) : Modifiers.empty.contains word = true ↔ word ∈ last past := by
    simp [Modifiers.contains_empty, calm.2]
  refine ⟨(calm.1.append_modifiers (kinds_of_writes writes)).1, ?_⟩
  rw [answers_warnRepeated few writes calm.1 knows _ _ ranWarn, session]

theorem warns_preamble (few : depth ≤ 1) : (preamble : Rule σ Preamble).Warns (Calm depth) (Depth depth) :=
  warns_node.bind fun _ => warns_annotations.bind fun _ => (warns_modifiers few).bind fun _ => warns_pure _

end Modifiers

section Members

theorem warns_start (modified : Modified) :
    (expect (.keyword modified.word) : Rule σ Token).Warns (Depth depth) (Calm depth) := by
  refine warns_expect (by simp) (by simp) fun past token found reached => ?_
  exact reached.calm_keyword found

theorem warns_declaredName : (declaredName : Rule σ (String × Position)).Warns (Calm depth) (Calm depth) :=
  warns_current.bind fun _ => warns_simpleName.bind fun _ => warns_pure _

theorem warns_optionalType : (optionalType : Rule σ (Option TypeRef)).Warns (Calm depth) (Calm depth) :=
  .after (by simp) (by decide) warns_typeRef

theorem warns_initials (kind : FieldKind) :
    (initials kind : Rule σ (List Literal)).Warns (Calm depth) (Calm depth) := by
  refine (Warns.after (by simp) (by decide) warns_literal.commaSeparated).bind fun literals => ?_
  split
  · exact warns_pure _
  · exact warns_pure _
  · exact warns_refuseExpected _

theorem warns_field (start : Preamble) (kind : FieldKind) :
    (field start kind : Rule σ Field).Warns (Depth depth) (Calm depth) := by
  refine (warns_start (.field kind)).bind fun _ => ?_
  refine warns_declaredName.commaSeparated.bind fun names => warns_optionalType.bind fun type => ?_
  refine (warns_initials kind).bind fun initials => ?_
  split
  · exact warns_refuse _ _
  · exact warns_assemble _

theorem warns_param : (param : Rule σ Param).Warns (Calm depth) (Calm depth) :=
  warns_node.bind fun _ => warns_simpleName.bind fun _ => (warns_word (by simp) (by decide)).bind fun _ =>
    warns_typeRef.bind fun _ => warns_assemble _

theorem warns_params : (params : Rule σ (List Param)).Warns (Calm depth) (Calm depth) := by
  refine (warns_word (by simp) (by decide)).bind fun _ => Warns.bind ((warns_check _).bind fun closed => ?_)
    fun _ => (warns_word (by simp) (by decide)).bind fun _ => warns_pure _
  cases closed with
  | true => exact warns_pure _
  | false => exact warns_param.commaSeparated

theorem warns_block : (block : Rule σ Block).Warns (Calm 1) (Calm 1) := by
  intro state
  refine answers_node.bind fun info opened _ unmoved => ?_
  refine Answers.bind (meets_expect (by simp)).answers fun opening inside _ found => ?_
  refine Answers.bind (meets_blockLoop _).answers fun size after _ closes => answers_pure ?_
  obtain ⟨isOpening, took⟩ := found
  obtain ⟨session, tokens, closing, ahead, isClosing, balanced, _⟩ := closes
  have whole : state.ahead = ([opening] ++ tokens ++ [closing]) ++ after.ahead := by
    rw [← unmoved.1, took.ahead, ahead]
    simp
  refine .of_unpicked whole ?_ fun past calm => ⟨?_, ?_⟩
  · rw [session, took.session, unmoved.2]
  · exact calm_block calm.1 isOpening balanced isClosing
  · exact gather_block ignores_repeated calm.1 isOpening balanced isClosing

theorem warns_method (start : Preamble) : (method start : Rule σ Method).Warns (Depth 1) (Calm 1) :=
  (warns_start .method).bind fun _ => warns_simpleName.bind fun _ => warns_params.bind fun _ =>
    warns_optionalType.bind fun _ => warns_block.whenNext.bind fun _ => warns_assemble _

theorem warns_memberAfter (start : Preamble) :
    (memberAfter start : Rule σ (Option Member)).Warns (Depth 1) (Calm 1) := by
  refine warns_current.bind fun token => ?_
  split
  · exact (warns_field start .mutable).bind fun _ => warns_pure _
  · exact (warns_field start .constant).bind fun _ => warns_pure _
  · exact (warns_method start).bind fun _ => warns_pure _
  · exact (warns_reportExpected _).bind fun _ => warns_pure _

theorem warns_memberStep : (memberStep : Rule σ (Option Member)).Warns (Calm 1) (Calm 1) := by
  refine warns_terminators.bind fun _ => (warns_check _).bind fun closed => ?_
  cases closed with
  | true => exact warns_pure _
  | false => exact (warns_preamble (Nat.le_refl 1)).bind fun start => warns_memberAfter start

theorem warns_members (build : List Member → Assembly Body) : (do
      let members ← collect memberStep consumesWhen_memberStep
      discard 1
      assemble (build members) : Rule σ Body).Warns (Calm 1) (Calm 0) := by
  intro state
  refine Answers.bind (fun members after ran => And.intro (warns_memberStep.collect state members after ran)
    ((meets_collect_answer (fun _ => meets_memberStep) state).answers members after ran)) ?_
  rintro members ended leads ⟨warned, last, read, skipped, isBrace⟩
  refine (yields_discard 1).answers.bind fun _ after onward moved => ?_
  refine answers_assemble fun _ _ => ?_
  by_cases clean : ended.errors = state.errors
  · have brace : ended.head.kind = .mark .rightBrace := by
      have first := read.leads.errors_le
      have second := skipped.leads.errors_le
      exact isBrace (by omega)
    have took : ended.Took ended.head after := by
      refine ⟨?_, moved.2.1, moved.2.2, onward.file⟩
      rw [moved.1]
      exact State.ahead_eq_cons (by simp [brace])
    refine warned.trans (.took took (by simp [brace]) fun past calm => ?_) leads onward
    exact calm.1.calm_concat (by simp [brace]) (by simp [brace])
  · have first := leads.errors_le
    have second := onward.errors_le
    exact .lost (by omega)

theorem warns_body : (body : Rule σ Body).Warns (Calm 0) (Calm 0) := by
  refine warns_node.bind fun info => Warns.bind ?_ fun _ => warns_members (buildBody info)
  refine warns_expect (by simp) (by simp) fun past token found calm => ?_
  exact calm.1.calm_concat (by simp [found]) (by simp [found])

end Members

section Units

theorem warns_bases : (bases : Rule σ (List TypeRef)).Warns (Calm depth) (Calm depth) :=
  (Warns.after (by simp) (by decide) warns_typeRef.commaSeparated).bind fun _ => warns_pure _

theorem warns_typeDecl : (typeDecl : Rule σ TypeDecl).Warns (Calm 0) (Calm 0) :=
  (warns_preamble (Nat.zero_le 1)).bind fun _ => (warns_start .type).bind fun _ =>
    warns_qualifiedName.bind fun _ => warns_bases.bind fun _ => warns_terminators.bind fun _ =>
      warns_body.whenNext.bind fun _ => warns_assemble _

theorem warns_packageClause : (packageClause : Rule σ PackageClause).Warns (Calm depth) (Calm depth) :=
  warns_node.bind fun _ => (warns_word (by simp) (by decide)).bind fun _ =>
    warns_qualifiedName.bind fun _ => warns_pure _

theorem warns_importClause : (importClause : Rule σ ImportClause).Warns (Calm depth) (Calm depth) := by
  refine warns_node.bind fun info => (warns_word (by simp) (by decide)).bind fun _ =>
    warns_qualifiedName.bind fun name => ?_
  intro state
  refine (yields_startsWith (by simp) (by simp)).answers.bind fun found start _ looked => ?_
  obtain ⟨starts, same⟩ := looked
  cases found with
  | true =>
      obtain ⟨dot, star, rest, ahead, isDot, isStar⟩ := starts.mp rfl
      refine (yields_discard 2).answers.bind fun _ after _ moved => answers_pure ?_
      have whole : state.ahead = [dot, star] ++ after.ahead := by
        rw [moved.1, same.ahead, ahead]
        rfl
      refine .of_inert whole (congrArg Session.diagnostics (moved.2.2.trans same.session)) ?_
      simp only [List.forall_mem_cons, isDot, isStar]
      exact ⟨by decide, by decide, by simp⟩
  | false =>
      simp only [Bool.false_eq_true, if_false]
      split
      · exact answers_pure (.same same)
      · exact (meets_refuse _ _).answers

theorem warns_importStep : (importStep : Rule σ (Option ImportClause)).Warns (Calm depth) (Calm depth) := by
  refine (warns_check _).bind fun found => ?_
  cases found with
  | false => exact warns_pure _
  | true =>
      refine warns_importClause.attempt.bind fun clause => ?_
      cases clause with
      | none => exact warns_pure _
      | some clause => exact warns_terminators.bind fun _ => warns_pure _

theorem warns_typeStep : (typeStep : Rule σ (Option TypeDecl)).Warns (Calm 0) (Calm 0) := by
  refine warns_terminators.bind fun _ => (warns_check _).bind fun ended => ?_
  cases ended with
  | true => exact warns_pure _
  | false => exact warns_typeDecl.bind fun _ => warns_pure _

theorem warns_unit (file : String) : (unit file : Rule σ SourceUnit).Warns (Calm 0) (Calm 0) :=
  warns_node.bind fun _ => warns_terminators.bind fun _ => warns_packageClause.whenNext.bind fun _ =>
    warns_terminators.bind fun _ => warns_importStep.collect.bind fun _ => warns_terminators.bind fun _ =>
      warns_typeDecl.bind fun _ => warns_typeStep.collect.bind fun _ => warns_assemble _

end Units

end Grammar

theorem State.warnings_of_parse {source : σ} {capacity : Nat} {unit : SourceUnit}
    (parsed : (ofSource source capacity .empty).parse.1 = .ok unit)
    (clean : (ofSource source capacity .empty).parse.2.session.hasErrors = false) :
    (ofSource source capacity .empty).parse.2.session.diagnostics =
      (gather repeated? [] (TokenSource.ahead source)).map (warning (TokenStream.file source)) := by
  have warned := Grammar.warns_unit _ _ unit _ (Prod.ext parsed rfl)
  obtain ⟨_, ended, _⟩ := (Grammar.meets_unit _).answers unit _ (Prod.ext parsed rfl)
  obtain ⟨tokens, ahead, warns⟩ := warned (Session.hasErrors_eq_false_iff.mp clean)
  rw [ended, List.append_nil] at ahead
  have whole : TokenSource.ahead source = tokens := (ahead_ofSource source capacity .empty).symm.trans ahead
  rw [whole]
  exact (warns [] calm_nil).2

/-- A parse without an error warns of the repeated modifiers and of nothing else: once for each modifier
outside of method blocks that its uninterrupted run had before, at its place and in the order of the
tokens.  And the modifiers of every type, field and method are those of the run in front of its word. -/
theorem warnings_eq_repeated_modifiers (source : σ) (capacity : Nat) (unit : SourceUnit)
    (parsed : (State.ofSource source capacity .empty).parse.1 = .ok unit)
    (clean : (State.ofSource source capacity .empty).parse.2.session.hasErrors = false) :
    ((State.ofSource source capacity .empty).parse.2.session.diagnostics.map fun diagnostic =>
        (diagnostic.severity, diagnostic.file, diagnostic.position, diagnostic.message)) =
      ((gather repeated? [] (TokenSource.ahead source)).map fun found =>
        (.warning, TokenStream.file source, some found.2,
          s!"Duplicate modifier '{found.1.spelling}'")) ∧
    ∀ modified, List.Forall₂ Modifiers.IsSetOf (gather (headed? modified) [] (TokenSource.ahead source))
      (unit.modifiersOf modified) := by
  constructor
  · rw [State.warnings_of_parse parsed clean, List.map_map]
    rfl
  · intro modified
    exact runs_of_ofUnit (State.spelled_of_parse parsed clean) modified

/-- A class, a field and a method, each with a run of its own, and a block that is not looked at. -/
theorem warnings_eq_repeated_modifiers_example :
    let source := SourceText.ofString "a.bgl"
      "public static public class A\x7bprivate private var x def f()\x7bstatic static\x7d\x7d"
    let state := State.ofSource source 1 .empty
    ∃ unit, state.parse.1 = .ok unit ∧ state.parse.2.session.hasErrors = false ∧
      (state.parse.2.session.diagnostics.map fun diagnostic =>
          (diagnostic.severity, diagnostic.file, diagnostic.position, diagnostic.message)) =
        [(.warning, "a.bgl", some ⟨1, 15⟩, "Duplicate modifier 'public'"),
          (.warning, "a.bgl", some ⟨1, 38⟩, "Duplicate modifier 'private'")] ∧
      List.Forall₂ Modifiers.IsSetOf [[.publicAccess, .static, .publicAccess]] (unit.modifiersOf .type) ∧
      List.Forall₂ Modifiers.IsSetOf [[.privateAccess, .privateAccess]]
        (unit.modifiersOf (.field .mutable)) ∧
      List.Forall₂ Modifiers.IsSetOf [[]] (unit.modifiersOf .method) := by
  intro source state
  have ran : state.parse.1.isOk ∧ state.parse.2.session.hasErrors = false ∧
      gather repeated? [] (TokenSource.ahead source) =
        [(.publicAccess, ⟨1, 15⟩), (.privateAccess, ⟨1, 38⟩)] ∧
      gather (headed? .type) [] (TokenSource.ahead source) = [[.publicAccess, .static, .publicAccess]] ∧
      gather (headed? (.field .mutable)) [] (TokenSource.ahead source) =
        [[.privateAccess, .privateAccess]] ∧
      gather (headed? .method) [] (TokenSource.ahead source) = [[]] := by decide +kernel
  obtain ⟨parsed, clean, repeated, types, fields, methods⟩ := ran
  match found : state.parse.1 with
  | .error stop => simp [found, Except.isOk, Except.toBool] at parsed
  | .ok unit =>
      obtain ⟨warnings, sets⟩ := warnings_eq_repeated_modifiers source 1 unit found clean
      rw [repeated] at warnings
      refine ⟨unit, rfl, clean, warnings, ?_, ?_, ?_⟩
      · rw [← types]
        exact sets .type
      · rw [← fields]
        exact sets (.field .mutable)
      · rw [← methods]
        exact sets .method

end Beagle
