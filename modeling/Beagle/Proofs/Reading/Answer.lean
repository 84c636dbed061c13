import Beagle.Grammar.Unit
import Beagle.Proofs.Ownership
import Beagle.Proofs.RuleLogic
import Beagle.Proofs.Spelling

/-!
What every rule of the grammar reads.  Whatever a rule answers, the nodes of the answer are new, take
their ids from the range that was handed out on the way, and are linked as the tree lists them.  If no
error was reported on the way, the tokens that were used up spell the answer, and no id was lost.
-/

namespace Beagle

open Spelling

variable {σ : Type} [TokenSource σ]

/-- Nodes were made and a text was read in between. -/
structure Answer (before after : State σ) (text : Language Token) (nodes : List Node) : Prop where
  leads : before.Leads after
  loose : ∀ node ∈ nodes, node.info.parent = none
  forest : Forest nodes before.session.nextId after.session.nextId
  spelled : after.errors = before.errors → ∃ tokens ∈ text, before.ahead = tokens ++ after.ahead
  counted : after.errors = before.errors →
    before.session.nextId + (Node.all nodes).length = after.session.nextId

structure Opened (before after : State σ) (info : NodeInfo) : Prop where
  fresh : info = .fresh before.session.nextId before.head.position
  leads : before.Leads after
  ahead : after.ahead = before.ahead
  errors : after.errors = before.errors
  nextId : after.session.nextId = before.session.nextId + 1

namespace Answer

variable {before middle after : State σ} {text other : Language Token} {nodes more : List Node}

theorem still (leads : before.Leads after) (still : before.Still after) : Answer before after 1 [] where
  leads := leads
  loose := by simp
  forest := .nil _ _
  spelled _ := ⟨[], by simp, by simp [still.ahead]⟩
  counted _ := by simp [still.nextId]

theorem same (same : before.Same after) : Answer before after 1 [] := by
  refine still ⟨same.ahead ▸ List.suffix_refl _, same.ending, ?_, same.file⟩ same.still
  exact same.session ▸ Session.Continues.refl _

theorem took {token : Token} (took : before.Took token after) (spells : [token] ∈ text) :
    Answer before after text [] where
  leads := ⟨took.ahead ▸ List.suffix_cons _ _, took.ending, took.session ▸ .refl _, took.file⟩
  loose := by simp
  forest := .nil _ _
  spelled _ := ⟨[token], spells, by simp [took.ahead]⟩
  counted _ := by simp [took.session]

/-- After an error nothing is claimed of the tokens, and nodes may be lost. -/
theorem lost (leads : before.Leads after) (reported : before.errors < after.errors) :
    Answer before after text [] where
  leads := leads
  loose := by simp
  forest := .nil _ _
  spelled clean := absurd clean (Nat.ne_of_gt reported)
  counted clean := absurd clean (Nat.ne_of_gt reported)

theorem append (early : Answer before middle text nodes) (late : Answer middle after other more) :
    Answer before after (text * other) (nodes ++ more) where
  leads := early.leads.trans late.leads
  loose node member := by
    rcases List.mem_append.mp member with first | second
    · exact early.loose node first
    · exact late.loose node second
  forest := early.forest.append late.forest early.leads.nextId_le late.leads.nextId_le
  spelled clean := by
    have split : middle.errors = before.errors ∧ after.errors = middle.errors := by
      have := early.leads.errors_le
      have := late.leads.errors_le
      omega
    obtain ⟨tokens, spells, ahead⟩ := early.spelled split.1
    obtain ⟨others, spellsOthers, aheadOthers⟩ := late.spelled split.2
    exact ⟨tokens ++ others, Language.append_mem_mul spells spellsOthers, by simp [ahead, aheadOthers]⟩
  counted clean := by
    have split : middle.errors = before.errors ∧ after.errors = middle.errors := by
      have := early.leads.errors_le
      have := late.leads.errors_le
      omega
    have first := early.counted split.1
    have second := late.counted split.2
    simp only [Node.all_append, List.length_append]
    omega

theorem weaken (answer : Answer before after text nodes) (weaker : ∀ tokens ∈ text, tokens ∈ other) :
    Answer before after other nodes :=
  { answer with
    spelled clean := by
      obtain ⟨tokens, spells, ahead⟩ := answer.spelled clean
      exact ⟨tokens, weaker tokens spells, ahead⟩ }

theorem same_left (same : before.Same middle) (answer : Answer middle after text nodes) :
    Answer before after text nodes := by
  simpa using (Answer.same same).append answer

theorem same_right (answer : Answer before middle text nodes) (same : middle.Same after) :
    Answer before after text nodes := by
  simpa using answer.append (.same same)

theorem ofNone {α : Type} {items : List α}
    (answer : Answer before after text (items.flatMap fun _ => [])) : Answer before after text [] := by
  rwa [List.flatMap_eq_nil_iff.mpr fun _ _ => rfl] at answer

theorem ofSingles {α : Type} {items : List α} {wrap : α → Node}
    (answer : Answer before after text (items.flatMap fun item => [wrap item])) :
    Answer before after text (items.map wrap) :=
  List.flatMap_pure_eq_map wrap items ▸ answer

theorem ofEither {α : Type} {answer : Option α} {text : α → Language Token} {nodes : α → List Node}
    (either : Rule.Either before.Same (fun value after => Answer before after (text value) (nodes value))
      answer after) :
    Answer before after (maybe text answer) (answer.toList.flatMap nodes) := by
  cases answer with
  | none => exact .same either
  | some value =>
      rw [Option.toList_some, List.flatMap_singleton]
      exact either

end Answer

theorem meets_node {state : State σ} : (Rule.node : Rule σ NodeInfo).Meets state fun info after =>
    Opened state after info :=
  Rule.yields_node.meets.mono fun _ _ leads ⟨fresh, ahead, _, errors, nextId⟩ =>
    ⟨fresh, leads, ahead, errors, nextId⟩

theorem Opened.close {before middle after : State σ} {text : Language Token} {parts : List Node}
    (node : Node) (opened : Opened before middle node.info)
    (inside : Answer middle after text parts) (starts : [] ∉ text)
    (owns : node.children.Perm (parts.map (Node.ownedBy node.id))) :
    Answer before after (placed node.info text) [node] := by
  have id : node.id = before.session.nextId := congrArg NodeInfo.id opened.fresh
  have above := inside.leads.nextId_le
  have nextId := opened.nextId
  have clean (clean : after.errors = before.errors) : after.errors = middle.errors := by
    rw [clean, opened.errors]
  refine ⟨opened.leads.trans inside.leads, ?_, ?_, ?_, ?_⟩
  · intro other member
    rw [List.mem_singleton.mp member, opened.fresh]
    rfl
  · rw [← id]
    refine Forest.root ?_ (by omega) owns
    rw [id, ← nextId]
    exact inside.forest
  · intro still
    obtain ⟨tokens, spells, ahead⟩ := inside.spelled (clean still)
    rw [opened.ahead] at ahead
    refine ⟨tokens, ⟨spells, ?_⟩, ahead⟩
    cases tokens with
    | nil => exact absurd spells starts
    | cons token rest =>
        rw [opened.fresh, State.head_of_ahead ahead]
        rfl
  · intro still
    have counted := inside.counted (clean still)
    have length := (Node.all_perm owns).length_eq
    have links := congrArg List.length (Node.all_map_ownedBy parts node.id)
    simp only [List.length_map] at links
    simp only [Node.all_cons, Node.all_nil, List.append_nil, List.length_cons]
    omega

namespace Rule

variable {α : Type} {state : State σ}

theorem meets_word {kind : Kind} (more : kind ≠ .fileEnd) :
    (expect kind : Rule σ Token).Meets state fun _ after => Answer state after (word kind) [] :=
  (meets_expect more).mono fun _ _ _ ⟨found, took⟩ => .took took (singleton_mem_word found)

theorem meets_whenNext {kind : Kind} {rule : Rule σ α} {text : α → Language Token}
    {nodes : α → List Node}
    (rules : ∀ start, rule.Meets start fun value after => Answer start after (text value) (nodes value)) :
    (whenNext kind rule).Meets state (Either state.Same fun value after =>
      Answer state after (text value) (nodes value)) := by
  refine (yields_check kind).meets.bind fun found start _ ⟨_, same⟩ => ?_
  cases found with
  | false => exact meets_pure same
  | true => exact (rules start).bind fun value after _ answer => meets_pure (.same_left same answer)

theorem meets_after {kind : Kind} (more : kind ≠ .fileEnd) {rule : Rule σ α}
    {text : α → Language Token} {nodes : α → List Node}
    (rules : ∀ start, rule.Meets start fun value after => Answer start after (text value) (nodes value)) :
    (after kind rule).Meets state (Either state.Same fun value final =>
      Answer state final (word kind * text value) (nodes value)) := by
  refine (yields_accept more).meets.bind fun accepted start _ moved => ?_
  cases accepted with
  | false => exact meets_pure moved.2
  | true =>
      refine (rules start).bind fun value final _ answer => meets_pure ?_
      exact (Answer.took moved.2 (singleton_mem_word moved.1)).append answer

theorem meets_collect_answer {step : Rule σ (Option α)}
    {progress : step.ConsumesWhen fun item => item.isSome} {text : α → Language Token}
    {nodes : α → List Node} {ends : State σ → State σ → Prop}
    (round : ∀ state, step.Meets state (Either (ends state) fun item after =>
      Answer state after (text item) (nodes item))) (state : State σ) :
    (collect step progress).Meets state fun items after =>
      ∃ last, Answer state last (items.map text).prod (items.flatMap nodes) ∧ ends last after := by
  refine meets_collect (fun state items after => ∃ last,
    Answer state last (items.map text).prod (items.flatMap nodes) ∧ ends last after)
    (fun state => (round state).mono ?_) state
  rintro (_ | item) middle _ holds
  · exact ⟨state, .same (.refl state), holds⟩
  · rintro items after ⟨last, answer, ended⟩
    exact ⟨last, holds.append answer, ended⟩

theorem meets_commaSeparated {item : Rule σ α} {text : α → Language Token} {nodes : α → List Node}
    (items : ∀ start, item.Meets start fun value after => Answer start after (text value) (nodes value)) :
    (commaSeparated item).Meets state fun values after =>
      Answer state after (separated .comma (values.map text)) (values.flatMap nodes) := by
  refine (items state).bind fun first middle _ answer => ?_
  refine (meets_collect_answer (fun start => meets_after (by simp) items) middle).bind ?_
  rintro rest after _ ⟨last, others, same⟩
  refine meets_pure ?_
  have all := answer.append (others.same_right same)
  simpa [separated, mark, List.map_map, Function.comp_def] using all

end Rule

end Beagle
