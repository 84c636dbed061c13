import Beagle.Proofs.RuleLogic
import Beagle.Proofs.Spelling

/-!
Acceptance: what a rule makes of the tokens ahead of it, whatever else the state holds.  A rule that
accepts its tokens has an answer and reports no error.
-/

namespace Beagle

open Spelling

def nextKind (tokens : List Token) : Kind :=
  (tokens.head?.map Token.kind).getD .fileEnd

@[simp] theorem nextKind_nil : nextKind [] = .fileEnd := rfl

@[simp] theorem nextKind_cons (token : Token) (rest : List Token) :
    nextKind (token :: rest) = token.kind := rfl

namespace Spelling

theorem head?_of_mem_placed {info : NodeInfo} {text : Language Token} {tokens : List Token}
    (spells : tokens ∈ placed info text) (rest : List Token) :
    (tokens ++ rest).head?.map Token.position = some info.position := by
  cases tokens with
  | nil => exact absurd spells (nil_notMem_placed _ _)
  | cons token tokens => exact spells.2

theorem nextKind_of_mem_word {kind : Kind} {tokens : List Token} (spells : tokens ∈ word kind)
    (rest : List Token) : nextKind (tokens ++ rest) = kind := by
  obtain ⟨token, found, rfl⟩ := spells
  exact found

theorem nextKind_of_mem_word_mul {kind : Kind} {text : Language Token} {tokens : List Token}
    (spells : tokens ∈ word kind * text) (rest : List Token) : nextKind (tokens ++ rest) = kind := by
  obtain ⟨first, isFirst, others, _, rfl⟩ := Language.mem_mul.mp spells
  rw [List.append_assoc]
  exact nextKind_of_mem_word isFirst _

end Spelling

theorem State.head_kind {σ : Type} [TokenSource σ] (state : State σ) :
    state.head.kind = nextKind state.ahead := by
  unfold State.head nextKind
  cases state.ahead <;> simp

namespace Rule

variable {σ : Type} [TokenSource σ] {α β γ : Type}

/-- Wherever the rule has these tokens ahead it answers without an error, and `post` holds of the answer
and of what is left. -/
def Accepts (rule : Rule σ α) (tokens : List Token) (post : α → List Token → Prop) : Prop :=
  ∀ state : State σ, state.ahead = tokens → rule.Yields state fun value after =>
    post value after.ahead ∧ after.errors = state.errors

variable {rule : Rule σ α} {next : α → Rule σ β} {tokens rest : List Token}
variable {middle : α → List Token → Prop} {post : β → List Token → Prop}

theorem Accepts.mono {weaker : α → List Token → Prop} (accepts : rule.Accepts tokens middle)
    (implies : ∀ value rest, middle value rest → weaker value rest) : rule.Accepts tokens weaker :=
  fun state ahead => (accepts state ahead).mono fun value after _ ⟨holds, clean⟩ =>
    ⟨implies value after.ahead holds, clean⟩

theorem Accepts.and {always : α → Prop} (accepts : rule.Accepts tokens middle)
    (meets : ∀ state : State σ, rule.Meets state fun value _ => always value) :
    rule.Accepts tokens fun value rest => middle value rest ∧ always value :=
  fun state ahead => ((accepts state ahead).and (meets state)).mono
    fun _ _ _ ⟨⟨holds, clean⟩, more⟩ => ⟨⟨holds, more⟩, clean⟩

theorem Accepts.of_more {token : Token}
    (accepts : token.kind ≠ .fileEnd → rule.Accepts (token :: rest) middle) :
    rule.Accepts (token :: rest) middle := by
  intro state ahead
  have member : token ∈ state.tokens.ahead := by
    rw [← State.ahead, ahead]
    exact List.mem_cons_self
  exact accepts (Window.kind_of_mem_ahead member) state ahead

theorem Accepts.bind (first : rule.Accepts tokens middle)
    (second : ∀ value rest, middle value rest → (next value).Accepts rest post) :
    (rule >>= next).Accepts tokens post := by
  intro state ahead
  refine (first state ahead).bind fun value after _ ⟨holds, clean⟩ => ?_
  refine (second value after.ahead holds after rfl).mono fun result final _ ⟨done, still⟩ => ?_
  exact ⟨done, still.trans clean⟩

theorem accepts_pure {value : α} (holds : middle value tokens) :
    (pure value : Rule σ α).Accepts tokens middle := by
  rintro state rfl
  exact yields_pure ⟨holds, rfl⟩

theorem accepts_assemble {part : Assembly α} {value : α} (built : part = .ok value)
    (holds : middle value tokens) : (assemble part : Rule σ α).Accepts tokens middle := by
  rintro state rfl
  exact yields_assemble built ⟨holds, rfl⟩

theorem accepts_current {token : Token} :
    (current : Rule σ Token).Accepts (token :: rest) fun found left =>
      found = token ∧ left = token :: rest := by
  intro state ahead
  refine yields_current.mono fun found after _ ⟨isHead, same⟩ => ⟨⟨?_, ?_⟩, same.still.errors⟩
  · rw [isHead, State.head_of_ahead ahead]
  · rw [same.ahead, ahead]

theorem accepts_check (kind : Kind) : (check kind : Rule σ Bool).Accepts tokens fun found left =>
    found = decide (nextKind tokens = kind) ∧ left = tokens := by
  intro state ahead
  refine (yields_check kind).mono fun found after _ ⟨isKind, same⟩ => ⟨⟨?_, ?_⟩, same.still.errors⟩
  · rw [State.head_kind, ahead] at isKind
    rw [Bool.eq_iff_iff, isKind, decide_eq_true_iff]
  · rw [same.ahead, ahead]

theorem accepts_takeWhen_some {choose : Token → Option α} {token : Token} {value : α}
    (ends : ∀ token, token.kind = .fileEnd → choose token = none) (chosen : choose token = some value) :
    (takeWhen choose : Rule σ (Option α)).Accepts (token :: rest) fun taken left =>
      taken = some value ∧ left = rest := by
  intro state ahead
  refine (yields_takeWhen choose ends).mono fun taken after _ ⟨isChosen, moved⟩ => ?_
  rw [State.head_of_ahead ahead, chosen] at isChosen
  subst isChosen
  have took : state.Took state.head after := moved
  refine ⟨⟨rfl, ?_⟩, congrArg Session.errorCount took.session⟩
  exact (List.cons.inj (ahead.symm.trans took.ahead)).2.symm

theorem accepts_takeWhen_none {choose : Token → Option α}
    (ends : ∀ token, token.kind = .fileEnd → choose token = none)
    (refused : ∀ token ∈ tokens.head?, choose token = none) :
    (takeWhen choose : Rule σ (Option α)).Accepts tokens fun taken left =>
      taken = none ∧ left = tokens := by
  intro state ahead
  refine (yields_takeWhen choose ends).mono fun taken after _ ⟨isChosen, moved⟩ => ?_
  have none : taken = none := by
    rw [isChosen]
    cases tokens with
    | nil => exact ends _ (State.head_kind_of_nil ahead)
    | cons token rest =>
        rw [State.head_of_ahead ahead]
        exact refused token rfl
  subst none
  have same : state.Same after := moved
  exact ⟨⟨rfl, same.ahead.trans ahead⟩, same.still.errors⟩

theorem accepts_expect {kind : Kind} {token : Token} (more : kind ≠ .fileEnd)
    (found : token.kind = kind) : (expect kind : Rule σ Token).Accepts (token :: rest)
      fun taken left => taken = token ∧ left = rest := by
  refine (accepts_takeWhen_some (fun token last => by simp [last, more.symm]) (if_pos found)).bind ?_
  rintro _ _ ⟨rfl, rfl⟩
  exact accepts_pure ⟨rfl, rfl⟩

theorem accepts_word {kind : Kind} (more : kind ≠ .fileEnd) (spells : tokens ∈ word kind) :
    (expect kind : Rule σ Token).Accepts (tokens ++ rest) fun _ left => left = rest := by
  obtain ⟨token, found, rfl⟩ := spells
  exact (accepts_expect more found).mono fun _ _ holds => holds.2

theorem accepts_startsWith {first second : Kind} (more : first ≠ .fileEnd)
    (moreSecond : second ≠ .fileEnd) :
    (startsWith [first, second] : Rule σ Bool).Accepts tokens fun found left =>
      (found = true ↔ ∃ one two others, tokens = one :: two :: others ∧ one.kind = first ∧
        two.kind = second) ∧ left = tokens := by
  rintro state rfl
  exact (yields_startsWith more moreSecond).mono fun found after _ ⟨isFound, same⟩ =>
    ⟨⟨isFound, same.ahead⟩, same.still.errors⟩

theorem accepts_discard (count : Nat) : (discard count : Rule σ Unit).Accepts tokens fun _ left =>
    left = tokens.drop count := by
  rintro state rfl
  exact (yields_discard count).mono fun _ after _ ⟨ahead, _, session⟩ =>
    ⟨ahead, congrArg Session.errorCount session⟩

theorem accepts_node {info : NodeInfo}
    (starts : tokens.head?.map Token.position = some info.position) :
    (node : Rule σ NodeInfo).Accepts tokens fun made left =>
      made.position = info.position ∧ left = tokens := by
  intro state ahead
  refine yields_node.mono fun made after _ ⟨fresh, same, _, errors, _⟩ => ⟨⟨?_, same.trans ahead⟩, errors⟩
  cases tokens with
  | nil => simp at starts
  | cons token rest =>
      rw [fresh, State.head_of_ahead ahead]
      exact Option.some.inj starts

theorem accepts_whenNext_some {kind : Kind} (found : nextKind tokens = kind)
    (accepts : rule.Accepts tokens middle) :
    (whenNext kind rule).Accepts tokens fun answer left =>
      ∃ value, answer = some value ∧ middle value left := by
  refine (accepts_check kind).bind ?_
  rintro _ _ ⟨rfl, rfl⟩
  rw [decide_eq_true found]
  exact accepts.bind fun value left holds => accepts_pure ⟨value, rfl, holds⟩

theorem accepts_whenNext_none {kind : Kind} (other : nextKind tokens ≠ kind) :
    (whenNext kind rule).Accepts tokens fun answer left => answer = none ∧ left = tokens := by
  refine (accepts_check kind).bind ?_
  rintro _ _ ⟨rfl, rfl⟩
  rw [decide_eq_false other]
  exact accepts_pure ⟨rfl, rfl⟩

theorem accepts_accept_true {kind : Kind} (more : kind ≠ .fileEnd) (spells : tokens ∈ word kind) :
    (accept kind : Rule σ Bool).Accepts (tokens ++ rest) fun accepted left =>
      accepted = true ∧ left = rest := by
  obtain ⟨token, found, rfl⟩ := spells
  refine (accepts_takeWhen_some (fun token last => by simp [last, more.symm]) (if_pos found)).bind ?_
  rintro _ _ ⟨rfl, rfl⟩
  exact accepts_pure ⟨rfl, rfl⟩

theorem accepts_accept_false {kind : Kind} (more : kind ≠ .fileEnd) (other : nextKind tokens ≠ kind) :
    (accept kind : Rule σ Bool).Accepts tokens fun accepted left => accepted = false ∧ left = tokens := by
  refine (accepts_takeWhen_none (fun token last => by simp [last, more.symm]) ?_).bind ?_
  · intro token first
    obtain ⟨others, rfl⟩ := List.head?_eq_some_iff.mp first
    exact if_neg other
  · rintro _ _ ⟨rfl, rfl⟩
    exact accepts_pure ⟨rfl, rfl⟩

theorem accepts_after_some {kind : Kind} (more : kind ≠ .fileEnd) (spells : tokens ∈ word kind)
    (accepts : rule.Accepts rest middle) :
    (after kind rule).Accepts (tokens ++ rest) fun answer left =>
      ∃ value, answer = some value ∧ middle value left := by
  refine (accepts_accept_true more spells).bind ?_
  rintro _ _ ⟨rfl, rfl⟩
  exact accepts.bind fun value left holds => accepts_pure ⟨value, rfl, holds⟩

theorem accepts_after_none {kind : Kind} (more : kind ≠ .fileEnd) (other : nextKind tokens ≠ kind) :
    (after kind rule).Accepts tokens fun answer left => answer = none ∧ left = tokens := by
  refine (accepts_accept_false more other).bind ?_
  rintro _ _ ⟨rfl, rfl⟩
  exact accepts_pure ⟨rfl, rfl⟩

theorem Accepts.attempt (accepts : rule.Accepts tokens middle) :
    rule.attempt.Accepts tokens fun answer left => ∃ value, answer = some value ∧ middle value left :=
  fun state ahead => (accepts state ahead).attempt.mono
    fun _ _ _ ⟨value, isValue, holds, clean⟩ => ⟨⟨value, isValue, holds⟩, clean⟩

section Repetition

variable {step : Rule σ (Option α)} {progress : step.ConsumesWhen fun item => item.isSome}

theorem accepts_collect_nil {post : List α → List Token → Prop}
    (ends : step.Accepts tokens fun answer left => answer = none ∧ post [] left) :
    (collect step progress).Accepts tokens post := by
  intro state ahead
  refine yields_collect_nil ((ends state ahead).mono ?_)
  rintro answer after _ ⟨⟨absent, holds⟩, clean⟩
  exact ⟨absent, holds, clean⟩

theorem accepts_collect_cons {post : List α → List Token → Prop}
    (goes : step.Accepts tokens fun answer left => ∃ item, answer = some item ∧
      (collect step progress).Accepts left fun items rest => post (item :: items) rest) :
    (collect step progress).Accepts tokens post := by
  intro state ahead
  refine yields_collect_cons ((goes state ahead).mono ?_)
  rintro answer after _ ⟨⟨item, isItem, more⟩, clean⟩
  exact ⟨item, isItem, (more after rfl).mono fun items final _ ⟨holds, still⟩ =>
    ⟨holds, still.trans clean⟩⟩

/-- A run of items is accepted item by item.  `agrees` relates what is ahead to what is still to be
read, which differ where a rule has skipped more than it had to; `follow` is what an item needs behind
it, and what every item gives to the one in front. -/
theorem accepts_collect {text : α → Language Token} {outline : α → β} {ended : List Token → Prop}
    (agrees : List Token → List Token → Prop) (follow : List Token → Prop)
    (goes : ∀ item tokens rest start, tokens ∈ text item → agrees start (tokens ++ rest) → follow rest →
      step.Accepts start fun answer left =>
        ∃ value, answer = some value ∧ outline value = outline item ∧ agrees left rest)
    (follows : ∀ item tokens rest, tokens ∈ text item → follow (tokens ++ rest))
    (ends : ∀ start, agrees start rest → step.Accepts start fun answer left =>
      answer = none ∧ ended left)
    (followed : follow rest) {items : List α} (spells : tokens ∈ (items.map text).prod)
    {start : List Token} (agree : agrees start (tokens ++ rest)) :
    (collect step progress).Accepts start fun values left =>
      values.map outline = items.map outline ∧ ended left := by
  induction items generalizing tokens start with
  | nil =>
      obtain rfl : tokens = [] := spells
      exact accepts_collect_nil ((ends start agree).mono fun _ _ ⟨absent, done⟩ => ⟨absent, rfl, done⟩)
  | cons item items ih =>
      obtain ⟨first, spellsFirst, others, spellsOthers, rfl⟩ := Language.mem_mul.mp spells
      rw [List.append_assoc] at agree
      have next : follow (others ++ rest) := by
        cases items with
        | nil =>
            obtain rfl : others = [] := spellsOthers
            exact followed
        | cons second items =>
            obtain ⟨_, spellsSecond, _, _, rfl⟩ := Language.mem_mul.mp spellsOthers
            rw [List.append_assoc]
            exact follows second _ _ spellsSecond
      refine accepts_collect_cons ((goes item first _ start spellsFirst agree next).mono ?_)
      rintro _ left ⟨value, rfl, same, agreeLeft⟩
      refine ⟨value, rfl, (ih spellsOthers agreeLeft).mono fun values last ⟨all, done⟩ => ⟨?_, done⟩⟩
      simp [same, all]

variable {turn : β → Rule σ (β ⊕ γ)}
variable {advance : ∀ value, (turn value).ConsumesWhen fun next => next.isLeft}

theorem accepts_loop_done {value : β} {post : γ → List Token → Prop}
    (ends : (turn value).Accepts tokens fun answer left => ∃ result, answer = .inr result ∧
      post result left) : (loop turn advance value).Accepts tokens post := by
  intro state ahead
  refine yields_loop_done ((ends state ahead).mono ?_)
  rintro answer after _ ⟨⟨result, isResult, holds⟩, clean⟩
  exact ⟨result, isResult, holds, clean⟩

theorem accepts_loop_next {value : β} {post : γ → List Token → Prop}
    (goes : (turn value).Accepts tokens fun answer left => ∃ next, answer = .inl next ∧
      (loop turn advance next).Accepts left post) : (loop turn advance value).Accepts tokens post := by
  intro state ahead
  refine yields_loop_next ((goes state ahead).mono ?_)
  rintro answer after _ ⟨⟨next, isNext, more⟩, clean⟩
  exact ⟨next, isNext, (more after rfl).mono fun result final _ ⟨holds, still⟩ =>
    ⟨holds, still.trans clean⟩⟩

end Repetition

theorem accepts_commaSeparated {item : Rule σ α} {text : α → Language Token} {outline : α → β}
    (follow : List Token → Prop)
    (accepts : ∀ value tokens rest, tokens ∈ text value → follow rest →
      item.Accepts (tokens ++ rest) fun read left => outline read = outline value ∧ left = rest)
    (comma : ∀ tokens, nextKind tokens = .mark .comma → follow tokens) {values : List α}
    (spells : tokens ∈ separated .comma (values.map text)) (followed : follow rest)
    (ends : nextKind rest ≠ .mark .comma) :
    (commaSeparated item).Accepts (tokens ++ rest) fun read left =>
      read.map outline = values.map outline ∧ left = rest := by
  cases values with
  | nil => exact absurd spells (Language.notMem_zero _)
  | cons first values =>
      obtain ⟨head, spellsHead, others, spellsOthers, rfl⟩ := Language.mem_mul.mp spells
      rw [List.map_map] at spellsOthers
      rw [List.append_assoc]
      have next : follow (others ++ rest) := by
        cases values with
        | nil =>
            obtain rfl : others = [] := spellsOthers
            exact followed
        | cons second values =>
            rw [List.map_cons, List.prod_cons, Function.comp_apply, mul_assoc] at spellsOthers
            exact comma _ (nextKind_of_mem_word_mul spellsOthers rest)
      refine (accepts first head _ spellsHead next).bind ?_
      rintro value _ ⟨same, rfl⟩
      have run : (collect (after (.mark .comma) item) (consumesWhen_after (by simp) item)).Accepts
          (others ++ rest) fun read left => read.map outline = values.map outline ∧ left = rest := by
        refine accepts_collect Eq follow ?_ ?_ ?_ followed spellsOthers rfl
        · rintro other tokens rest _ spells rfl followed
          obtain ⟨sign, isSign, body, spellsBody, rfl⟩ := Language.mem_mul.mp spells
          rw [List.append_assoc]
          exact accepts_after_some (by simp) isSign (accepts other body rest spellsBody followed)
        · intro other tokens rest spells
          exact comma _ (nextKind_of_mem_word_mul spells rest)
        · rintro _ rfl
          exact accepts_after_none (by simp) ends
      refine run.bind ?_
      rintro read _ ⟨all, rfl⟩
      exact accepts_pure ⟨by simp [same, all], rfl⟩

end Rule

end Beagle
