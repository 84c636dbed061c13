import Beagle.Proofs.Acceptance.Name
import Beagle.Proofs.Reading.Member

/-!
Acceptance of fields, methods and bodies.
-/

namespace Beagle

open Spelling

namespace Declarator

def place (declarator : Declarator) : String × Position :=
  (declarator.name, declarator.position)

theorem outline_pair_none {declarators : List Declarator}
    (absent : ∀ declarator ∈ declarators, declarator.initial = none) :
    (pair (declarators.map place) []).map outline = declarators.map outline := by
  induction declarators with
  | nil => rfl
  | cons declarator declarators ih =>
      have first := absent declarator (by simp)
      have others := ih fun other member => absent other (by simp [member])
      simp [pair, place, outline, first, ← others]

theorem outline_pair_some {declarators : List Declarator} {literals initials : List Literal}
    (same : literals.map Literal.outline = initials.map Literal.outline)
    (each : declarators.map Declarator.initial = initials.map some) :
    (pair (declarators.map place) literals).map outline = declarators.map outline := by
  induction declarators generalizing literals initials with
  | nil => rfl
  | cons declarator declarators ih =>
      cases initials with
      | nil => simp at each
      | cons initial initials =>
          cases literals with
          | nil => simp at same
          | cons literal literals =>
              obtain ⟨sameFirst, sameOthers⟩ := List.cons.inj same
              obtain ⟨first, others⟩ := List.cons.inj each
              simp [pair, place, outline, first, sameFirst, ← ih sameOthers others]

end Declarator

namespace Spelling

variable {tokens rest : List Token}

theorem nextKind_of_mem_ofAnnots {annotations : List Annot} (spells : tokens ∈ ofAnnots annotations)
    (rest : List Token) : nextKind (tokens ++ rest) = .mark .atSign ∨ tokens = [] := by
  cases annotations with
  | nil => exact .inr spells
  | cons annot annotations =>
      obtain ⟨first, spellsFirst, others, _, rfl⟩ := Language.mem_mul.mp spells
      rw [List.append_assoc]
      exact .inl (nextKind_of_mem_ofAnnot spellsFirst _)

theorem nextKind_of_mem_ofModifiers {modifiers : Option Modifiers}
    (spells : tokens ∈ ofModifiers modifiers) (rest : List Token) :
    (∃ word, nextKind (tokens ++ rest) = .modifier word) ∨ tokens = [] := by
  obtain ⟨words, kinds, _⟩ := spells
  cases tokens with
  | nil => exact .inr rfl
  | cons token tokens =>
      cases words with
      | nil => simp at kinds
      | cons word words => exact .inl ⟨word, (List.cons.inj kinds).1⟩

theorem nextKind_of_mem_ofOptionalType {type : Option TypeRef} (spells : tokens ∈ ofOptionalType type)
    (rest : List Token) : nextKind (tokens ++ rest) = .mark .colon ∨ tokens = [] := by
  cases type with
  | none => exact .inr spells
  | some type => exact .inl (nextKind_of_mem_word_mul spells rest)

theorem nextKind_of_mem_ofInitials {kind : FieldKind} {declarators : List Declarator}
    (spells : tokens ∈ ofInitials kind declarators) (rest : List Token) :
    nextKind (tokens ++ rest) = .mark .assign ∨ tokens = [] := by
  rcases spells with ⟨_, _, rfl⟩ | ⟨_, _, spells⟩
  · exact .inr rfl
  · exact .inl (nextKind_of_mem_word_mul spells rest)

theorem nextKind_of_mem_ofBlock {block : Block} (spells : tokens ∈ ofBlock block) (rest : List Token) :
    nextKind (tokens ++ rest) = .mark .leftBrace := by
  have inside := spells.1
  rw [mul_assoc] at inside
  exact nextKind_of_mem_word_mul inside rest

def Opens (reserved : Keyword) (kind : Kind) : Prop :=
  kind = .mark .atSign ∨ (∃ word, kind = .modifier word) ∨ kind = .keyword reserved

theorem opens_of_mem {annotations : List Annot} {modifiers : Option Modifiers} {reserved : Keyword}
    (spells : tokens ∈ ofAnnots annotations * ofModifiers modifiers)
    (next : nextKind rest = .keyword reserved) : Opens reserved (nextKind (tokens ++ rest)) := by
  obtain ⟨first, spellsAnnots, second, spellsModifiers, rfl⟩ := Language.mem_mul.mp spells
  rw [List.append_assoc]
  rcases nextKind_of_mem_ofAnnots spellsAnnots (second ++ rest) with sign | rfl
  · exact .inl sign
  · rcases nextKind_of_mem_ofModifiers spellsModifiers rest with modifier | rfl
    · exact .inr (.inl modifier)
    · exact .inr (.inr next)

end Spelling

def joiningMarks : List Mark :=
  [.dot, .colon, .comma, .assign, .leftBrace]

def EndsDeclaration (tokens : List Token) : Prop :=
  ∀ sign ∈ joiningMarks, nextKind tokens ≠ .mark sign

theorem EndsDeclaration.endsName {tokens : List Token} (ends : EndsDeclaration tokens) :
    EndsName tokens :=
  endsName_of_nextKind (ends .dot (by simp [joiningMarks]))

theorem Grammar.dropWhile_of_nextKind {tokens : List Token}
    (other : isTerminator (nextKind tokens) = false) : tokens.dropWhile endsLine = tokens := by
  cases tokens with
  | nil => rfl
  | cons token rest => exact List.dropWhile_cons_of_neg (by simpa [endsLine] using other)

theorem Spelling.Opens.dropWhile {tokens : List Token} {reserved : Keyword}
    (opens : Opens reserved (nextKind tokens)) : tokens.dropWhile Grammar.endsLine = tokens := by
  refine Grammar.dropWhile_of_nextKind ?_
  rcases opens with sign | ⟨word, modifier⟩ | next
  · simp [sign, Grammar.isTerminator]
  · simp [modifier, Grammar.isTerminator]
  · simp [next, Grammar.isTerminator]

theorem Spelling.Opens.ne_mark {kind : Kind} {reserved : Keyword} (opens : Opens reserved kind)
    {sign : Mark} (other : sign ≠ .atSign) : kind ≠ .mark sign := by
  rcases opens with rfl | ⟨word, rfl⟩ | rfl
  · simpa using other.symm
  · simp
  · simp

theorem Spelling.Opens.ne_keyword {kind : Kind} {reserved other : Keyword} (opens : Opens reserved kind)
    (different : other ≠ reserved) : kind ≠ .keyword other := by
  rcases opens with rfl | ⟨word, rfl⟩ | rfl
  · simp
  · simp
  · simpa using different.symm

theorem Spelling.Opens.ne_fileEnd {kind : Kind} {reserved : Keyword} (opens : Opens reserved kind) :
    kind ≠ .fileEnd := by
  rcases opens with rfl | ⟨word, rfl⟩ | rfl <;> simp

theorem Spelling.Opens.endsDeclaration {tokens : List Token} {reserved : Keyword}
    (opens : Opens reserved (nextKind tokens)) : EndsDeclaration tokens := by
  intro sign joins
  refine opens.ne_mark ?_
  rintro rfl
  simp [joiningMarks] at joins

namespace Grammar

open Rule

variable {σ : Type} [TokenSource σ] {tokens rest : List Token}

theorem meets_preamble_loose (state : State σ) : (preamble : Rule σ Preamble).Meets state
    fun start _ => ∀ annot ∈ start.annotations, Loose annot :=
  meets_preamble.mono fun _ _ _ begun => begun.loose

theorem accepts_preamble (start : Preamble) {reserved : Keyword}
    (spells : tokens ∈ ofAnnots start.annotations * ofModifiers start.modifiers)
    (next : nextKind rest = .keyword reserved)
    (starts : (tokens ++ rest).head?.map Token.position = some start.info.position) :
    (preamble : Rule σ Preamble).Accepts (tokens ++ rest) fun read left =>
      read.outline = start.outline ∧ left = rest := by
  refine (accepts_node starts).bind ?_
  rintro info _ ⟨place, rfl⟩
  obtain ⟨first, spellsAnnots, second, spellsModifiers, rfl⟩ := Language.mem_mul.mp spells
  rw [List.append_assoc]
  have behind : nextKind (second ++ rest) ≠ .mark .dot ∧ nextKind (second ++ rest) ≠ .mark .atSign := by
    rcases nextKind_of_mem_ofModifiers spellsModifiers rest with ⟨word, modifier⟩ | rfl
    · simp [modifier]
    · simp [next]
  refine (accepts_annotations spellsAnnots (endsName_of_nextKind behind.1) behind.2).bind ?_
  rintro annotations _ ⟨sameAnnots, rfl⟩
  refine (accepts_modifiers spellsModifiers (by simp [next])).bind ?_
  rintro modifiers _ ⟨rfl, rfl⟩
  refine accepts_pure ⟨?_, rfl⟩
  simp [Preamble.outline, NodeInfo.outline_eq place, sameAnnots]

theorem accepts_declaredName {name : String × Position} (spells : tokens ∈ declared name) :
    (declaredName : Rule σ (String × Position)).Accepts (tokens ++ rest) fun read left =>
      id read = id name ∧ left = rest := by
  obtain ⟨token, found, text, position, rfl⟩ := spells
  refine accepts_current.bind ?_
  rintro _ _ ⟨rfl, rfl⟩
  refine (accepts_simpleName ⟨_, found, rfl, rfl⟩).bind ?_
  rintro _ _ ⟨rfl, rfl⟩
  exact accepts_pure ⟨by simp [text, position], rfl⟩

theorem accepts_optionalType {type : Option TypeRef} (spells : tokens ∈ ofOptionalType type)
    (ends : EndsName rest) (other : nextKind rest ≠ .mark .colon) :
    (optionalType : Rule σ (Option TypeRef)).Accepts (tokens ++ rest) fun read left =>
      read.map TypeRef.outline = type.map TypeRef.outline ∧ left = rest := by
  cases type with
  | none =>
      obtain rfl : tokens = [] := spells
      refine (accepts_after_none (by simp) other).mono ?_
      rintro _ _ ⟨rfl, rfl⟩
      exact ⟨rfl, rfl⟩
  | some type =>
      obtain ⟨colon, isColon, name, spellsType, rfl⟩ := Language.mem_mul.mp spells
      rw [List.append_assoc]
      refine (accepts_after_some (by simp) isColon (accepts_typeRef spellsType ends)).mono ?_
      rintro _ _ ⟨read, rfl, same, rfl⟩
      exact ⟨congrArg some same, rfl⟩

theorem accepts_initials {kind : FieldKind} {declarators : List Declarator}
    (spells : tokens ∈ ofInitials kind declarators) (ends : EndsDeclaration rest) :
    (initials kind : Rule σ (List Literal)).Accepts (tokens ++ rest) fun read left =>
      ((Declarator.pair (declarators.map Declarator.place) read).map Declarator.outline =
        declarators.map Declarator.outline ∧
      (read = [] ∨ read.length = declarators.length)) ∧ left = rest := by
  rcases spells with ⟨rfl, absent, rfl⟩ | ⟨initials, each, spells⟩
  · refine (accepts_after_none (by simp) (ends .assign (by simp [joiningMarks]))).bind ?_
    rintro _ _ ⟨rfl, rfl⟩
    exact accepts_pure ⟨⟨Declarator.outline_pair_none absent, .inl rfl⟩, rfl⟩
  · obtain ⟨sign, isSign, values, spellsValues, rfl⟩ := Language.mem_mul.mp spells
    rw [List.append_assoc]
    have read : (commaSeparated literal : Rule σ _).Accepts (values ++ rest) fun read left =>
        read.map Literal.outline = initials.map Literal.outline ∧ left = rest := by
      exact accepts_commaSeparated (fun _ => True) (fun _ _ _ spells _ => accepts_literal spells)
        (fun _ _ => trivial) spellsValues trivial (ends .comma (by simp [joiningMarks]))
    refine (accepts_after_some (by simp) isSign read).bind ?_
    rintro _ _ ⟨literals, rfl, same, rfl⟩
    refine accepts_pure ⟨⟨Declarator.outline_pair_some same each, .inr ?_⟩, rfl⟩
    have length := congrArg List.length same
    have count := congrArg List.length each
    simp only [List.length_map] at length count
    omega

theorem meets_optionalType_loose (state : State σ) : (optionalType : Rule σ (Option TypeRef)).Meets
    state fun type _ => ∀ value ∈ type, Loose value :=
  meets_optionalType.mono fun type _ _ answer value member =>
    answer.loose (.typeRef value) (by simpa using member)

theorem meets_initials_loose (kind : FieldKind) (state : State σ) :
    (initials kind : Rule σ (List Literal)).Meets state fun literals _ =>
      ∀ literal ∈ literals, Loose literal :=
  (meets_initials kind).mono fun _ _ _ answer literal member =>
    answer.loose (.literal literal) (List.mem_map_of_mem member)

theorem ends_of_mem_ofInitials {kind : FieldKind} {declarators : List Declarator}
    (spells : tokens ∈ ofInitials kind declarators) (ends : EndsDeclaration rest) :
    EndsName (tokens ++ rest) ∧ nextKind (tokens ++ rest) ≠ .mark .colon ∧
      nextKind (tokens ++ rest) ≠ .mark .comma := by
  rcases nextKind_of_mem_ofInitials spells rest with sign | rfl
  · exact ⟨endsName_of_nextKind (by simp [sign]), by simp [sign], by simp [sign]⟩
  · exact ⟨ends.endsName, ends .colon (by simp [joiningMarks]), ends .comma (by simp [joiningMarks])⟩

theorem accepts_field {start : Preamble} {field : Field}
    (same : start.outline = (Preamble.mk field.info field.annotations field.modifiers).outline)
    (loose : ∀ annot ∈ start.annotations, Loose annot)
    (spells : tokens ∈ keyword (fieldWord field.kind) *
      (separated .comma (field.declarators.map ofDeclared) *
        (ofOptionalType field.type * ofInitials field.kind field.declarators)))
    (ends : EndsDeclaration rest) :
    (Grammar.field start field.kind : Rule σ Field).Accepts (tokens ++ rest) fun read left =>
      read.outline = field.outline ∧ left = rest := by
  obtain ⟨word, isWord, _, behindWord, rfl⟩ := Language.mem_mul.mp spells
  obtain ⟨names, spellsNames, _, last, rfl⟩ := Language.mem_mul.mp behindWord
  obtain ⟨typed, spellsType, values, spellsValues, rfl⟩ := Language.mem_mul.mp last
  simp only [List.append_assoc]
  obtain ⟨endsName, noColon, noComma⟩ := ends_of_mem_ofInitials spellsValues ends
  have behindNames : nextKind (typed ++ (values ++ rest)) ≠ .mark .comma := by
    rcases nextKind_of_mem_ofOptionalType spellsType (values ++ rest) with sign | rfl
    · simp [sign]
    · exact noComma
  refine (accepts_word (by simp) isWord).bind ?_
  rintro _ _ rfl
  have namesRead : (commaSeparated declaredName : Rule σ _).Accepts
      (names ++ (typed ++ (values ++ rest))) fun read left =>
        read.map id = (field.declarators.map Declarator.place).map id ∧
          left = typed ++ (values ++ rest) := by
    refine accepts_commaSeparated (fun _ => True) (fun _ _ _ spells _ => accepts_declaredName spells)
      (fun _ _ => trivial) ?_ trivial behindNames
    rw [List.map_map]
    exact spellsNames
  refine namesRead.bind ?_
  rintro places _ ⟨samePlaces, rfl⟩
  rw [List.map_id, List.map_id] at samePlaces
  refine ((accepts_optionalType spellsType endsName noColon).and
    meets_optionalType_loose).bind ?_
  rintro type _ ⟨⟨sameType, rfl⟩, looseType⟩
  refine ((accepts_initials spellsValues ends).and (meets_initials_loose field.kind)).bind ?_
  rintro literals _ ⟨⟨⟨samePairs, enough⟩, rfl⟩, looseLiterals⟩
  rw [← samePlaces] at samePairs
  have enough : literals = [] ∨ literals.length = places.length := by
    simpa [samePlaces] using enough
  have counted : (!literals.isEmpty && literals.length ≠ places.length) = false := by
    rcases enough with rfl | equal
    · rfl
    · simp [equal]
  rw [counted]
  have looseInitials := Declarator.loose_initial_of_mem_pair enough looseLiterals
  refine accepts_assemble (Field.build_eq loose looseType looseInitials) ⟨?_, rfl⟩
  simp only [Preamble.outline, Preamble.mk.injEq] at same
  simp [Field.outline, Function.comp_def, same, sameType, samePairs]

theorem accepts_param {param : Param} (spells : tokens ∈ ofParam param) (ends : EndsName rest) :
    (Grammar.param : Rule σ Param).Accepts (tokens ++ rest) fun read left =>
      read.outline = param.outline ∧ left = rest := by
  refine (accepts_node (head?_of_mem_placed spells rest)).bind ?_
  rintro info _ ⟨place, rfl⟩
  obtain ⟨_, named, type, spellsType, rfl⟩ := Language.mem_mul.mp spells.1
  obtain ⟨name, isName, colon, isColon, rfl⟩ := Language.mem_mul.mp named
  simp only [List.append_assoc]
  refine (accepts_simpleName isName).bind ?_
  rintro _ _ ⟨rfl, rfl⟩
  refine (accepts_word (by simp) isColon).bind ?_
  rintro _ _ rfl
  refine ((accepts_typeRef spellsType ends).and meets_typeRef_loose).bind ?_
  rintro read _ ⟨⟨same, rfl⟩, loose⟩
  refine accepts_assemble (Param.make_eq loose) ⟨?_, rfl⟩
  simp [Param.outline, NodeInfo.outline_eq place, same]

theorem accepts_paramList {params : List Param}
    (spells : tokens ∈ if params = [] then 1 else separated .comma (params.map ofParam))
    (next : nextKind rest = .mark .rightParen) :
    (paramList : Rule σ (List Param)).Accepts (tokens ++ rest) fun read left =>
      read.map Param.outline = params.map Param.outline ∧ left = rest := by
  refine (accepts_check _).bind ?_
  rintro _ _ ⟨rfl, rfl⟩
  cases params with
  | nil =>
      obtain rfl : tokens = [] := spells
      rw [decide_eq_true (by exact next)]
      exact accepts_pure ⟨rfl, rfl⟩
  | cons first params =>
      rw [if_neg (by simp)] at spells
      have named : nextKind (tokens ++ rest) = .identifier := by
        obtain ⟨head, ⟨spellsFirst, _⟩, others, _, rfl⟩ := Language.mem_mul.mp spells
        rw [mul_assoc] at spellsFirst
        obtain ⟨_, ⟨name, isName, _, rfl⟩, _, _, rfl⟩ := Language.mem_mul.mp spellsFirst
        exact isName
      rw [decide_eq_false (by simp [named])]
      refine accepts_commaSeparated EndsName (fun _ _ _ spells ends => accepts_param spells ends)
        (fun tokens comma => endsName_of_nextKind (by simp [comma])) spells
        (endsName_of_nextKind (by simp [next])) (by simp [next])

theorem accepts_params {params : List Param} (spells : tokens ∈ ofParams params) :
    (Grammar.params : Rule σ (List Param)).Accepts (tokens ++ rest) fun read left =>
      read.map Param.outline = params.map Param.outline ∧ left = rest := by
  obtain ⟨_, opened, right, isRight, rfl⟩ := Language.mem_mul.mp spells
  obtain ⟨left, isLeft, list, spellsList, rfl⟩ := Language.mem_mul.mp opened
  simp only [List.append_assoc]
  refine (accepts_word (by simp) isLeft).bind ?_
  rintro _ _ rfl
  refine (accepts_paramList spellsList (nextKind_of_mem_word isRight rest)).bind ?_
  rintro read _ ⟨same, rfl⟩
  refine (accepts_word (by simp) isRight).bind ?_
  rintro _ _ rfl
  exact accepts_pure ⟨same, rfl⟩

theorem accepts_blockStep {token : Token} (progress : BlockProgress) (valid : token.kind ≠ .invalid) :
    (blockStep progress : Rule σ _).Accepts (token :: rest) fun answer left =>
      answer = progress.take token.kind ∧ left = rest := by
  refine Accepts.of_more fun more => ?_
  have isToken : isBlockToken token.kind = true := by simp [isBlockToken, more, valid]
  refine (accepts_takeWhen_some (fun token last => by simp [last, isBlockToken])
    (if_pos isToken)).bind ?_
  rintro _ _ ⟨rfl, rfl⟩
  exact accepts_pure ⟨rfl, rfl⟩

theorem accepts_blockLoop {close : Token} (isClose : close.kind = .mark .rightBrace)
    (valid : ∀ token ∈ tokens, token.kind ≠ .invalid) {progress : BlockProgress}
    (balanced : Balanced progress.depth tokens) :
    (loop blockStep consumesWhen_blockStep progress : Rule σ Nat).Accepts (tokens ++ close :: rest)
      fun size left => size = progress.size + tokens.length ∧ left = rest := by
  induction tokens generalizing progress with
  | nil =>
      refine accepts_loop_done ((accepts_blockStep progress (by simp [isClose])).mono ?_)
      rintro _ _ ⟨rfl, rfl⟩
      refine ⟨progress.size, ?_, rfl, rfl⟩
      rw [isClose, BlockProgress.take, balanced_nil_iff.mp balanced]
  | cons token tokens ih =>
      have validOthers : ∀ other ∈ tokens, other.kind ≠ .invalid := fun other member =>
        valid other (by simp [member])
      have goesOn (next : BlockProgress) (taken : progress.take token.kind = .inl next)
          (count : next.size = progress.size + 1) (inside : Balanced next.depth tokens) :
          (loop blockStep consumesWhen_blockStep progress : Rule σ Nat).Accepts
            (token :: tokens ++ close :: rest)
            fun size left => size = progress.size + (token :: tokens).length ∧ left = rest := by
        refine accepts_loop_next ((accepts_blockStep progress (valid token (by simp))).mono ?_)
        rintro _ _ ⟨rfl, rfl⟩
        refine ⟨next, taken, (ih validOthers inside).mono ?_⟩
        rintro _ _ ⟨rfl, rfl⟩
        exact ⟨by simp only [List.length_cons]; omega, rfl⟩
      by_cases left : token.kind = .mark .leftBrace
      · exact goesOn ⟨progress.depth + 1, progress.size + 1⟩ (by rw [left]; rfl) rfl
          ((balanced_cons_left_iff left).mp balanced)
      by_cases right : token.kind = .mark .rightBrace
      · obtain ⟨depth, size⟩ := progress
        cases depth with
        | zero => exact absurd balanced (not_balanced_zero_cons_right right)
        | succ depth =>
            exact goesOn ⟨depth, size + 1⟩ (by rw [right]; rfl) rfl
              ((balanced_cons_right_iff right).mp balanced)
      · exact goesOn ⟨progress.depth, progress.size + 1⟩ (BlockProgress.take_other left right) rfl
          ((balanced_cons_other_iff left right).mp balanced)

theorem accepts_block {block : Block} (spells : tokens ∈ ofBlock block) :
    (Grammar.block : Rule σ Block).Accepts (tokens ++ rest) fun read left =>
      read.outline = block.outline ∧ left = rest := by
  refine (accepts_node (head?_of_mem_placed spells rest)).bind ?_
  rintro info _ ⟨place, rfl⟩
  obtain ⟨_, opened, _, ⟨close, isClose, rfl⟩, rfl⟩ := Language.mem_mul.mp spells.1
  obtain ⟨left, isLeft, inside, ⟨balanced, valid, length⟩, rfl⟩ := Language.mem_mul.mp opened
  simp only [List.append_assoc]
  refine (accepts_word (by simp) isLeft).bind ?_
  rintro _ _ rfl
  refine (accepts_blockLoop isClose valid balanced).bind ?_
  rintro size _ ⟨rfl, rfl⟩
  refine accepts_pure ⟨?_, rfl⟩
  simp [Block.outline, NodeInfo.outline_eq place, length]

theorem meets_params_loose (state : State σ) : (params : Rule σ (List Param)).Meets state
    fun params _ => ∀ param ∈ params, Loose param :=
  meets_params.mono fun _ _ _ answer param member =>
    answer.loose (.param param) (List.mem_map_of_mem member)

theorem meets_methodBody_loose (state : State σ) :
    (whenNext (.mark .leftBrace) block : Rule σ (Option Block)).Meets state
      fun body _ => ∀ block ∈ body, Loose block := by
  refine (meets_whenNext fun _ => meets_block).mono ?_
  rintro _ _ _ either block rfl
  exact Answer.loose either (.block block) (by simp)

theorem accepts_methodBody {body : Option Block} (spells : tokens ∈ maybe ofBlock body)
    (ends : nextKind rest ≠ .mark .leftBrace) :
    (whenNext (.mark .leftBrace) block : Rule σ (Option Block)).Accepts (tokens ++ rest)
      fun read left => read.map Block.outline = body.map Block.outline ∧ left = rest := by
  cases body with
  | none =>
      obtain rfl : tokens = [] := spells
      refine (accepts_whenNext_none ends).mono ?_
      rintro _ _ ⟨rfl, rfl⟩
      exact ⟨rfl, rfl⟩
  | some block =>
      refine (accepts_whenNext_some (nextKind_of_mem_ofBlock spells rest) (accepts_block spells)).mono ?_
      rintro _ _ ⟨read, rfl, same, rfl⟩
      exact ⟨congrArg some same, rfl⟩

theorem accepts_method {start : Preamble} {method : Method}
    (same : start.outline = (Preamble.mk method.info method.annotations method.modifiers).outline)
    (loose : ∀ annot ∈ start.annotations, Loose annot)
    (spells : tokens ∈ keyword .defWord * (identifier method.name * (ofParams method.params *
      (ofOptionalType method.result * maybe ofBlock method.body)))) (ends : EndsDeclaration rest) :
    (Grammar.method start : Rule σ Method).Accepts (tokens ++ rest) fun read left =>
      read.outline = method.outline ∧ left = rest := by
  obtain ⟨word, isWord, _, behindWord, rfl⟩ := Language.mem_mul.mp spells
  obtain ⟨name, isName, _, behindName, rfl⟩ := Language.mem_mul.mp behindWord
  obtain ⟨list, spellsParams, _, last, rfl⟩ := Language.mem_mul.mp behindName
  obtain ⟨typed, spellsType, inside, spellsBody, rfl⟩ := Language.mem_mul.mp last
  simp only [List.append_assoc]
  have behindType : EndsName (inside ++ rest) ∧ nextKind (inside ++ rest) ≠ .mark .colon := by
    cases body : method.body with
    | none =>
        rw [body] at spellsBody
        obtain rfl : inside = [] := spellsBody
        exact ⟨ends.endsName, ends .colon (by simp [joiningMarks])⟩
    | some block =>
        rw [body] at spellsBody
        have brace := nextKind_of_mem_ofBlock spellsBody rest
        exact ⟨endsName_of_nextKind (by simp [brace]), by simp [brace]⟩
  refine (accepts_word (by simp) isWord).bind ?_
  rintro _ _ rfl
  refine (accepts_simpleName isName).bind ?_
  rintro _ _ ⟨rfl, rfl⟩
  refine ((accepts_params spellsParams).and meets_params_loose).bind ?_
  rintro params _ ⟨⟨sameParams, rfl⟩, looseParams⟩
  refine ((accepts_optionalType spellsType behindType.1 behindType.2).and
    meets_optionalType_loose).bind ?_
  rintro result _ ⟨⟨sameResult, rfl⟩, looseResult⟩
  refine ((accepts_methodBody spellsBody (ends .leftBrace (by simp [joiningMarks]))).and
    meets_methodBody_loose).bind ?_
  rintro body _ ⟨⟨sameBody, rfl⟩, looseBody⟩
  refine accepts_assemble (Method.build_eq loose looseParams looseResult looseBody) ⟨?_, rfl⟩
  simp only [Preamble.outline, Preamble.mk.injEq] at same
  simp [Method.outline, Function.comp_def, same, sameParams, sameResult, sameBody]

def Member.preamble : Member → Preamble
  | .field it => ⟨it.info, it.annotations, it.modifiers⟩
  | .method it => ⟨it.info, it.annotations, it.modifiers⟩

def Member.reserved : Member → Keyword
  | .field it => fieldWord it.kind
  | .method _ => .defWord

def ofMemberRest : Member → Language Token
  | .field it => keyword (fieldWord it.kind) * (separated .comma (it.declarators.map ofDeclared) *
      (ofOptionalType it.type * ofInitials it.kind it.declarators))
  | .method it => keyword .defWord * (identifier it.name * (ofParams it.params *
      (ofOptionalType it.result * maybe ofBlock it.body)))

theorem ofMember_eq (member : Member) : ofMember member = placed member.preamble.info
    (ofAnnots member.preamble.annotations * ofModifiers member.preamble.modifiers *
      ofMemberRest member) := by
  cases member with
  | field it => simp only [ofMember, ofField, ofMemberRest, Member.preamble, mul_assoc]
  | method it => simp only [ofMember, ofMethod, ofMemberRest, Member.preamble, mul_assoc]

theorem nextKind_of_mem_ofMemberRest {member : Member} (spells : tokens ∈ ofMemberRest member)
    (rest : List Token) : nextKind (tokens ++ rest) = .keyword member.reserved := by
  cases member <;> exact nextKind_of_mem_word_mul spells rest

theorem opens_of_mem_ofMember {member : Member} (spells : tokens ∈ ofMember member)
    (rest : List Token) : Opens member.reserved (nextKind (tokens ++ rest)) := by
  rw [ofMember_eq] at spells
  obtain ⟨front, spellsFront, back, spellsBack, rfl⟩ := Language.mem_mul.mp spells.1
  rw [List.append_assoc]
  exact opens_of_mem spellsFront (nextKind_of_mem_ofMemberRest spellsBack rest)

theorem accepts_memberAfter {start : Preamble} {member : Member}
    (same : start.outline = member.preamble.outline) (loose : ∀ annot ∈ start.annotations, Loose annot)
    (spells : tokens ∈ ofMemberRest member) (ends : EndsDeclaration rest) :
    (memberAfter start : Rule σ (Option Member)).Accepts (tokens ++ rest) fun read left =>
      ∃ value, read = some value ∧ value.outline = member.outline ∧ left = rest := by
  have next := nextKind_of_mem_ofMemberRest spells rest
  cases ahead : tokens ++ rest with
  | nil => simp [ahead] at next
  | cons token others =>
      rw [ahead, nextKind_cons] at next
      refine accepts_current.bind ?_
      rintro _ _ ⟨rfl, rfl⟩
      rw [next, ← ahead]
      cases member with
      | field it =>
          have read : (Grammar.field start it.kind : Rule σ Field).Accepts (tokens ++ rest) _ :=
            accepts_field same loose spells ends
          cases kind : it.kind with
          | mutable =>
              simp only [Member.reserved, kind, fieldWord] at read ⊢
              refine read.bind ?_
              rintro value _ ⟨sameValue, rfl⟩
              exact accepts_pure ⟨_, rfl, congrArg Member.field sameValue, rfl⟩
          | constant =>
              simp only [Member.reserved, kind, fieldWord] at read ⊢
              refine read.bind ?_
              rintro value _ ⟨sameValue, rfl⟩
              exact accepts_pure ⟨_, rfl, congrArg Member.field sameValue, rfl⟩
      | method it =>
          refine (accepts_method same loose spells ends).bind ?_
          rintro value _ ⟨sameValue, rfl⟩
          exact accepts_pure ⟨_, rfl, congrArg Member.method sameValue, rfl⟩

theorem dropWhile_terminators_append (spells : tokens ∈ Spelling.terminators) (rest : List Token) :
    (tokens ++ rest).dropWhile endsLine = rest.dropWhile endsLine := by
  refine List.dropWhile_append_of_pos fun token member => ?_
  exact (endsLine_iff token).mpr (spells token member)

theorem dropWhile_terminators (spells : tokens ∈ Spelling.terminators) :
    tokens.dropWhile endsLine = [] := by
  have dropped := dropWhile_terminators_append spells []
  rwa [List.append_nil, List.dropWhile_nil] at dropped

/-- What is ahead and what is to be read differ at most in ends of lines in front. -/
def AgreeBehindLines (ahead text : List Token) : Prop :=
  ahead.dropWhile endsLine = text.dropWhile endsLine

theorem accepts_memberStep_some {member : Member} {ahead : List Token}
    (spells : tokens ∈ Spelling.terminators * ofMember member)
    (agree : AgreeBehindLines ahead (tokens ++ rest)) (ends : EndsDeclaration rest) :
    (memberStep : Rule σ (Option Member)).Accepts ahead fun read left =>
      ∃ value, read = some value ∧ value.outline = member.outline ∧ AgreeBehindLines left rest := by
  obtain ⟨skipped, isSkipped, text, spellsMember, rfl⟩ := Language.mem_mul.mp spells
  have opens := opens_of_mem_ofMember spellsMember rest
  rw [AgreeBehindLines, List.append_assoc, dropWhile_terminators_append isSkipped, opens.dropWhile] at agree
  refine accepts_terminators.bind ?_
  rintro _ _ rfl
  rw [agree]
  refine (accepts_check _).bind ?_
  rintro _ _ ⟨rfl, rfl⟩
  rw [decide_eq_false (opens.ne_mark (by simp))]
  rw [ofMember_eq] at spellsMember
  have starts := head?_of_mem_placed spellsMember rest
  obtain ⟨front, spellsFront, back, spellsBack, rfl⟩ := Language.mem_mul.mp spellsMember.1
  rw [List.append_assoc] at starts ⊢
  refine ((accepts_preamble _ spellsFront (nextKind_of_mem_ofMemberRest spellsBack rest) starts).and
    meets_preamble_loose).bind ?_
  rintro start _ ⟨⟨same, rfl⟩, loose⟩
  refine (accepts_memberAfter same loose spellsBack ends).mono ?_
  rintro _ _ ⟨value, rfl, sameValue, rfl⟩
  exact ⟨value, rfl, sameValue, rfl⟩

theorem accepts_memberStep_none {ahead : List Token} (agree : AgreeBehindLines ahead rest)
    (close : nextKind (rest.dropWhile endsLine) = .mark .rightBrace) :
    (memberStep : Rule σ (Option Member)).Accepts ahead fun read left =>
      read = none ∧ left = rest.dropWhile endsLine := by
  refine accepts_terminators.bind ?_
  rintro _ _ rfl
  rw [agree]
  refine (accepts_check _).bind ?_
  rintro _ _ ⟨rfl, rfl⟩
  rw [decide_eq_true close]
  exact accepts_pure ⟨rfl, rfl⟩

theorem endsDeclaration_terminators_append (spells : tokens ∈ Spelling.terminators)
    (ends : EndsDeclaration rest) : EndsDeclaration (tokens ++ rest) := by
  cases tokens with
  | nil => exact ends
  | cons token tokens =>
      rcases spells token (by simp) with kind | kind
      · simp [EndsDeclaration, joiningMarks, kind]
      · simp [EndsDeclaration, kind]

theorem meets_members_loose (state : State σ) :
    (collect memberStep consumesWhen_memberStep : Rule σ (List Member)).Meets state fun members _ =>
      ∀ member ∈ members, member.node.info.parent = none := by
  refine (meets_collect_answer (fun _ => meets_memberStep) state).mono ?_
  rintro members _ _ ⟨_, answer, _⟩ member found
  exact (Answer.ofSingles answer).loose member.node (List.mem_map_of_mem found)

namespace Member

@[simp] theorem outline_owned (parent : Nat) (member : Member) :
    (member.owned parent).outline = member.outline := by
  cases member <;> rfl

theorem var?_outline (member : Member) : member.outline.var? = member.var?.map Field.outline := by
  cases member with
  | field it => by_cases kind : it.kind = .mutable <;> simp [outline, var?, Field.outline, kind]
  | method it => rfl

theorem const?_outline (member : Member) : member.outline.const? = member.const?.map Field.outline := by
  cases member with
  | field it => by_cases kind : it.kind = .constant <;> simp [outline, const?, Field.outline, kind]
  | method it => rfl

theorem method?_outline (member : Member) :
    member.outline.method? = member.method?.map Method.outline := by
  cases member <;> rfl

end Member

theorem outline_ofMembers (info : NodeInfo) (members : List Member) :
    (Body.ofMembers info members).outline = .ofMembers info.outline (members.map Member.outline) := by
  simp [Body.outline, Body.ofMembers, List.filterMap_map, List.map_filterMap,
    Member.var?_outline, Member.const?_outline, Member.method?_outline]

theorem accepts_body {body : Body} (spells : tokens ∈ ofBody body) :
    (Grammar.body : Rule σ Body).Accepts (tokens ++ rest) fun read left =>
      read.outline = body.outline ∧ left = rest := by
  obtain ⟨members, filed, placed⟩ := spells
  refine (accepts_node (head?_of_mem_placed placed rest)).bind ?_
  rintro info _ ⟨place, rfl⟩
  obtain ⟨_, opened, _, ⟨close, isClose, rfl⟩, rfl⟩ := Language.mem_mul.mp placed.1
  obtain ⟨_, listed, skipped, isSkipped, rfl⟩ := Language.mem_mul.mp opened
  obtain ⟨left, isLeft, list, spellsMembers, rfl⟩ := Language.mem_mul.mp listed
  simp only [List.append_assoc, List.singleton_append]
  have closing : (skipped ++ close :: rest).dropWhile endsLine = close :: rest := by
    rw [dropWhile_terminators_append isSkipped]
    exact dropWhile_of_nextKind (by simp [isClose, isTerminator])
  refine (accepts_word (by simp) isLeft).bind ?_
  rintro _ _ rfl
  have membersRead : (collect memberStep consumesWhen_memberStep : Rule σ _).Accepts
      (list ++ (skipped ++ close :: rest)) fun read left =>
        read.map Member.outline = members.map Member.outline ∧ left = close :: rest := by
    refine accepts_collect AgreeBehindLines EndsDeclaration ?_ ?_ ?_ ?_ spellsMembers rfl
    · intro member tokens rest ahead spells agree ends
      exact accepts_memberStep_some spells agree ends
    · intro member tokens rest spells
      obtain ⟨skipped, isSkipped, text, spellsMember, rfl⟩ := Language.mem_mul.mp spells
      rw [List.append_assoc]
      exact endsDeclaration_terminators_append isSkipped
        (opens_of_mem_ofMember spellsMember rest).endsDeclaration
    · intro ahead agree
      refine (accepts_memberStep_none agree (by simp [closing, isClose])).mono ?_
      rintro _ _ ⟨rfl, rfl⟩
      exact ⟨rfl, closing⟩
    · refine endsDeclaration_terminators_append isSkipped ?_
      simp [EndsDeclaration, joiningMarks, isClose]
  refine (membersRead.and meets_members_loose).bind ?_
  rintro read _ ⟨⟨same, rfl⟩, loose⟩
  refine (accepts_discard 1).bind ?_
  rintro _ _ rfl
  refine accepts_assemble (buildBody_eq loose) ⟨?_, rfl⟩
  rw [outline_ofMembers, filed, outline_ofMembers, List.map_map, NodeInfo.outline_eq place]
  simp [Function.comp_def, same, Body.ofMembers]

end Grammar

end Beagle
