import Beagle.Proofs.Acceptance.Rule
import Beagle.Proofs.Outline
import Beagle.Proofs.Reading.Name

/-!
Acceptance of names, annotations, modifiers and literals.
-/

namespace Beagle

open Spelling

namespace Spelling

theorem nextKind_of_mem_ofAnnot {annot : Annot} {tokens : List Token} (spells : tokens ∈ ofAnnot annot)
    (rest : List Token) : nextKind (tokens ++ rest) = .mark .atSign :=
  nextKind_of_mem_word_mul spells.1 rest

end Spelling

def EndsName (tokens : List Token) : Prop :=
  ¬∃ one two rest, tokens = one :: two :: rest ∧ one.kind = .mark .dot ∧ two.kind = .identifier

theorem endsName_of_nextKind {tokens : List Token} (other : nextKind tokens ≠ .mark .dot) :
    EndsName tokens := by
  rintro ⟨one, two, rest, rfl, isDot, _⟩
  exact other isDot

namespace Grammar

open Rule

variable {σ : Type} [TokenSource σ] {tokens rest : List Token}

theorem accepts_terminators : (terminators : Rule σ Unit).Accepts tokens fun _ left =>
    left = tokens.dropWhile endsLine := by
  rintro state rfl
  exact yields_terminators.mono fun _ after _ ⟨ahead, _, session⟩ =>
    ⟨ahead, congrArg Session.errorCount session⟩

theorem accepts_simpleName {text : String} (spells : tokens ∈ identifier text) :
    (simpleName : Rule σ String).Accepts (tokens ++ rest) fun read left => read = text ∧ left = rest := by
  obtain ⟨token, found, rfl, rfl⟩ := spells
  refine (accepts_expect (by simp) found).bind ?_
  rintro _ _ ⟨rfl, rfl⟩
  exact accepts_pure ⟨rfl, rfl⟩

theorem accepts_segmentStep_some {text : String} (spells : tokens ∈ mark .dot * identifier text) :
    (segmentStep : Rule σ (Option String)).Accepts (tokens ++ rest) fun read left =>
      read = some text ∧ left = rest := by
  obtain ⟨first, ⟨dot, isDot, rfl⟩, second, ⟨name, isName, rfl, rfl⟩, rfl⟩ := Language.mem_mul.mp spells
  refine (accepts_startsWith (by simp) (by simp)).bind ?_
  rintro found _ ⟨isFound, rfl⟩
  rw [isFound.mpr ⟨dot, name, rest, rfl, isDot, isName⟩]
  refine (accepts_expect (by simp) isDot).bind ?_
  rintro _ _ ⟨rfl, rfl⟩
  refine (accepts_simpleName ⟨name, isName, rfl, rfl⟩).bind ?_
  rintro _ _ ⟨rfl, rfl⟩
  exact accepts_pure ⟨rfl, rfl⟩

theorem accepts_segmentStep_none (ends : EndsName tokens) :
    (segmentStep : Rule σ (Option String)).Accepts tokens fun read left =>
      read = none ∧ left = tokens := by
  refine (accepts_startsWith (by simp) (by simp)).bind ?_
  rintro found _ ⟨isFound, rfl⟩
  rw [Bool.eq_false_iff.mpr fun starts => ends (isFound.mp starts)]
  exact accepts_pure ⟨rfl, rfl⟩

theorem accepts_qualifiedName {name : DottedName} (spells : tokens ∈ ofName name)
    (ends : EndsName rest) : (qualifiedName : Rule σ DottedName).Accepts (tokens ++ rest)
      fun read left => read = name ∧ left = rest := by
  obtain ⟨segments, nonempty⟩ := name
  cases segments with
  | nil => exact absurd rfl nonempty
  | cons first segments =>
      obtain ⟨head, spellsHead, others, spellsOthers, rfl⟩ := Language.mem_mul.mp spells
      rw [List.append_assoc]
      refine (accepts_simpleName spellsHead).bind ?_
      rintro _ _ ⟨rfl, rfl⟩
      rw [List.map_map] at spellsOthers
      have run : (collect segmentStep consumesWhen_segmentStep : Rule σ _).Accepts (others ++ rest)
          fun read left => read.map id = segments.map id ∧ left = rest := by
        refine accepts_collect Eq (fun _ => True) ?_ (fun _ _ _ _ => trivial)
          ?_ trivial spellsOthers rfl
        · rintro text tokens rest _ spells rfl _
          exact (accepts_segmentStep_some spells).mono fun _ _ ⟨read, left⟩ => ⟨text, read, rfl, left⟩
        · rintro _ rfl
          exact accepts_segmentStep_none ends
      refine run.bind ?_
      rintro read _ ⟨same, rfl⟩
      rw [List.map_id, List.map_id] at same
      subst same
      exact accepts_pure ⟨rfl, rfl⟩

theorem accepts_typeRef {type : TypeRef} (spells : tokens ∈ ofTypeRef type) (ends : EndsName rest) :
    (typeRef : Rule σ TypeRef).Accepts (tokens ++ rest) fun read left =>
      read.outline = type.outline ∧ left = rest := by
  refine (accepts_node (head?_of_mem_placed spells rest)).bind ?_
  rintro info _ ⟨place, rfl⟩
  refine (accepts_qualifiedName spells.1 ends).bind ?_
  rintro name _ ⟨rfl, rfl⟩
  exact accepts_pure ⟨congrArg (TypeRef.mk · _) (NodeInfo.outline_eq place), rfl⟩

theorem meets_typeRef_loose (state : State σ) :
    (typeRef : Rule σ TypeRef).Meets state fun type _ => Loose type :=
  meets_typeRef.mono fun type _ _ answer => answer.loose (.typeRef type) (by simp)

theorem accepts_annot {annot : Annot} (spells : tokens ∈ ofAnnot annot) (ends : EndsName rest) :
    (Grammar.annot : Rule σ Annot).Accepts (tokens ++ rest) fun read left =>
      read.outline = annot.outline ∧ left = rest := by
  refine (accepts_node (head?_of_mem_placed spells rest)).bind ?_
  rintro info _ ⟨place, rfl⟩
  obtain ⟨sign, isSign, type, spellsType, rfl⟩ := Language.mem_mul.mp spells.1
  rw [List.append_assoc]
  refine (accepts_word (by simp) isSign).bind ?_
  rintro _ _ rfl
  refine ((accepts_typeRef spellsType ends).and meets_typeRef_loose).bind ?_
  rintro read _ ⟨⟨same, rfl⟩, loose⟩
  refine accepts_assemble (Annot.make_eq loose) ⟨?_, rfl⟩
  change Annot.mk info.outline read.outline = annot.outline
  rw [NodeInfo.outline_eq place, same]
  rfl

theorem accepts_annotations {annotations : List Annot} (spells : tokens ∈ ofAnnots annotations)
    (ends : EndsName rest) (other : nextKind rest ≠ .mark .atSign) :
    (Grammar.annotations : Rule σ (List Annot)).Accepts (tokens ++ rest) fun read left =>
      read.map Annot.outline = annotations.map Annot.outline ∧ left = rest := by
  refine accepts_collect Eq EndsName ?_ ?_ ?_ ends spells rfl
  · rintro annot tokens rest _ spells rfl ends
    refine (accepts_whenNext_some (nextKind_of_mem_ofAnnot spells rest)
      (accepts_annot spells ends)).mono ?_
    rintro _ _ ⟨value, rfl, same⟩
    exact ⟨value, rfl, same⟩
  · intro annot tokens rest spells
    exact endsName_of_nextKind (by simp [nextKind_of_mem_ofAnnot spells])
  · rintro _ rfl
    exact accepts_whenNext_none other

theorem accepts_modifierStep_some {word : Modifier} (spells : tokens ∈ Spelling.word (.modifier word)) :
    (modifierStep : Rule σ (Option (Modifier × Position))).Accepts (tokens ++ rest) fun read left =>
      ∃ item, read = some item ∧ item.1 = word ∧ left = rest := by
  obtain ⟨token, found, rfl⟩ := spells
  refine Accepts.mono (accepts_takeWhen_some (fun token last => by simp [last])
    (show _ = some (word, token.position) by rw [found])) ?_
  rintro _ _ ⟨rfl, rfl⟩
  exact ⟨_, rfl, rfl, rfl⟩

theorem accepts_modifierStep_none (ends : ∀ word, nextKind tokens ≠ .modifier word) :
    (modifierStep : Rule σ (Option (Modifier × Position))).Accepts tokens fun read left =>
      read = none ∧ left = tokens := by
  refine accepts_takeWhen_none (fun token last => by simp [last]) fun token first => ?_
  obtain ⟨others, rfl⟩ := List.head?_eq_some_iff.mp first
  split
  · rename_i word found
    exact absurd found (ends word)
  · rfl

theorem accepts_warnRepeated (seen : Modifiers) (run : List (Modifier × Position)) :
    (warnRepeated seen run : Rule σ Unit).Accepts tokens fun _ left => left = tokens := by
  rintro state rfl
  exact (yields_warnRepeated seen run).mono fun _ after _ still => ⟨still.ahead, still.errors⟩

theorem accepts_modifiers {modifiers : Option Modifiers} (spells : tokens ∈ ofModifiers modifiers)
    (ends : ∀ word, nextKind rest ≠ .modifier word) :
    (Grammar.modifiers : Rule σ (Option Modifiers)).Accepts (tokens ++ rest) fun read left =>
      read = modifiers ∧ left = rest := by
  obtain ⟨words, kinds, rfl⟩ := spells
  have spellsItems : tokens ∈
      ((words.map (·, Position.start)).map fun item => word (.modifier item.1)).prod := by
    rw [List.map_map]
    have spellsWords := mem_prod_word_iff.mpr kinds
    rwa [List.map_map] at spellsWords
  have run : (collect modifierStep consumesWhen_modifierStep : Rule σ _).Accepts (tokens ++ rest)
      fun read left => read.map Prod.fst = (words.map (·, Position.start)).map Prod.fst ∧
        left = rest := by
    refine accepts_collect Eq (fun _ => True) ?_ (fun _ _ _ _ => trivial) ?_ trivial spellsItems rfl
    · rintro item tokens rest _ spells rfl _
      exact accepts_modifierStep_some spells
    · rintro _ rfl
      exact accepts_modifierStep_none ends
  refine run.bind ?_
  rintro read _ ⟨same, rfl⟩
  rw [List.map_map] at same
  have same : read.map Prod.fst = words := by simpa [Function.comp_def] using same
  subst same
  refine (accepts_warnRepeated _ read).bind ?_
  rintro _ _ rfl
  refine accepts_pure ⟨?_, rfl⟩
  cases read <;> rfl

theorem literalValue_of_denotes {token : Token} {value : LiteralValue} (denotes : Denotes token value) :
    token.kind ∈ literalKinds ∧ literalValue? token = some value := by
  cases value with
  | bool truth =>
      cases truth <;> simp_all [Denotes, literalKinds, literalValue?]
  | string text => simp_all [Denotes, literalKinds, literalValue?]
  | integer number => simp_all [Denotes, literalKinds, literalValue?]

theorem accepts_literal {literal : Literal} (spells : tokens ∈ ofLiteral literal) :
    (Grammar.literal : Rule σ Literal).Accepts (tokens ++ rest) fun read left =>
      read.outline = literal.outline ∧ left = rest := by
  have starts := head?_of_mem_placed spells rest
  obtain ⟨token, denotes, rfl⟩ := spells.1
  obtain ⟨wanted, read⟩ := literalValue_of_denotes denotes
  have demanded : (demand literalKinds : Rule σ Token).Accepts ([token] ++ rest) fun found left =>
      found = token ∧ left = [token] ++ rest := by
    refine accepts_current.bind ?_
    rintro _ _ ⟨rfl, rfl⟩
    rw [if_pos wanted]
    exact accepts_pure ⟨rfl, rfl⟩
  refine demanded.bind ?_
  rintro _ _ ⟨rfl, rfl⟩
  refine (accepts_node starts).bind ?_
  rintro info _ ⟨place, rfl⟩
  rw [read]
  refine (accepts_discard 1).bind ?_
  rintro _ _ rfl
  exact accepts_pure ⟨congrArg (Literal.mk · _) (NodeInfo.outline_eq place), rfl⟩

end Grammar

end Beagle
