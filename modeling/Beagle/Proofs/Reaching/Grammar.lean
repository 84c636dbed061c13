import Beagle.Proofs.Acceptance.Unit
import Beagle.Proofs.FailFast.Grammar
import Beagle.Proofs.InitialValues
import Beagle.Proofs.Reaching.Rule

/-!
How a parse comes to an initial value.  In a unit that is in order up to there, every rule around the value
comes to run the rule for literals on it, and what that answers is found in the unit.
-/

namespace Beagle

open Spelling

namespace Spelling

def valuesSoFar : Language Token :=
  {tokens | tokens = [] ∨ ∃ values : List Literal,
    tokens ∈ separated .comma (values.map ofLiteral) * mark .comma}

def ofFieldSoFar (kind : FieldKind) (names : List (String × Position)) (type : Option TypeRef) :
    Language Token :=
  keyword (Grammar.fieldWord kind) * (separated .comma (names.map declared) *
    (ofOptionalType type * (mark .assign * valuesSoFar)))

def fieldSoFar : Language Token :=
  {tokens | ∃ annotations modifiers kind names type,
    tokens ∈ ofAnnots annotations * ofModifiers modifiers * ofFieldSoFar kind names type}

def bodySoFar : Language Token :=
  mark .leftBrace * (membersSoFar * fieldSoFar)

def typeSoFar : Language Token :=
  {tokens | ∃ annotations modifiers name bases,
    tokens ∈ ofAnnots annotations * ofModifiers modifiers * (keyword .classWord * (ofName name *
      (ofBases bases * (terminators * bodySoFar))))}

def upToInitial : Language Token :=
  {tokens | ∃ package imports types, tokens ∈ terminators * (maybe ofPackage package *
    (terminators * (ofImports imports * (ofTypes types * (terminators * typeSoFar)))))}

variable {tokens : List Token}

theorem nextKind_of_mem_ofFieldSoFar {kind : FieldKind} {names : List (String × Position)}
    {type : Option TypeRef} (spells : tokens ∈ ofFieldSoFar kind names type) (rest : List Token) :
    nextKind (tokens ++ rest) = .keyword (Grammar.fieldWord kind) :=
  nextKind_of_mem_word_mul spells rest

theorem opens_of_mem_fieldSoFar (spells : tokens ∈ fieldSoFar) (rest : List Token) :
    ∃ kind, Opens (Grammar.fieldWord kind) (nextKind (tokens ++ rest)) := by
  obtain ⟨annotations, modifiers, kind, names, type, spells⟩ := spells
  obtain ⟨front, spellsFront, back, spellsBack, rfl⟩ := Language.mem_mul.mp spells
  rw [List.append_assoc]
  exact ⟨kind, opens_of_mem spellsFront (nextKind_of_mem_ofFieldSoFar spellsBack rest)⟩

theorem opens_of_mem_typeSoFar (spells : tokens ∈ typeSoFar) (rest : List Token) :
    Opens .classWord (nextKind (tokens ++ rest)) := by
  obtain ⟨annotations, modifiers, name, bases, spells⟩ := spells
  obtain ⟨front, spellsFront, back, spellsBack, rfl⟩ := Language.mem_mul.mp spells
  rw [List.append_assoc]
  exact opens_of_mem spellsFront (nextKind_of_mem_word_mul spellsBack rest)

end Spelling

namespace Grammar

open Rule

variable {σ : Type} [TokenSource σ] {tokens rest : List Token}

theorem reaches_values (spells : tokens ∈ valuesSoFar) :
    (commaSeparated literal : Rule σ (List Literal)).Reaches (tokens ++ rest) literal rest
      fun value values => value ∈ values := by
  rcases spells with rfl | ⟨values, spells⟩
  · refine reaches_self.bind ?_
    rintro value _ rfl
    exact gives_bind fun others => gives_pure List.mem_cons_self
  · obtain ⟨list, spellsList, comma, isComma, rfl⟩ := Language.mem_mul.mp spells
    cases values with
    | nil => exact absurd spellsList (Language.notMem_zero _)
    | cons first values =>
        obtain ⟨head, spellsHead, others, spellsOthers, rfl⟩ := Language.mem_mul.mp spellsList
        rw [List.map_map] at spellsOthers
        simp only [List.append_assoc]
        refine (accepts_literal spellsHead).reaches ?_
        rintro value _ ⟨_, rfl⟩
        have later : (collect (after (.mark .comma) literal) (consumesWhen_after (by simp) literal) :
            Rule σ _).Reaches (others ++ (comma ++ rest)) literal rest (InSome Eq) := by
          refine reaches_collect Eq (fun _ => True) ?_ (fun _ _ _ _ => trivial) ?_ trivial spellsOthers rfl
          · rintro other tokens rest _ spells rfl _
            obtain ⟨sign, isSign, body, spellsBody, rfl⟩ := Language.mem_mul.mp spells
            rw [List.append_assoc]
            refine (accepts_after_some (by simp) isSign (accepts_literal spellsBody)).mono ?_
            rintro _ _ ⟨value, rfl, _, rfl⟩
            exact ⟨value, rfl, rfl⟩
          · rintro _ rfl
            exact reaches_after (by simp) isComma reaches_self
        refine later.bind ?_
        rintro value others ⟨_, member, rfl⟩
        exact gives_pure (List.mem_cons_of_mem _ member)

theorem reaches_initials (spells : tokens ∈ mark .assign * valuesSoFar) (kind : FieldKind) :
    (initials kind : Rule σ (List Literal)).Reaches (tokens ++ rest) literal rest
      fun value values => value ∈ values := by
  obtain ⟨sign, isSign, values, spellsValues, rfl⟩ := Language.mem_mul.mp spells
  rw [List.append_assoc]
  refine (reaches_after (by simp) isSign (reaches_values spellsValues)).bind ?_
  rintro value _ ⟨values, rfl, member⟩
  exact gives_pure member

theorem gives_field {start : Preamble} {kind : FieldKind} {names : List (String × Position)}
    {type : Option TypeRef} {values : List Literal} {value : Literal} (member : value ∈ values) :
    (if !values.isEmpty && values.length ≠ names.length then refuse start.info.position .initializerCount
      else assemble (Field.build start.info kind start.annotations start.modifiers type
        (Declarator.pair names values)) : Rule σ Field).Gives fun field => value.Among field.initials := by
  split
  · exact gives_refuse _ _
  · rename_i counted
    have enough : values = [] ∨ values.length = names.length := by
      simpa [or_iff_not_imp_left] using counted
    refine gives_assemble fun field built => Field.among_initials_of_build built ?_
    rwa [Declarator.filterMap_initial_pair enough]

theorem reaches_field {start : Preamble} {kind : FieldKind} {names : List (String × Position)}
    {type : Option TypeRef} (spells : tokens ∈ ofFieldSoFar kind names type) :
    (field start kind : Rule σ Field).Reaches (tokens ++ rest) literal rest
      fun value field => value.Among field.initials := by
  obtain ⟨word, isWord, _, behindWord, rfl⟩ := Language.mem_mul.mp spells
  obtain ⟨list, spellsNames, _, behindNames, rfl⟩ := Language.mem_mul.mp behindWord
  obtain ⟨typed, spellsType, values, spellsValues, rfl⟩ := Language.mem_mul.mp behindNames
  simp only [List.append_assoc]
  have assigned : nextKind (values ++ rest) = .mark .assign := nextKind_of_mem_word_mul spellsValues rest
  have noComma : nextKind (typed ++ (values ++ rest)) ≠ .mark .comma := by
    rcases nextKind_of_mem_ofOptionalType spellsType (values ++ rest) with colon | rfl
    · simp [colon]
    · simp [assigned]
  refine (accepts_word (by simp) isWord).reaches ?_
  rintro _ _ rfl
  have namesRead : (commaSeparated declaredName : Rule σ _).Accepts (list ++ (typed ++ (values ++ rest)))
      fun read left => read.map id = names.map id ∧ left = typed ++ (values ++ rest) :=
    accepts_commaSeparated (fun _ => True) (fun _ _ _ spells _ => accepts_declaredName spells)
      (fun _ _ => trivial) spellsNames trivial noComma
  refine namesRead.reaches ?_
  rintro places _ ⟨_, rfl⟩
  refine (accepts_optionalType spellsType (endsName_of_nextKind (by simp [assigned]))
    (by simp [assigned])).reaches ?_
  rintro read _ ⟨_, rfl⟩
  exact (reaches_initials spellsValues kind).bind fun value values member => gives_field member

theorem reaches_memberAfter {start : Preamble} {kind : FieldKind} {names : List (String × Position)}
    {type : Option TypeRef} (spells : tokens ∈ ofFieldSoFar kind names type) :
    (memberAfter start : Rule σ (Option Member)).Reaches (tokens ++ rest) literal rest
      fun value answer => ∃ member, answer = some member ∧ value.Among member.initials := by
  have next := nextKind_of_mem_ofFieldSoFar spells rest
  have inside : (field start kind : Rule σ Field).Reaches (tokens ++ rest) literal rest _ :=
    reaches_field spells
  cases ahead : tokens ++ rest with
  | nil => simp [ahead] at next
  | cons token others =>
      rw [ahead, nextKind_cons] at next
      refine accepts_current.reaches ?_
      rintro _ _ ⟨rfl, rfl⟩
      rw [next, ← ahead]
      cases kind with
      | mutable => exact inside.bind fun value it among => gives_pure ⟨.field it, rfl, among⟩
      | constant => exact inside.bind fun value it among => gives_pure ⟨.field it, rfl, among⟩

theorem accepts_preamble_anywhere {annotations : List Annot} {modifiers : Option Modifiers}
    {reserved : Keyword} (spells : tokens ∈ ofAnnots annotations * ofModifiers modifiers)
    (next : nextKind rest = .keyword reserved) :
    (preamble : Rule σ Preamble).Accepts (tokens ++ rest) fun _ left => left = rest := by
  -- A preamble is spelled for a node, so one is made up that starts at the first of these tokens.
  cases first : (tokens ++ rest).head? with
  | none =>
      obtain ⟨rfl, rfl⟩ : tokens = [] ∧ rest = [] := by simpa using first
      simp at next
  | some token =>
      have starts : (tokens ++ rest).head?.map Token.position =
          some (NodeInfo.fresh 0 token.position).position := by
        rw [first]
        rfl
      exact (accepts_preamble ⟨.fresh 0 token.position, annotations, modifiers⟩ spells next starts).mono
        fun _ _ holds => holds.2

theorem accepts_node_anywhere : (node : Rule σ NodeInfo).Accepts tokens fun _ left => left = tokens := by
  rintro state rfl
  exact yields_node.mono fun _ _ _ ⟨_, same, _, errors, _⟩ => ⟨same, errors⟩

theorem reaches_memberStep {skipped ahead : List Token} (isSkipped : skipped ∈ Spelling.terminators)
    (spells : tokens ∈ fieldSoFar) (agree : AgreeBehindLines ahead (skipped ++ (tokens ++ rest))) :
    (memberStep : Rule σ (Option Member)).Reaches ahead literal rest fun value answer =>
      ∃ member, answer = some member ∧ value.Among member.initials := by
  obtain ⟨_, opens⟩ := opens_of_mem_fieldSoFar spells rest
  rw [AgreeBehindLines, dropWhile_terminators_append isSkipped, opens.dropWhile] at agree
  refine accepts_terminators.reaches ?_
  rintro _ _ rfl
  rw [agree]
  refine (accepts_check _).reaches ?_
  rintro _ _ ⟨rfl, rfl⟩
  rw [decide_eq_false (opens.ne_mark (by simp))]
  obtain ⟨annotations, modifiers, kind, names, type, spells⟩ := spells
  obtain ⟨front, spellsFront, back, spellsBack, rfl⟩ := Language.mem_mul.mp spells
  rw [List.append_assoc]
  refine (accepts_preamble_anywhere spellsFront (nextKind_of_mem_ofFieldSoFar spellsBack rest)).reaches ?_
  rintro start _ rfl
  exact reaches_memberAfter spellsBack

theorem reaches_members (spells : tokens ∈ membersSoFar * fieldSoFar) :
    (collect memberStep consumesWhen_memberStep : Rule σ (List Member)).Reaches (tokens ++ rest) literal
      rest (InSome fun value member => value.Among member.initials) := by
  obtain ⟨_, ⟨members, spellsMembers⟩, field, spellsField, rfl⟩ := Language.mem_mul.mp spells
  obtain ⟨list, spellsList, skipped, isSkipped, rfl⟩ := Language.mem_mul.mp spellsMembers
  simp only [List.append_assoc]
  refine reaches_collect AgreeBehindLines EndsDeclaration ?_ ?_ ?_ ?_ spellsList rfl
  · intro member tokens rest ahead spells agree ends
    refine (accepts_memberStep_some spells agree ends).mono ?_
    rintro _ _ ⟨value, rfl, _, agreeLeft⟩
    exact ⟨value, rfl, agreeLeft⟩
  · intro member tokens rest spells
    obtain ⟨skipped, isSkipped, text, spellsMember, rfl⟩ := Language.mem_mul.mp spells
    rw [List.append_assoc]
    exact endsDeclaration_terminators_append isSkipped
      (opens_of_mem_ofMember spellsMember rest).endsDeclaration
  · intro ahead agree
    exact reaches_memberStep isSkipped spellsField agree
  · obtain ⟨_, opens⟩ := opens_of_mem_fieldSoFar spellsField rest
    exact endsDeclaration_terminators_append isSkipped opens.endsDeclaration

theorem reaches_body (spells : tokens ∈ bodySoFar) :
    (body : Rule σ Body).Reaches (tokens ++ rest) literal rest
      fun value body => value.Among body.initials := by
  obtain ⟨brace, isBrace, inside, spellsInside, rfl⟩ := Language.mem_mul.mp spells
  rw [List.append_assoc]
  refine accepts_node_anywhere.reaches ?_
  rintro info _ rfl
  refine (accepts_word (by simp) isBrace).reaches ?_
  rintro _ _ rfl
  refine (reaches_members spellsInside).bind ?_
  rintro value members ⟨member, listed, among⟩
  refine gives_bind fun _ => gives_assemble fun body built => ?_
  exact among_initials_of_buildBody built listed among

theorem reaches_typeDecl (spells : tokens ∈ typeSoFar) :
    (typeDecl : Rule σ TypeDecl).Reaches (tokens ++ rest) literal rest
      fun value decl => value.Among decl.initials := by
  obtain ⟨annotations, modifiers, name, bases, spells⟩ := spells
  obtain ⟨front, spellsFront, _, back, rfl⟩ := Language.mem_mul.mp spells
  obtain ⟨word, isWord, _, behindWord, rfl⟩ := Language.mem_mul.mp back
  obtain ⟨named, spellsName, _, behindName, rfl⟩ := Language.mem_mul.mp behindWord
  obtain ⟨list, spellsBases, _, last, rfl⟩ := Language.mem_mul.mp behindName
  obtain ⟨skipped, isSkipped, inside, spellsBody, rfl⟩ := Language.mem_mul.mp last
  simp only [List.append_assoc]
  have opened : nextKind (inside ++ rest) = .mark .leftBrace := nextKind_of_mem_word_mul spellsBody rest
  have behindBases (sign : Mark) (joins : sign ≠ .semicolon) (other : sign ≠ .leftBrace) :
      nextKind (skipped ++ (inside ++ rest)) ≠ .mark sign := by
    refine nextKind_terminators_append isSkipped ?_ joins
    simpa [opened] using other.symm
  have behindNames : EndsName (list ++ (skipped ++ (inside ++ rest))) := by
    refine endsName_of_nextKind ?_
    rcases nextKind_of_mem_ofBases spellsBases (skipped ++ (inside ++ rest)) with colon | rfl
    · simp [colon]
    · exact behindBases .dot (by simp) (by simp)
  refine (accepts_preamble_anywhere spellsFront (nextKind_of_mem_word isWord _)).reaches ?_
  rintro start _ rfl
  refine (accepts_word (by simp) isWord).reaches ?_
  rintro _ _ rfl
  refine (accepts_qualifiedName spellsName behindNames).reaches ?_
  rintro _ _ ⟨rfl, rfl⟩
  refine (accepts_bases spellsBases (endsName_of_nextKind (behindBases .dot (by simp) (by simp)))
    (behindBases .colon (by simp) (by simp)) (behindBases .comma (by simp) (by simp))).reaches ?_
  rintro read _ ⟨_, rfl⟩
  refine accepts_terminators.reaches ?_
  rintro _ _ rfl
  rw [dropWhile_terminators_append isSkipped, dropWhile_of_nextKind (by simp [opened, isTerminator])]
  refine (reaches_whenNext opened (reaches_body spellsBody)).bind ?_
  rintro value _ ⟨body, rfl, among⟩
  refine gives_assemble fun decl built => ?_
  rwa [TypeDecl.initials_of_build built]

theorem reaches_typeStep {skipped ahead : List Token} (isSkipped : skipped ∈ Spelling.terminators)
    (spells : tokens ∈ typeSoFar) (agree : AgreeBehindLines ahead (skipped ++ (tokens ++ rest))) :
    (typeStep : Rule σ (Option TypeDecl)).Reaches ahead literal rest fun value answer =>
      ∃ decl, answer = some decl ∧ value.Among decl.initials := by
  have opens := opens_of_mem_typeSoFar spells rest
  rw [AgreeBehindLines, dropWhile_terminators_append isSkipped, opens.dropWhile] at agree
  refine accepts_terminators.reaches ?_
  rintro _ _ rfl
  rw [agree]
  refine (accepts_check _).reaches ?_
  rintro _ _ ⟨rfl, rfl⟩
  rw [decide_eq_false opens.ne_fileEnd]
  exact (reaches_typeDecl spells).bind fun value decl among => gives_pure ⟨decl, rfl, among⟩

theorem reaches_laterTypes {types : List TypeDecl} {decls skipped ahead : List Token}
    (spellsTypes : decls ∈ ofTypes types) (isSkipped : skipped ∈ Spelling.terminators)
    (spells : tokens ∈ typeSoFar)
    (agree : AgreeBehindLines ahead (decls ++ (skipped ++ (tokens ++ rest)))) :
    (collect typeStep consumesWhen_typeStep : Rule σ (List TypeDecl)).Reaches ahead literal rest
      (InSome fun value decl => value.Among decl.initials) := by
  refine reaches_collect AgreeBehindLines EndsType ?_ ?_ ?_ ?_ spellsTypes agree
  · intro decl tokens rest ahead spells agree ends
    refine (accepts_typeStep_some spells agree ends).mono ?_
    rintro _ _ ⟨value, rfl, _, agreeLeft⟩
    exact ⟨value, rfl, agreeLeft⟩
  · intro decl tokens rest spells
    exact endsType_of_mem spells rest
  · intro ahead agree
    exact reaches_typeStep isSkipped spells agree
  · exact endsType_of_opens isSkipped (opens_of_mem_typeSoFar spells rest)

theorem opens_of_types {types : List TypeDecl} {decls skipped : List Token}
    (spellsTypes : decls ∈ ofTypes types) (isSkipped : skipped ∈ Spelling.terminators)
    (spells : tokens ∈ typeSoFar) (rest : List Token) :
    ∃ before behind, before ∈ Spelling.terminators ∧ Opens .classWord (nextKind behind) ∧
      decls ++ (skipped ++ (tokens ++ rest)) = before ++ behind := by
  cases types with
  | nil =>
      obtain rfl : decls = [] := spellsTypes
      exact ⟨skipped, _, isSkipped, opens_of_mem_typeSoFar spells rest, rfl⟩
  | cons decl types =>
      rw [ofTypes_cons, mul_assoc] at spellsTypes
      obtain ⟨before, isBefore, _, spellsDecls, rfl⟩ := Language.mem_mul.mp spellsTypes
      obtain ⟨one, spellsOne, more, _, rfl⟩ := Language.mem_mul.mp spellsDecls
      simp only [List.append_assoc]
      exact ⟨before, _, isBefore, opens_of_mem_ofTypeDecl spellsOne _, rfl⟩

theorem reaches_types {types : List TypeDecl} {decls skipped : List Token}
    (spellsTypes : decls ∈ ofTypes types) (isSkipped : skipped ∈ Spelling.terminators)
    (spells : tokens ∈ typeSoFar) {info : NodeInfo} {file : String} {package : Option PackageClause}
    {imports : List ImportClause} :
    (do
      let first ← typeDecl
      let others ← collect typeStep consumesWhen_typeStep
      assemble (SourceUnit.build info file package imports (first :: others)) : Rule σ SourceUnit).Reaches
      ((decls ++ (skipped ++ (tokens ++ rest))).dropWhile endsLine) literal rest
      fun value unit => value.Among unit.initials := by
  cases types with
  | nil =>
      obtain rfl : decls = [] := spellsTypes
      have opens := opens_of_mem_typeSoFar spells rest
      rw [List.nil_append, dropWhile_terminators_append isSkipped, opens.dropWhile]
      refine (reaches_typeDecl spells).bind ?_
      intro value first among
      refine gives_bind fun others => gives_assemble fun unit built => ?_
      exact SourceUnit.among_initials_of_build built List.mem_cons_self among
  | cons decl types =>
      rw [ofTypes_cons, mul_assoc] at spellsTypes
      obtain ⟨before, isBefore, _, spellsDecls, rfl⟩ := Language.mem_mul.mp spellsTypes
      obtain ⟨one, spellsOne, more, spellsMore, rfl⟩ := Language.mem_mul.mp spellsDecls
      simp only [List.append_assoc]
      have opens := opens_of_mem_ofTypeDecl spellsOne (more ++ (skipped ++ (tokens ++ rest)))
      rw [dropWhile_terminators_append isBefore, opens.dropWhile]
      have ends : EndsType (more ++ (skipped ++ (tokens ++ rest))) := by
        obtain ⟨_, _, isBefore, opens, same⟩ := opens_of_types spellsMore isSkipped spells rest
        rw [same]
        exact endsType_of_opens isBefore opens
      refine (accepts_typeDecl spellsOne ends.declaration ends.body).reaches ?_
      rintro first _ ⟨_, agree⟩
      refine (reaches_laterTypes spellsMore isSkipped spells agree).bind ?_
      rintro value others ⟨found, listed, among⟩
      refine gives_assemble fun unit built => ?_
      exact SourceUnit.among_initials_of_build built (List.mem_cons_of_mem _ listed) among

theorem reaches_unit (file : String) (spells : tokens ∈ upToInitial) :
    (Grammar.unit file : Rule σ SourceUnit).Reaches (tokens ++ rest) literal rest
      fun value unit => value.Among unit.initials := by
  obtain ⟨package, imports, types, spells⟩ := spells
  obtain ⟨first, isFirst, _, behindFirst, rfl⟩ := Language.mem_mul.mp spells
  obtain ⟨clause, spellsPackage, _, behindPackage, rfl⟩ := Language.mem_mul.mp behindFirst
  obtain ⟨second, isSecond, _, behindSecond, rfl⟩ := Language.mem_mul.mp behindPackage
  obtain ⟨clauses, spellsImports, _, behindImports, rfl⟩ := Language.mem_mul.mp behindSecond
  obtain ⟨decls, spellsTypes, _, behindTypes, rfl⟩ := Language.mem_mul.mp behindImports
  obtain ⟨third, isThird, tokens, spellsType, rfl⟩ := Language.mem_mul.mp behindTypes
  simp only [List.append_assoc]
  obtain ⟨before, behind, isBefore, opens, same⟩ := opens_of_types spellsTypes isThird spellsType rest
  have reached : (decls ++ (third ++ (tokens ++ rest))).dropWhile endsLine = behind := by
    rw [same, dropWhile_terminators_append isBefore, opens.dropWhile]
  have noDot : nextKind (decls ++ (third ++ (tokens ++ rest))) ≠ .mark .dot := by
    rw [same]
    exact nextKind_terminators_append isBefore (opens.ne_mark (by simp)) (by simp)
  have noKeyword (reserved : Keyword) (other : reserved ≠ .classWord) :
      nextKind ((decls ++ (third ++ (tokens ++ rest))).dropWhile endsLine) ≠ .keyword reserved := by
    rw [reached]
    exact opens.ne_keyword other
  obtain ⟨noDotImports, noPackage⟩ :=
    follows_package_of_mem_ofImports spellsImports noDot (noKeyword .packageWord (by simp))
  refine accepts_node_anywhere.reaches ?_
  rintro info _ rfl
  refine accepts_terminators.reaches ?_
  rintro _ _ rfl
  refine (accepts_package spellsPackage isSecond (dropWhile_terminators_append isFirst _) noDotImports
    noPackage).reaches ?_
  rintro read _ ⟨_, agree⟩
  refine accepts_terminators.reaches ?_
  rintro _ _ rfl
  rw [agree]
  refine (accepts_imports spellsImports noDot (noKeyword .importWord (by simp))).reaches ?_
  rintro reads _ ⟨_, rfl⟩
  refine accepts_terminators.reaches ?_
  rintro _ _ rfl
  rw [List.dropWhile_idempotent]
  exact reaches_types spellsTypes isThird spellsType

end Grammar

namespace State

variable {σ : Type} [TokenSource σ] {state : State σ} {front rest : List Token}

def StopsAt (state : State σ) (tokens : List Token) (position : Position) (complaint : Complaint) : Prop :=
  state.parse.1 = .error .reported ∧ state.parse.2.ahead = tokens ∧ ∃ warnings : List Diagnostic,
    (∀ warning ∈ warnings, warning.severity = .warning) ∧ state.parse.2.session.diagnostics =
      state.session.diagnostics ++ warnings ++
        [⟨.error, state.file, some position, complaint⟩]

theorem stopsAt_of_refuses (ahead : state.ahead = front ++ rest) (initial : front ∈ upToInitial)
    {position : Position} {complaint : Complaint}
    (refuses : (Grammar.literal : Rule σ Literal).Refuses rest position complaint) :
    state.StopsAt rest position complaint := by
  obtain ⟨after, warnings, stopped, unmoved, harmless, told⟩ :=
    (Grammar.reaches_unit state.file initial).stops refuses
      (ahead : { state with session := state.session.begin state.file }.ahead = front ++ rest)
  refine ⟨?_, ?_, warnings, harmless, ?_⟩
  · rw [parse, stopped]
  · rw [parse, stopped]
    exact unmoved
  · rw [parse, stopped]
    exact told

theorem among_of_parse (ahead : state.ahead = front ++ rest) (initial : front ∈ upToInitial)
    {answers : Literal → Prop} (yields : ∀ middle : State σ, middle.ahead = rest →
      Grammar.literal.Yields middle fun literal _ => answers literal)
    {unit : SourceUnit} (parsed : state.parse.1 = .ok unit) :
    ∃ literal, answers literal ∧ literal.Among unit.initials :=
  (Grammar.reaches_unit state.file initial).keeps yields
    (ahead : { state with session := state.session.begin state.file }.ahead = front ++ rest)
    (Prod.ext parsed rfl)

end State

end Beagle
