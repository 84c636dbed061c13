import Beagle.Proofs.Acceptance.Member
import Beagle.Proofs.Reading.Unit
import Mathlib.Data.List.DropRight

/-!
Acceptance of types, imports and units.
-/

namespace Beagle

open Spelling

theorem DottedName.slice_within {name : DottedName} (one : name.size = 1) (package : DottedName) :
    (name.within package).slice? 0 ((name.within package).size - 1) = some package ∧
      DottedName.single (name.within package).simple = name := by
  obtain ⟨segments, nonempty⟩ := name
  obtain ⟨segment, rfl⟩ := List.length_eq_one_iff.mp one
  obtain ⟨others, some⟩ := package
  have positive := List.length_pos_iff.mpr some
  constructor
  · simp [slice?, within, size, ofSegments?, some, positive]
  · simp [within, simple, single]

namespace Spelling

variable {tokens rest : List Token}

theorem nextKind_of_mem_ofBody {body : Body} (spells : tokens ∈ ofBody body) (rest : List Token) :
    nextKind (tokens ++ rest) = .mark .leftBrace := by
  obtain ⟨members, _, inside, _⟩ := spells
  rw [mul_assoc, mul_assoc] at inside
  exact nextKind_of_mem_word_mul inside rest

theorem nextKind_of_mem_ofPackage {clause : PackageClause} (spells : tokens ∈ ofPackage clause)
    (rest : List Token) : nextKind (tokens ++ rest) = .keyword .packageWord :=
  nextKind_of_mem_word_mul spells.1 rest

theorem nextKind_of_mem_ofImport {clause : ImportClause} (spells : tokens ∈ ofImport clause)
    (rest : List Token) : nextKind (tokens ++ rest) = .keyword .importWord :=
  nextKind_of_mem_word_mul spells.1 rest

theorem nextKind_of_mem_ofImports {imports : List ImportClause} (spells : tokens ∈ ofImports imports)
    (rest : List Token) : nextKind (tokens ++ rest) = .keyword .importWord ∨ tokens = [] := by
  cases imports with
  | nil => exact .inr spells
  | cons clause imports =>
      obtain ⟨_, first, others, _, rfl⟩ := Language.mem_mul.mp spells
      obtain ⟨text, spellsImport, skipped, _, rfl⟩ := Language.mem_mul.mp first
      simp only [List.append_assoc]
      exact .inl (nextKind_of_mem_ofImport spellsImport _)

theorem nextKind_of_mem_ofBases {bases : List TypeRef} (spells : tokens ∈ ofBases bases)
    (rest : List Token) : nextKind (tokens ++ rest) = .mark .colon ∨ tokens = [] := by
  unfold ofBases at spells
  split at spells
  · exact .inr spells
  · exact .inl (nextKind_of_mem_word_mul spells rest)

theorem nextKind_terminators_append {sign : Mark} (spells : tokens ∈ terminators)
    (other : nextKind rest ≠ .mark sign) (joins : sign ≠ .semicolon) :
    nextKind (tokens ++ rest) ≠ .mark sign := by
  cases tokens with
  | nil => exact other
  | cons token tokens =>
      rcases spells token (by simp) with kind | kind
      · simpa [kind] using joins.symm
      · simp [kind]

end Spelling

namespace Grammar

open Rule

variable {σ : Type} [TokenSource σ] {tokens rest : List Token}

theorem accepts_bases {bases : List TypeRef} (spells : tokens ∈ ofBases bases)
    (ends : EndsName rest) (notColon : nextKind rest ≠ .mark .colon)
    (notComma : nextKind rest ≠ .mark .comma) :
    (Grammar.bases : Rule σ (List TypeRef)).Accepts (tokens ++ rest) fun read left =>
      read.map TypeRef.outline = bases.map TypeRef.outline ∧ left = rest := by
  unfold ofBases at spells
  split at spells
  · rename_i none
    obtain rfl : tokens = [] := spells
    refine (accepts_after_none (by simp) notColon).bind ?_
    rintro _ _ ⟨rfl, rfl⟩
    exact accepts_pure ⟨by simp [none], rfl⟩
  · obtain ⟨colon, isColon, list, spellsList, rfl⟩ := Language.mem_mul.mp spells
    rw [List.append_assoc]
    have listRead : (commaSeparated typeRef : Rule σ _).Accepts (list ++ rest) fun read left =>
        read.map TypeRef.outline = bases.map TypeRef.outline ∧ left = rest :=
      accepts_commaSeparated EndsName (fun _ _ _ spells ends => accepts_typeRef spells ends)
        (fun tokens comma => endsName_of_nextKind (by simp [comma])) spellsList ends notComma
    refine (accepts_after_some (by simp) isColon listRead).bind ?_
    rintro _ _ ⟨read, rfl, same, rfl⟩
    exact accepts_pure ⟨same, rfl⟩

theorem meets_bases_loose (state : State σ) : (bases : Rule σ (List TypeRef)).Meets state
    fun bases _ => ∀ base ∈ bases, Loose base :=
  meets_bases.mono fun _ _ _ answer base member =>
    answer.loose (.typeRef base) (List.mem_map_of_mem member)

theorem meets_typeBody_loose (state : State σ) :
    (whenNext (.mark .leftBrace) body : Rule σ (Option Body)).Meets state
      fun body _ => ∀ part ∈ body, Loose part := by
  refine (meets_whenNext fun _ => meets_body).mono ?_
  rintro _ _ _ either part rfl
  exact Answer.loose either (.body part) (by simp)

theorem accepts_typeBody {body : Option Body} {ahead : List Token}
    (spells : tokens ∈ maybe ofBody body) (agree : ahead = (tokens ++ rest).dropWhile endsLine)
    (ends : nextKind (rest.dropWhile endsLine) ≠ .mark .leftBrace) :
    (whenNext (.mark .leftBrace) Grammar.body : Rule σ (Option Body)).Accepts ahead
      fun read left => read.map Body.outline = body.map Body.outline ∧ AgreeBehindLines left rest := by
  cases body with
  | none =>
      obtain rfl : tokens = [] := spells
      rw [agree]
      refine (accepts_whenNext_none ends).mono ?_
      rintro _ _ ⟨rfl, rfl⟩
      exact ⟨rfl, List.dropWhile_idempotent ..⟩
  | some body =>
      have brace := nextKind_of_mem_ofBody spells rest
      rw [dropWhile_of_nextKind (by simp [brace, isTerminator])] at agree
      rw [agree]
      refine (accepts_whenNext_some brace (accepts_body spells)).mono ?_
      rintro _ _ ⟨read, rfl, same, rfl⟩
      exact ⟨congrArg some same, rfl⟩

theorem opens_of_mem_ofTypeDecl {decl : TypeDecl} (spells : tokens ∈ ofTypeDecl decl)
    (rest : List Token) : Opens .classWord (nextKind (tokens ++ rest)) := by
  have inside := spells.1
  rw [mul_assoc, mul_assoc, mul_assoc, mul_assoc] at inside
  obtain ⟨front, spellsFront, back, spellsBack, rfl⟩ := Language.mem_mul.mp inside
  rw [List.append_assoc]
  exact opens_of_mem spellsFront (nextKind_of_mem_word_mul spellsBack rest)

theorem accepts_typeDecl {decl : TypeDecl} (spells : tokens ∈ ofTypeDecl decl)
    (ends : EndsDeclaration rest) (noBody : nextKind (rest.dropWhile endsLine) ≠ .mark .leftBrace) :
    (typeDecl : Rule σ TypeDecl).Accepts (tokens ++ rest) fun read left =>
      read.outline = decl.outline ∧ AgreeBehindLines left rest := by
  have starts := head?_of_mem_placed spells rest
  have text := spells.1
  rw [mul_assoc, mul_assoc, mul_assoc, mul_assoc] at text
  obtain ⟨front, spellsFront, _, back, rfl⟩ := Language.mem_mul.mp text
  obtain ⟨word, isWord, _, behindWord, rfl⟩ := Language.mem_mul.mp back
  obtain ⟨name, spellsName, _, behindName, rfl⟩ := Language.mem_mul.mp behindWord
  obtain ⟨list, spellsBases, _, last, rfl⟩ := Language.mem_mul.mp behindName
  obtain ⟨skipped, isSkipped, inside, spellsBody, rfl⟩ := Language.mem_mul.mp last
  simp only [List.append_assoc] at starts ⊢
  have behindBases (sign : Mark) (joins : sign ∈ joiningMarks) (other : sign ≠ .leftBrace) :
      nextKind (skipped ++ (inside ++ rest)) ≠ .mark sign := by
    refine nextKind_terminators_append isSkipped ?_ (by rintro rfl; simp [joiningMarks] at joins)
    cases body : decl.body with
    | none =>
        rw [body] at spellsBody
        obtain rfl : inside = [] := spellsBody
        exact ends sign joins
    | some part =>
        rw [body] at spellsBody
        simpa [nextKind_of_mem_ofBody spellsBody rest] using other.symm
  have behindNames : EndsName (list ++ (skipped ++ (inside ++ rest))) := by
    refine endsName_of_nextKind ?_
    rcases nextKind_of_mem_ofBases spellsBases (skipped ++ (inside ++ rest)) with colon | rfl
    · simp [colon]
    · exact behindBases .dot (by simp [joiningMarks]) (by simp)
  refine ((accepts_preamble ⟨decl.info, decl.annotations, decl.modifiers⟩ spellsFront
    (nextKind_of_mem_word isWord _) starts).and meets_preamble_loose).bind ?_
  rintro start _ ⟨⟨same, rfl⟩, loose⟩
  refine (accepts_word (by simp) isWord).bind ?_
  rintro _ _ rfl
  refine (accepts_qualifiedName spellsName behindNames).bind ?_
  rintro _ _ ⟨rfl, rfl⟩
  refine ((accepts_bases spellsBases
    (endsName_of_nextKind (behindBases .dot (by simp [joiningMarks]) (by simp)))
    (behindBases .colon (by simp [joiningMarks]) (by simp))
    (behindBases .comma (by simp [joiningMarks]) (by simp))).and meets_bases_loose).bind ?_
  rintro bases _ ⟨⟨sameBases, rfl⟩, looseBases⟩
  refine accepts_terminators.bind ?_
  rintro _ _ rfl
  refine ((accepts_typeBody spellsBody (dropWhile_terminators_append isSkipped _) noBody).and
    meets_typeBody_loose).bind ?_
  rintro body left ⟨⟨sameBody, agree⟩, looseBody⟩
  refine accepts_assemble (TypeDecl.build_eq loose looseBases looseBody) ⟨?_, agree⟩
  simp only [Preamble.outline, Preamble.mk.injEq] at same
  simp [TypeDecl.outline, Function.comp_def, same, sameBases, sameBody]

theorem accepts_packageClause {clause : PackageClause} (spells : tokens ∈ ofPackage clause)
    (ends : EndsName rest) : (packageClause : Rule σ PackageClause).Accepts (tokens ++ rest)
      fun read left => read.outline = clause.outline ∧ left = rest := by
  refine (accepts_node (head?_of_mem_placed spells rest)).bind ?_
  rintro info _ ⟨place, rfl⟩
  obtain ⟨word, isWord, name, spellsName, rfl⟩ := Language.mem_mul.mp spells.1
  rw [List.append_assoc]
  refine (accepts_word (by simp) isWord).bind ?_
  rintro _ _ rfl
  refine (accepts_qualifiedName spellsName ends).bind ?_
  rintro _ _ ⟨rfl, rfl⟩
  exact accepts_pure ⟨congrArg (PackageClause.mk · _) (NodeInfo.outline_eq place), rfl⟩

theorem accepts_importClause {clause : ImportClause} (spells : tokens ∈ ofImport clause)
    (ends : nextKind rest ≠ .mark .dot) : (importClause : Rule σ ImportClause).Accepts (tokens ++ rest)
      fun read left => read.outline = clause.outline ∧ left = rest := by
  refine (accepts_node (head?_of_mem_placed spells rest)).bind ?_
  rintro info _ ⟨place, rfl⟩
  obtain ⟨word, isWord, _, spellsTarget, rfl⟩ := Language.mem_mul.mp spells.1
  rw [List.append_assoc]
  refine (accepts_word (by simp) isWord).bind ?_
  rintro _ _ rfl
  obtain ⟨_, package, target⟩ := clause
  cases target with
  | everything =>
      obtain ⟨_, named, _, ⟨star, isStar, rfl⟩, rfl⟩ := Language.mem_mul.mp spellsTarget
      obtain ⟨name, spellsName, _, ⟨dot, isDot, rfl⟩, rfl⟩ := Language.mem_mul.mp named
      simp only [List.append_assoc, List.singleton_append]
      have endsName : EndsName (dot :: star :: rest) := by
        rintro ⟨one, two, others, same, _, isIdentifier⟩
        obtain ⟨rfl, rfl, rfl⟩ : dot = one ∧ star = two ∧ rest = others := by simpa using same
        simp [isStar] at isIdentifier
      refine (accepts_qualifiedName spellsName endsName).bind ?_
      rintro _ _ ⟨rfl, rfl⟩
      refine (accepts_startsWith (by simp) (by simp)).bind ?_
      rintro found _ ⟨isFound, rfl⟩
      rw [isFound.mpr ⟨dot, star, rest, rfl, isDot, isStar⟩]
      refine (accepts_discard 2).bind ?_
      rintro _ _ rfl
      refine accepts_pure ⟨?_, rfl⟩
      simp [ImportClause.outline, NodeInfo.outline_eq place]
  | type name =>
      obtain ⟨one, spellsName⟩ := spellsTarget
      refine (accepts_qualifiedName spellsName (endsName_of_nextKind ends)).bind ?_
      rintro _ _ ⟨rfl, rfl⟩
      refine (accepts_startsWith (by simp) (by simp)).bind ?_
      rintro found _ ⟨isFound, rfl⟩
      have absent : found = false := by
        refine Bool.eq_false_iff.mpr fun isTrue => ?_
        obtain ⟨dot, star, others, rfl, isDot, _⟩ := isFound.mp isTrue
        exact ends isDot
      obtain ⟨sliced, last⟩ := DottedName.slice_within one package
      rw [absent, sliced]
      refine accepts_pure ⟨?_, rfl⟩
      simp [ImportClause.outline, NodeInfo.outline_eq place, last]

theorem accepts_importStep_some {clause : ImportClause} {ahead : List Token}
    (spells : tokens ∈ ofImport clause * Spelling.terminators)
    (agree : ahead = (tokens ++ rest).dropWhile endsLine) (ends : nextKind rest ≠ .mark .dot) :
    (importStep : Rule σ (Option ImportClause)).Accepts ahead fun read left =>
      ∃ value, read = some value ∧ value.outline = clause.outline ∧ left = rest.dropWhile endsLine := by
  obtain ⟨text, spellsImport, skipped, isSkipped, rfl⟩ := Language.mem_mul.mp spells
  have next := nextKind_of_mem_ofImport spellsImport (skipped ++ rest)
  rw [List.append_assoc, dropWhile_of_nextKind (by simp [next, isTerminator])] at agree
  rw [agree]
  refine (accepts_check _).bind ?_
  rintro _ _ ⟨rfl, rfl⟩
  rw [decide_eq_true next]
  have behind := nextKind_terminators_append isSkipped ends (by simp)
  refine (accepts_importClause spellsImport behind).attempt.bind ?_
  rintro _ _ ⟨value, rfl, same, rfl⟩
  refine accepts_terminators.bind ?_
  rintro _ _ rfl
  exact accepts_pure ⟨value, rfl, same, dropWhile_terminators_append isSkipped rest⟩

theorem accepts_importStep_none (other : nextKind tokens ≠ .keyword .importWord) :
    (importStep : Rule σ (Option ImportClause)).Accepts tokens fun read left =>
      read = none ∧ left = tokens := by
  refine (accepts_check _).bind ?_
  rintro _ _ ⟨rfl, rfl⟩
  rw [decide_eq_false other]
  exact accepts_pure ⟨rfl, rfl⟩

structure EndsType (tokens : List Token) : Prop where
  declaration : EndsDeclaration tokens
  body : nextKind (tokens.dropWhile endsLine) ≠ .mark .leftBrace

theorem endsType_of_terminators (spells : tokens ∈ Spelling.terminators) : EndsType tokens := by
  refine ⟨?_, by simp [dropWhile_terminators spells]⟩
  rw [← List.append_nil tokens]
  exact endsDeclaration_terminators_append spells (by simp [EndsDeclaration])

theorem endsType_of_opens (spells : tokens ∈ Spelling.terminators)
    (opens : Opens .classWord (nextKind rest)) : EndsType (tokens ++ rest) := by
  refine ⟨endsDeclaration_terminators_append spells opens.endsDeclaration, ?_⟩
  rw [dropWhile_terminators_append spells, opens.dropWhile]
  exact opens.ne_mark (by simp)

theorem endsType_of_mem {decl : TypeDecl} (spells : tokens ∈ Spelling.terminators * ofTypeDecl decl)
    (rest : List Token) : EndsType (tokens ++ rest) := by
  obtain ⟨skipped, isSkipped, text, spellsDecl, rfl⟩ := Language.mem_mul.mp spells
  rw [List.append_assoc]
  exact endsType_of_opens isSkipped (opens_of_mem_ofTypeDecl spellsDecl rest)

theorem endsType_of_mem_ofTypes {types : List TypeDecl} (spells : tokens ∈ ofTypes types)
    (last : rest ∈ Spelling.terminators) : EndsType (tokens ++ rest) := by
  cases types with
  | nil =>
      obtain rfl : tokens = [] := spells
      exact endsType_of_terminators last
  | cons next types =>
      obtain ⟨_, spellsNext, _, _, rfl⟩ := Language.mem_mul.mp spells
      rw [List.append_assoc]
      exact endsType_of_mem spellsNext _

theorem follows_package_of_mem_ofImports {imports : List ImportClause} (spells : tokens ∈ ofImports imports)
    (noDot : nextKind rest ≠ .mark .dot)
    (noPackage : nextKind (rest.dropWhile endsLine) ≠ .keyword .packageWord) :
    nextKind (tokens ++ rest) ≠ .mark .dot ∧
      nextKind ((tokens ++ rest).dropWhile endsLine) ≠ .keyword .packageWord := by
  rcases nextKind_of_mem_ofImports spells rest with next | rfl
  · rw [dropWhile_of_nextKind (by simp [next, isTerminator])]
    simp [next]
  · exact ⟨noDot, noPackage⟩

theorem accepts_typeStep_some {decl : TypeDecl} {ahead : List Token}
    (spells : tokens ∈ Spelling.terminators * ofTypeDecl decl)
    (agree : AgreeBehindLines ahead (tokens ++ rest)) (ends : EndsType rest) :
    (typeStep : Rule σ (Option TypeDecl)).Accepts ahead fun read left =>
      ∃ value, read = some value ∧ value.outline = decl.outline ∧ AgreeBehindLines left rest := by
  obtain ⟨skipped, isSkipped, text, spellsDecl, rfl⟩ := Language.mem_mul.mp spells
  have opens := opens_of_mem_ofTypeDecl spellsDecl rest
  rw [AgreeBehindLines, List.append_assoc, dropWhile_terminators_append isSkipped, opens.dropWhile] at agree
  refine accepts_terminators.bind ?_
  rintro _ _ rfl
  rw [agree]
  refine (accepts_check _).bind ?_
  rintro _ _ ⟨rfl, rfl⟩
  rw [decide_eq_false opens.ne_fileEnd]
  refine (accepts_typeDecl spellsDecl ends.declaration ends.body).bind ?_
  rintro value _ ⟨same, agreeRest⟩
  exact accepts_pure ⟨value, rfl, same, agreeRest⟩

theorem accepts_typeStep_none {ahead : List Token} (spells : rest ∈ Spelling.terminators)
    (agree : AgreeBehindLines ahead rest) :
    (typeStep : Rule σ (Option TypeDecl)).Accepts ahead fun read left => read = none ∧ left = [] := by
  rw [AgreeBehindLines, dropWhile_terminators spells] at agree
  refine accepts_terminators.bind ?_
  rintro _ _ rfl
  rw [agree]
  refine (accepts_check _).bind ?_
  rintro _ _ ⟨rfl, rfl⟩
  exact accepts_pure ⟨rfl, rfl⟩

theorem accepts_imports {imports : List ImportClause} (spells : tokens ∈ ofImports imports)
    (ends : nextKind rest ≠ .mark .dot)
    (other : nextKind (rest.dropWhile endsLine) ≠ .keyword .importWord) :
    (collect importStep consumesWhen_importStep : Rule σ (List ImportClause)).Accepts
      ((tokens ++ rest).dropWhile endsLine) fun read left =>
        read.map ImportClause.outline = imports.map ImportClause.outline ∧
          left = rest.dropWhile endsLine := by
  refine accepts_collect (fun ahead text => ahead = text.dropWhile endsLine)
    (nextKind · ≠ .mark .dot) ?_ ?_ ?_ ends spells rfl
  · intro clause tokens rest ahead spells agree ends
    exact accepts_importStep_some spells agree ends
  · intro clause tokens rest spells
    obtain ⟨text, spellsImport, skipped, _, rfl⟩ := Language.mem_mul.mp spells
    rw [List.append_assoc]
    simp [nextKind_of_mem_ofImport spellsImport]
  · rintro _ rfl
    exact accepts_importStep_none other

theorem accepts_laterTypes {types : List TypeDecl} {ahead : List Token} (spells : tokens ∈ ofTypes types)
    (last : rest ∈ Spelling.terminators) (agree : AgreeBehindLines ahead (tokens ++ rest)) :
    (collect typeStep consumesWhen_typeStep : Rule σ (List TypeDecl)).Accepts ahead fun read left =>
      read.map TypeDecl.outline = types.map TypeDecl.outline ∧ left = [] := by
  refine accepts_collect AgreeBehindLines EndsType ?_ ?_ ?_ (endsType_of_terminators last) spells agree
  · intro decl tokens rest ahead spells agree ends
    exact accepts_typeStep_some spells agree ends
  · intro decl tokens rest spells
    exact endsType_of_mem spells rest
  · intro ahead agree
    exact accepts_typeStep_none last agree

theorem accepts_package {package : Option PackageClause} {ahead skipped : List Token}
    (spells : tokens ∈ maybe ofPackage package) (isSkipped : skipped ∈ Spelling.terminators)
    (agree : ahead = (tokens ++ (skipped ++ rest)).dropWhile endsLine)
    (ends : nextKind rest ≠ .mark .dot)
    (other : nextKind (rest.dropWhile endsLine) ≠ .keyword .packageWord) :
    (whenNext (.keyword .packageWord) packageClause : Rule σ (Option PackageClause)).Accepts ahead
      fun read left => read.map PackageClause.outline = package.map PackageClause.outline ∧
        AgreeBehindLines left rest := by
  cases package with
  | none =>
      obtain rfl : tokens = [] := spells
      rw [List.nil_append, dropWhile_terminators_append isSkipped] at agree
      rw [agree]
      refine (accepts_whenNext_none other).mono ?_
      rintro _ _ ⟨rfl, rfl⟩
      exact ⟨rfl, List.dropWhile_idempotent ..⟩
  | some clause =>
      have next := nextKind_of_mem_ofPackage spells (skipped ++ rest)
      rw [dropWhile_of_nextKind (by simp [next, isTerminator])] at agree
      rw [agree]
      have behind := nextKind_terminators_append isSkipped ends (by simp)
      refine (accepts_whenNext_some next
        (accepts_packageClause spells (endsName_of_nextKind behind))).mono ?_
      rintro _ _ ⟨read, rfl, same, rfl⟩
      exact ⟨congrArg some same, dropWhile_terminators_append isSkipped rest⟩

theorem meets_package_loose (state : State σ) :
    (whenNext (.keyword .packageWord) packageClause : Rule σ (Option PackageClause)).Meets state
      fun package _ => ∀ clause ∈ package, Loose clause := by
  refine (meets_whenNext fun _ => meets_packageClause).mono ?_
  rintro _ _ _ either clause rfl
  exact Answer.loose either (.package clause) (by simp)

theorem meets_imports_loose (state : State σ) :
    (collect importStep consumesWhen_importStep : Rule σ (List ImportClause)).Meets state
      fun imports _ => ∀ clause ∈ imports, Loose clause := by
  refine (meets_collect_answer (fun _ => meets_importStep) state).mono ?_
  rintro imports _ _ ⟨_, answer, _⟩ clause member
  exact (Answer.ofSingles answer).loose (.importClause clause) (List.mem_map_of_mem member)

theorem meets_typeDecl_loose (state : State σ) :
    (typeDecl : Rule σ TypeDecl).Meets state fun decl _ => Loose decl :=
  meets_typeDecl.mono fun decl _ _ answer => answer.loose (.type decl) (by simp)

theorem meets_laterTypes_loose (state : State σ) :
    (collect typeStep consumesWhen_typeStep : Rule σ (List TypeDecl)).Meets state
      fun types _ => ∀ decl ∈ types, Loose decl := by
  refine (meets_collect_answer (fun _ => meets_typeStep) state).mono ?_
  rintro types _ _ ⟨_, answer, _⟩ decl member
  exact (Answer.ofSingles answer).loose (.type decl) (List.mem_map_of_mem member)

theorem accepts_unit {unit : SourceUnit} (file : String) (spells : tokens ∈ ofUnit unit) :
    (Grammar.unit file : Rule σ SourceUnit).Accepts tokens fun read _ =>
      read.outline = unit.outline := by
  obtain ⟨typed, placed⟩ := spells
  have starts := head?_of_mem_placed placed []
  rw [List.append_nil] at starts
  have text := placed.1
  rw [mul_assoc, mul_assoc, mul_assoc, mul_assoc] at text
  obtain ⟨first, isFirst, _, behindFirst, rfl⟩ := Language.mem_mul.mp text
  obtain ⟨clause, spellsPackage, _, behindPackage, rfl⟩ := Language.mem_mul.mp behindFirst
  obtain ⟨second, isSecond, _, behindSecond, rfl⟩ := Language.mem_mul.mp behindPackage
  obtain ⟨clauses, spellsImports, _, behindImports, rfl⟩ := Language.mem_mul.mp behindSecond
  obtain ⟨decls, spellsTypes, last, isLast, rfl⟩ := Language.mem_mul.mp behindImports
  cases types : unit.types with
  | nil => exact absurd types typed
  | cons decl others =>
      rw [types, ofTypes_cons, mul_assoc] at spellsTypes
      obtain ⟨third, isThird, _, spellsDecls, rfl⟩ := Language.mem_mul.mp spellsTypes
      obtain ⟨one, spellsOne, more, spellsMore, rfl⟩ := Language.mem_mul.mp spellsDecls
      simp only [List.append_assoc] at starts ⊢
      have opens := opens_of_mem_ofTypeDecl spellsOne (more ++ last)
      have reached : (third ++ (one ++ (more ++ last))).dropWhile endsLine = one ++ (more ++ last) := by
        rw [dropWhile_terminators_append isThird, opens.dropWhile]
      have noDot : nextKind (third ++ (one ++ (more ++ last))) ≠ .mark .dot :=
        nextKind_terminators_append isThird (opens.ne_mark (by simp)) (by simp)
      have noKeyword (reserved : Keyword) (other : reserved ≠ .classWord) :
          nextKind ((third ++ (one ++ (more ++ last))).dropWhile endsLine) ≠ .keyword reserved := by
        rw [reached]
        exact opens.ne_keyword other
      obtain ⟨noDotImports, noPackage⟩ :=
        follows_package_of_mem_ofImports spellsImports noDot (noKeyword .packageWord (by simp))
      have endsOne := endsType_of_mem_ofTypes spellsMore isLast
      refine (accepts_node starts).bind ?_
      rintro info _ ⟨place, rfl⟩
      refine accepts_terminators.bind ?_
      rintro _ _ rfl
      refine ((accepts_package spellsPackage isSecond (dropWhile_terminators_append isFirst _)
        noDotImports noPackage).and meets_package_loose).bind ?_
      rintro package _ ⟨⟨samePackage, agree⟩, loosePackage⟩
      refine accepts_terminators.bind ?_
      rintro _ _ rfl
      rw [agree]
      refine ((accepts_imports spellsImports noDot (noKeyword .importWord (by simp))).and meets_imports_loose).bind ?_
      rintro imports _ ⟨⟨sameImports, rfl⟩, looseImports⟩
      refine accepts_terminators.bind ?_
      rintro _ _ rfl
      rw [List.dropWhile_idempotent, reached]
      refine ((accepts_typeDecl spellsOne endsOne.declaration endsOne.body).and
        meets_typeDecl_loose).bind ?_
      rintro read _ ⟨⟨sameOne, agreeMore⟩, looseOne⟩
      refine ((accepts_laterTypes spellsMore isLast agreeMore).and meets_laterTypes_loose).bind ?_
      rintro reads _ ⟨⟨sameMore, rfl⟩, looseMore⟩
      have looseTypes : ∀ other ∈ read :: reads, Loose other := by
        intro other member
        rcases List.mem_cons.mp member with rfl | later
        · exact looseOne
        · exact looseMore other later
      refine accepts_assemble (SourceUnit.build_eq loosePackage looseImports looseTypes) ?_
      simp [SourceUnit.outline, Function.comp_def, NodeInfo.outline_eq place, samePackage, sameImports,
        types, sameOne, sameMore]

end Grammar

end Beagle
