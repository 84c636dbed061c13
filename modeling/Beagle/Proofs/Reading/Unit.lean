import Beagle.Proofs.Reading.Member

/-!
Readings of types, imports and units.  A unit is read to the end of its tokens, and has a type.
-/

namespace Beagle

open Spelling

theorem DottedName.single_within_of_slice {name package : DottedName}
    (sliced : name.slice? 0 (name.size - 1) = some package) :
    (DottedName.single name.simple).within package = name := by
  unfold slice? ofSegments? at sliced
  split at sliced
  · split at sliced
    · obtain ⟨segments, nonempty⟩ := name
      simp only [Option.some.injEq] at sliced
      subst sliced
      have whole := List.dropLast_append_getLast nonempty
      rw [List.dropLast_eq_take] at whole
      simp [within, single, simple, size, whole]
    · simp at sliced
  · simp at sliced

namespace Grammar

open Rule

variable {σ : Type} [TokenSource σ] {state : State σ}

theorem meets_bases : (bases : Rule σ (List TypeRef)).Meets state fun bases after =>
    Answer state after (ofBases bases) (bases.map .typeRef) := by
  refine (meets_after (by simp) fun _ => meets_commaSeparated fun _ => meets_typeRef).bind ?_
  rintro (_ | bases) after _ answer
  · exact meets_pure (Answer.same answer)
  · refine meets_pure ((Answer.ofSingles answer).weaken fun tokens spells => ?_)
    rw [Option.getD_some, ofBases, if_neg]
    · exact spells
    · rintro rfl
      obtain ⟨_, _, _, absurd, _⟩ := Language.mem_mul.mp spells
      exact absurd

theorem ofBases_map_owned (bases : List TypeRef) (parent : Nat) :
    ofBases (bases.map (owned parent)) = ofBases bases := by
  rw [ofBases, ofBases, List.map_map]
  simp only [List.map_eq_nil_iff]
  rfl

theorem maybe_ofBody_map_owned (body : Option Body) (parent : Nat) :
    maybe ofBody (body.map (owned parent)) = maybe ofBody body := by
  cases body with
  | none => rfl
  | some body =>
      refine Set.ext fun tokens => exists_congr fun members => and_congr ?_ .rfl
      cases body
      simp [owned, HasInfo.info, HasInfo.withInfo, Body.ofMembers]

theorem meets_typeDecl : (typeDecl : Rule σ TypeDecl).Meets state fun decl after =>
    Answer state after (ofTypeDecl decl) [.type decl] := by
  refine meets_preamble.bind fun start begun _ begins => ?_
  refine (meets_word (by simp)).bind fun _ first _ wordRead => ?_
  refine meets_qualifiedName.bind fun name second _ nameRead => ?_
  refine meets_bases.bind fun bases third _ basesRead => ?_
  refine meets_terminators.bind fun _ fourth _ ⟨skipped, _⟩ => ?_
  refine (meets_whenNext fun _ => meets_body).bind fun body after _ either => ?_
  have bodyRead := Answer.ofSingles (Answer.ofEither either)
  have looseBases : ∀ base ∈ bases, Loose base := fun base member =>
    basesRead.loose (.typeRef base) (List.mem_map_of_mem member)
  have looseBody : ∀ part ∈ body, Loose part := fun part member =>
    bodyRead.loose (.body part) (by simpa using member)
  refine (yields_assemble (TypeDecl.build_eq begins.loose looseBases looseBody) ?_).meets
  have inside := wordRead.append (nameRead.append (basesRead.append (skipped.append bodyRead)))
  have whole := begins.close (.type ⟨start.info, start.annotations.map (owned start.info.id),
    start.modifiers, name, bases.map (owned start.info.id), body.map (owned start.info.id)⟩) rfl
    inside (by simp) ?_
  · rw [ofTypeDecl, ofAnnots_map_owned, ofBases_map_owned, maybe_ofBody_map_owned]
    simp only [mul_assoc] at whole ⊢
    exact whole
  · refine .of_eq ?_
    simp [Node.children, Node.ownedBy, Node.id, Node.info, Function.comp_def, Option.toList_map]

theorem meets_packageClause : (packageClause : Rule σ PackageClause).Meets state fun clause after =>
    Answer state after (ofPackage clause) [.package clause] := by
  refine meets_node.bind fun info middle _ opened => ?_
  refine (meets_word (by simp)).bind fun _ inside _ wordRead => ?_
  refine meets_qualifiedName.bind fun name after _ nameRead => meets_pure ?_
  exact Opened.close (.package ⟨info, name⟩) opened (wordRead.append nameRead) (by simp) (.refl _)

theorem meets_importClause : (importClause : Rule σ ImportClause).Meets state fun clause after =>
    Answer state after (ofImport clause) [.importClause clause] := by
  refine meets_node.bind fun info middle _ opened => ?_
  refine (meets_word (by simp)).bind fun _ inside _ wordRead => ?_
  refine meets_qualifiedName.bind fun name named _ nameRead => ?_
  refine (yields_startsWith (by simp) (by simp)).meets.bind fun found start _ ⟨starts, same⟩ => ?_
  cases found with
  | true =>
      obtain ⟨dot, star, rest, ahead, isDot, isStar⟩ := starts.mp rfl
      refine (yields_discard 2).meets.bind fun _ after leads ⟨dropped, _, session⟩ => meets_pure ?_
      have allRead : Answer start after (mark .dot * mark .star) [] := by
        refine ⟨leads, by simp, .nil _ _, fun _ => ⟨[dot, star], ?_, ?_⟩, fun _ => ?_⟩
        · exact Language.append_mem_mul (singleton_mem_word isDot) (singleton_mem_word isStar)
        · rw [dropped, same.ahead, ahead]
          rfl
        · simp [session]
      have inner := wordRead.append ((nameRead.same_right same).append allRead)
      rw [← mul_assoc (ofName name)] at inner
      exact Opened.close (.importClause ⟨info, name, .everything⟩) opened inner (by simp) (.refl _)
  | false =>
      simp only [Bool.false_eq_true, if_false]
      split
      · rename_i package sliced
        have inner := wordRead.append (nameRead.same_right same)
        have target : ∀ tokens ∈ word (.keyword .importWord) * ofName name,
            tokens ∈ keyword .importWord * ofImportTarget package (.type (.single name.simple)) := by
          intro tokens spells
          obtain ⟨first, isWord, second, spellsName, rfl⟩ := Language.mem_mul.mp spells
          refine Language.append_mem_mul isWord ⟨rfl, ?_⟩
          rwa [DottedName.single_within_of_slice sliced]
        exact meets_pure (Opened.close (.importClause ⟨info, package, .type (.single name.simple)⟩)
          opened (inner.weaken target) (by simp) (.refl _))
      · exact meets_refuse _ _

theorem meets_importStep : (importStep : Rule σ (Option ImportClause)).Meets state
    (Either (fun after => Answer state after 1 []) fun clause after =>
      Answer state after (ofImport clause * Spelling.terminators) [.importClause clause]) := by
  refine (yields_check _).meets.bind fun found start _ ⟨_, same⟩ => ?_
  cases found with
  | false => exact meets_pure (Answer.same same)
  | true =>
      refine meets_importClause.attempt.bind ?_
      rintro (_ | clause) middle leads answer
      · exact meets_pure (.same_left same (.lost leads answer))
      · refine meets_terminators.bind fun _ after _ ⟨skipped, _⟩ => meets_pure ?_
        exact .same_left same (Answer.append answer skipped)

theorem meets_typeStep : (typeStep : Rule σ (Option TypeDecl)).Meets state
    (Either (fun after => Answer state after Spelling.terminators [] ∧ after.ahead = []) fun decl after =>
      Answer state after (Spelling.terminators * ofTypeDecl decl) [.type decl]) := by
  refine meets_terminators.bind fun _ middle _ ⟨skipped, _⟩ => ?_
  refine (yields_check _).meets.bind fun ended start _ ⟨isEnd, same⟩ => ?_
  have skipped := skipped.same_right same
  cases ended with
  | true =>
      refine meets_pure ⟨skipped, ?_⟩
      rw [same.ahead]
      exact State.ahead_of_head_kind (isEnd.mp rfl)
  | false => exact meets_typeDecl.bind fun decl after _ answer => meets_pure (skipped.append answer)

theorem maybe_ofPackage_map_owned (package : Option PackageClause) (parent : Nat) :
    maybe ofPackage (package.map (owned parent)) = maybe ofPackage package := by
  cases package <;> rfl

theorem ofImports_map_owned (imports : List ImportClause) (parent : Nat) :
    ofImports (imports.map (owned parent)) = ofImports imports := by
  rw [ofImports, List.map_map]
  rfl

theorem ofTypes_map_owned (types : List TypeDecl) (parent : Nat) :
    ofTypes (types.map (owned parent)) = ofTypes types := by
  rw [ofTypes, List.map_map]
  rfl

theorem meets_unit (file : String) : (unit file : Rule σ SourceUnit).Meets state fun unit after =>
    Answer state after (ofUnit unit) [.unit unit] ∧ after.ahead = [] ∧ unit.file = file ∧
      unit.types ≠ [] := by
  refine meets_node.bind fun info opened _ opens => ?_
  refine meets_terminators.bind fun _ first _ ⟨skippedFirst, _⟩ => ?_
  refine (meets_whenNext fun _ => meets_packageClause).bind fun package second _ either => ?_
  have packageRead := Answer.ofSingles (Answer.ofEither either)
  refine meets_terminators.bind fun _ third _ ⟨skippedSecond, _⟩ => ?_
  refine (meets_collect_answer (fun _ => meets_importStep) third).bind ?_
  rintro imports fourth _ ⟨last, importsRead, importsEnd⟩
  have importsRead := Answer.ofSingles importsRead
  refine meets_terminators.bind fun _ fifth _ ⟨skippedThird, _⟩ => ?_
  refine meets_typeDecl.bind fun decl sixth _ declRead => ?_
  refine (meets_collect_answer (fun _ => meets_typeStep) sixth).bind ?_
  rintro decls after _ ⟨typed, declsRead, skippedLast, finished⟩
  have declsRead := Answer.ofSingles declsRead
  have loosePackage : ∀ clause ∈ package, Loose clause := fun clause member =>
    packageRead.loose (.package clause) (by simpa using member)
  have looseImports : ∀ clause ∈ imports, Loose clause := fun clause member =>
    importsRead.loose (.importClause clause) (List.mem_map_of_mem member)
  have looseTypes : ∀ other ∈ decl :: decls, Loose other := by
    intro other member
    rcases List.mem_cons.mp member with rfl | later
    · exact declRead.loose (.type other) (by simp)
    · exact declsRead.loose (.type other) (List.mem_map_of_mem later)
  refine (yields_assemble (SourceUnit.build_eq loosePackage looseImports looseTypes) ?_).meets
  refine ⟨?_, finished, rfl, by simp⟩
  have typesRead := (skippedThird.append declRead).append declsRead
  have inside := skippedFirst.append (packageRead.append (skippedSecond.append
    ((importsRead.append importsEnd).append (typesRead.append skippedLast))))
  have whole := Opened.close (.unit ⟨info, file, package.map (owned info.id),
    imports.map (owned info.id), (decl :: decls).map (owned info.id)⟩) opens inside ?_ ?_
  · refine whole.weaken fun tokens spells => ⟨by simp, ?_⟩
    rw [maybe_ofPackage_map_owned, ofImports_map_owned, ofTypes_map_owned, ofTypes_cons]
    simp only [mul_assoc, mul_one] at spells ⊢
    exact spells
  · simp [ofTypeDecl]
  · refine .of_eq ?_
    simp [Node.children, Node.ownedBy, Node.id, Node.info, Function.comp_def, Option.toList_map]

end Grammar

namespace State

variable {σ : Type} [TokenSource σ]

structure Reading (state : State σ) (unit : SourceUnit) : Prop where
  forest : Forest [.unit unit] state.session.nextId state.parse.2.session.nextId
  root : unit.info.parent = none
  file : unit.file = state.file
  types : unit.types ≠ []
  spelled : state.parse.2.session.errorCount = state.session.errorCount → state.ahead ∈ ofUnit unit
  counted : state.parse.2.session.errorCount = state.session.errorCount →
    state.session.nextId + (Node.all [.unit unit]).length = state.parse.2.session.nextId

theorem parse_ne_misattached (state : State σ) (fault : AttachFault) :
    state.parse.1 ≠ .error (.misattached fault) :=
  (Grammar.meets_unit state.file).attaches fault

theorem reading_of_parse (state : State σ) {unit : SourceUnit} (parsed : state.parse.1 = .ok unit) :
    state.Reading unit := by
  obtain ⟨answer, ended, file, types⟩ :=
    (Grammar.meets_unit state.file).answers unit _ (Prod.ext parsed rfl)
  refine ⟨answer.forest, answer.loose (.unit unit) (by simp), file, types, fun clean => ?_, answer.counted⟩
  obtain ⟨tokens, spells, ahead⟩ := answer.spelled clean
  rw [ended, List.append_nil] at ahead
  exact ahead ▸ spells

end State

end Beagle
