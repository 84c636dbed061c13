import Beagle.Grammar.Unit
import Beagle.Proofs.Likeness.Rule

/-!
No rule of the grammar looks at an id or at a place.  Of two parses of tokens that are alike, each comes
to the same end, and where there is a unit, it is the same up to what is hidden.
-/

namespace Beagle

def Mask.placed {α : Type} (mask : Mask) (item : α × Position) : α × Position :=
  (item.1, mask.position item.2)

theorem Mask.map_fst_of_placed {α : Type} {mask : Mask} {items images : List (α × Position)}
    (same : items.map mask.placed = images.map mask.placed) :
    items.map Prod.fst = images.map Prod.fst := by
  have visible := congrArg (List.map Prod.fst) same
  rwa [List.map_map, List.map_map] at visible

theorem Declarator.map_masked_pair (mask : Mask) (names : List (String × Position))
    (initials : List Literal) :
    (pair names initials).map (Declarator.masked mask) =
      pair (names.map mask.placed) (initials.map (Literal.masked mask)) := by
  fun_induction pair names initials with
  | case1 => rfl
  | case2 name position names ih => exact congrArg (Declarator.mk _ _ none :: ·) ih
  | case3 name position names initial initials ih =>
      exact congrArg (Declarator.mk _ _ (some (initial.masked mask)) :: ·) ih

namespace Grammar

open Comparison

variable {σ τ : Type} [TokenSource σ] [TokenSource τ] {comparison : Comparison}

theorem blind_terminatorStep :
    comparison.Blind σ τ (Option.map fun taken => taken) terminatorStep :=
  mirrors_takeWhen fun token image same => by rw [Token.kind_of_masked same]

theorem blind_terminators : comparison.Blind σ τ (fun done => done) terminators :=
  (mirrors_collect blind_terminatorStep).bind fun _ _ _ => mirrors_pure rfl

theorem blind_simpleName : comparison.Blind σ τ (fun name => name) simpleName :=
  (mirrors_expect _).bind fun _ _ same => mirrors_pure (Token.text_of_masked same)

theorem blind_segmentStep :
    comparison.Blind σ τ (Option.map fun segment => segment) segmentStep := by
  refine (mirrors_startsWith _).bind fun found image same => ?_
  subst same
  cases found with
  | false => exact mirrors_pure rfl
  | true =>
      refine (mirrors_expect _).bind fun _ _ _ => blind_simpleName.bind fun name image same => ?_
      exact mirrors_pure (congrArg some same)

theorem blind_qualifiedName : comparison.Blind σ τ (fun name => name) qualifiedName := by
  refine blind_simpleName.bind fun first image same => ?_
  refine (mirrors_collect blind_segmentStep).bind fun rest images sameRest => mirrors_pure ?_
  simp only [List.map_id'] at sameRest
  subst same sameRest
  rfl

theorem blind_typeRef :
    comparison.Blind σ τ (TypeRef.masked comparison.mask) typeRef := by
  refine mirrors_node.bind fun info image same => blind_qualifiedName.bind fun name _ sameName => ?_
  exact mirrors_pure (by rw [TypeRef.masked, TypeRef.masked, same, sameName])

theorem blind_annot : comparison.Blind σ τ (Annot.masked comparison.mask) annot := by
  refine mirrors_node.bind fun info image same => (mirrors_expect _).bind fun _ _ _ => ?_
  refine blind_typeRef.bind fun type typeImage sameType => mirrors_assemble ?_
  rw [Annot.masked_make, Annot.masked_make, same, sameType]

theorem blind_annotations :
    comparison.Blind σ τ (List.map (Annot.masked comparison.mask)) annotations :=
  mirrors_collect (mirrors_whenNext _ blind_annot)

theorem blind_modifierStep : comparison.Blind σ τ (Option.map comparison.mask.placed) modifierStep := by
  refine mirrors_takeWhen fun token image same => ?_
  rw [Token.kind_of_masked same]
  split
  · exact congrArg some (Prod.ext rfl (Token.position_of_masked same))
  · rfl

theorem mirrors_warnRepeated {run images : List (Modifier × Position)} (seen : Modifiers)
    (same : run.map comparison.mask.placed = images.map comparison.mask.placed) :
    comparison.Mirrors (fun done => done) (warnRepeated seen run : Rule σ Unit)
      (warnRepeated seen images : Rule τ Unit) := by
  induction run generalizing seen images with
  | nil =>
      obtain rfl := List.map_eq_nil_iff.mp same.symm
      exact mirrors_pure rfl
  | cons item run ih =>
      cases images with
      | nil => cases same
      | cons image images =>
          obtain ⟨word, position⟩ := item
          obtain ⟨wordImage, positionImage⟩ := image
          obtain ⟨sameItem, sameRest⟩ := List.cons.inj same
          obtain rfl : word = wordImage := congrArg Prod.fst sameItem
          simp only [warnRepeated]
          split
          · exact (mirrors_report (congrArg Prod.snd sameItem) rfl).bind fun _ _ _ => ih _ sameRest
          · exact ih _ sameRest

theorem blind_modifiers :
    comparison.Blind σ τ (fun modifiers => modifiers) modifiers := by
  refine (mirrors_collect blind_modifierStep).bind fun run images same => ?_
  refine (mirrors_warnRepeated _ same).bind fun _ _ _ => mirrors_pure ?_
  have sameWords := Mask.map_fst_of_placed same
  have sameEmpty : run.isEmpty = images.isEmpty := by
    rw [← List.isEmpty_map, sameWords, List.isEmpty_map]
  rw [sameEmpty, sameWords]

theorem literalValue?_of_masked {mask : Mask} {token image : Token}
    (same : token.masked mask = image.masked mask) : literalValue? token = literalValue? image := by
  rw [literalValue?, literalValue?, Token.kind_of_masked same, Token.text_of_masked same]

theorem blind_literal :
    comparison.Blind σ τ (Literal.masked comparison.mask) literal := by
  refine (mirrors_demand _).bind fun token tokenImage sameToken => ?_
  refine mirrors_node.bind fun info image same => ?_
  rw [literalValue?_of_masked sameToken]
  split
  · refine (mirrors_discard 1).bind fun _ _ _ => mirrors_pure ?_
    rw [Literal.masked, Literal.masked, same]
  · refine mirrors_refuse (Token.position_of_masked sameToken) ?_
    rw [Token.text_of_masked sameToken]

theorem blind_preamble :
    comparison.Blind σ τ (Preamble.masked comparison.mask) preamble := by
  refine mirrors_node.bind fun info image same => ?_
  refine blind_annotations.bind fun annotations images sameAnnotations => ?_
  refine blind_modifiers.bind fun modifiers _ sameModifiers => mirrors_pure ?_
  rw [Preamble.masked, Preamble.masked, same, sameAnnotations, sameModifiers]

theorem blind_declaredName :
    comparison.Blind σ τ comparison.mask.placed declaredName := by
  refine mirrors_current.bind fun token image same => blind_simpleName.bind fun name _ sameName => ?_
  exact mirrors_pure (Prod.ext sameName (Token.position_of_masked same))

theorem blind_optionalType :
    comparison.Blind σ τ (Option.map (TypeRef.masked comparison.mask)) optionalType :=
  mirrors_after _ blind_typeRef

theorem blind_initials (kind : FieldKind) :
    comparison.Blind σ τ (List.map (Literal.masked comparison.mask)) (initials kind) := by
  refine (mirrors_after _ (mirrors_commaSeparated blind_literal)).bind ?_
  rintro (_ | literals) (_ | images) same
  · cases kind with
    | mutable => exact mirrors_pure rfl
    | constant => exact mirrors_refuseExpected _
  · cases same
  · cases same
  · exact mirrors_pure (Option.some.inj same)

theorem parts_of_masked {mask : Mask} {start image : Preamble}
    (same : start.masked mask = image.masked mask) :
    start.info.masked mask = image.info.masked mask ∧
      start.annotations.map (Annot.masked mask) = image.annotations.map (Annot.masked mask) ∧
      start.modifiers = image.modifiers := by
  simpa [Preamble.masked] using same

section Preambles

variable {start image : Preamble} (same : start.masked comparison.mask = image.masked comparison.mask)

include same

theorem mirrors_field (kind : FieldKind) :
    comparison.Mirrors (Field.masked comparison.mask) (field start kind : Rule σ Field)
      (field image kind : Rule τ Field) := by
  obtain ⟨sameInfo, sameAnnotations, sameModifiers⟩ := parts_of_masked same
  refine (mirrors_expect _).bind fun _ _ _ => ?_
  refine (mirrors_commaSeparated blind_declaredName).bind fun names nameImages sameNames => ?_
  refine blind_optionalType.bind fun type typeImage sameType => ?_
  refine (blind_initials kind).bind fun initials images sameInitials => ?_
  have nameCount := congrArg List.length sameNames
  have initialCount := congrArg List.length sameInitials
  have absent := congrArg List.isEmpty sameInitials
  simp only [List.length_map, List.isEmpty_map] at nameCount initialCount absent
  rw [nameCount, initialCount, absent]
  split
  · exact mirrors_refuse (congrArg NodeInfo.position sameInfo) rfl
  · refine mirrors_assemble ?_
    rw [Field.masked_build, Field.masked_build, Declarator.map_masked_pair, Declarator.map_masked_pair,
      sameInfo, sameAnnotations, sameModifiers, sameType, sameNames, sameInitials]

end Preambles

theorem blind_param : comparison.Blind σ τ (Param.masked comparison.mask) param := by
  refine mirrors_node.bind fun info image same => blind_simpleName.bind fun name _ sameName => ?_
  refine (mirrors_expect _).bind fun _ _ _ => ?_
  refine blind_typeRef.bind fun type typeImage sameType => mirrors_assemble ?_
  rw [Param.masked_make, Param.masked_make, same, sameName, sameType]

theorem blind_paramList :
    comparison.Blind σ τ (List.map (Param.masked comparison.mask)) paramList := by
  refine (mirrors_check _).bind fun closed image same => ?_
  subst same
  cases closed with
  | true => exact mirrors_pure rfl
  | false => exact mirrors_commaSeparated blind_param

theorem blind_params :
    comparison.Blind σ τ (List.map (Param.masked comparison.mask)) params :=
  (mirrors_expect _).bind fun _ _ _ => blind_paramList.bind fun _ _ same =>
    (mirrors_expect _).bind fun _ _ _ => mirrors_pure same

theorem blind_blockStep (progress : BlockProgress) :
    comparison.Blind σ τ (fun answer => answer) (blockStep progress) := by
  have blind : ∀ token image : Token, token.masked comparison.mask = image.masked comparison.mask →
      (if isBlockToken token.kind then some token.kind else none).map (fun kind => kind) =
        (if isBlockToken image.kind then some image.kind else none).map (fun kind => kind) := by
    intro token image same
    rw [Token.kind_of_masked same]
  refine (mirrors_takeWhen blind).bind ?_
  rintro (_ | kind) (_ | image) same
  · exact mirrors_refuseExpected _
  · cases same
  · cases same
  · obtain rfl := Option.some.inj same
    exact mirrors_pure rfl

theorem blind_block : comparison.Blind σ τ (Block.masked comparison.mask) block := by
  refine mirrors_node.bind fun info image same => (mirrors_expect _).bind fun _ _ _ => ?_
  refine (mirrors_loop blind_blockStep _).bind fun size _ sameSize => mirrors_pure ?_
  rw [Block.masked, Block.masked, same, sameSize]

theorem mirrors_method {start image : Preamble}
    (same : start.masked comparison.mask = image.masked comparison.mask) :
    comparison.Mirrors (Method.masked comparison.mask) (method start : Rule σ Method)
      (method image : Rule τ Method) := by
  obtain ⟨sameInfo, sameAnnotations, sameModifiers⟩ := parts_of_masked same
  refine (mirrors_expect _).bind fun _ _ _ => blind_simpleName.bind fun name _ sameName => ?_
  refine blind_params.bind fun params _ sameParams => ?_
  refine blind_optionalType.bind fun result _ sameResult => ?_
  refine (mirrors_whenNext _ blind_block).bind fun body _ sameBody => mirrors_assemble ?_
  rw [Method.masked_build, Method.masked_build, sameInfo, sameAnnotations, sameModifiers, sameName,
    sameParams, sameResult, sameBody]

theorem mirrors_memberAfter {start image : Preamble}
    (same : start.masked comparison.mask = image.masked comparison.mask) :
    comparison.Mirrors (Option.map (Member.masked comparison.mask))
      (memberAfter start : Rule σ (Option Member)) (memberAfter image : Rule τ (Option Member)) := by
  refine mirrors_current.bind fun token _ sameToken => ?_
  rw [Token.kind_of_masked sameToken]
  split
  · exact (mirrors_field same _).bind fun _ _ sameField =>
      mirrors_pure (congrArg (some ∘ Member.field) sameField)
  · exact (mirrors_field same _).bind fun _ _ sameField =>
      mirrors_pure (congrArg (some ∘ Member.field) sameField)
  · exact (mirrors_method same).bind fun _ _ sameMethod =>
      mirrors_pure (congrArg (some ∘ Member.method) sameMethod)
  · exact (mirrors_reportExpected _).bind fun _ _ _ => mirrors_pure rfl

theorem blind_memberStep :
    comparison.Blind σ τ (Option.map (Member.masked comparison.mask)) memberStep := by
  refine blind_terminators.bind fun _ _ _ => (mirrors_check _).bind fun closed image same => ?_
  subst same
  cases closed with
  | true => exact mirrors_pure rfl
  | false => exact blind_preamble.bind fun _ _ same => mirrors_memberAfter same

theorem blind_body : comparison.Blind σ τ (Body.masked comparison.mask) body := by
  refine mirrors_node.bind fun info _ same => (mirrors_expect _).bind fun _ _ _ => ?_
  refine (mirrors_collect blind_memberStep).bind fun members _ sameMembers => ?_
  refine (mirrors_discard 1).bind fun _ _ _ => mirrors_assemble ?_
  rw [masked_buildBody, masked_buildBody, same, sameMembers]

theorem blind_bases :
    comparison.Blind σ τ (List.map (TypeRef.masked comparison.mask)) bases := by
  refine (mirrors_after _ (mirrors_commaSeparated blind_typeRef)).bind ?_
  rintro (_ | bases) (_ | images) same
  · exact mirrors_pure rfl
  · cases same
  · cases same
  · exact mirrors_pure (Option.some.inj same)

theorem blind_typeDecl :
    comparison.Blind σ τ (TypeDecl.masked comparison.mask) typeDecl := by
  refine blind_preamble.bind fun start image same => ?_
  obtain ⟨sameInfo, sameAnnotations, sameModifiers⟩ := parts_of_masked same
  refine (mirrors_expect _).bind fun _ _ _ => blind_qualifiedName.bind fun name _ sameName => ?_
  refine blind_bases.bind fun bases _ sameBases => blind_terminators.bind fun _ _ _ => ?_
  refine (mirrors_whenNext _ blind_body).bind fun body _ sameBody => mirrors_assemble ?_
  rw [TypeDecl.masked_build, TypeDecl.masked_build, sameInfo, sameAnnotations, sameModifiers, sameName,
    sameBases, sameBody]

theorem blind_packageClause :
    comparison.Blind σ τ (PackageClause.masked comparison.mask) packageClause := by
  refine mirrors_node.bind fun info _ same => (mirrors_expect _).bind fun _ _ _ => ?_
  refine blind_qualifiedName.bind fun name _ sameName => mirrors_pure ?_
  rw [PackageClause.masked, PackageClause.masked, same, sameName]

theorem blind_importClause :
    comparison.Blind σ τ (ImportClause.masked comparison.mask) importClause := by
  refine mirrors_node.bind fun info image same => (mirrors_expect _).bind fun _ _ _ => ?_
  refine blind_qualifiedName.bind fun name _ sameName => ?_
  refine (mirrors_startsWith _).bind fun found _ sameFound => ?_
  subst sameName sameFound
  cases found with
  | true =>
      refine (mirrors_discard 2).bind fun _ _ _ => mirrors_pure ?_
      rw [ImportClause.masked, ImportClause.masked, same]
  | false =>
      simp only [Bool.false_eq_true, if_false]
      split
      · refine mirrors_pure ?_
        rw [ImportClause.masked, ImportClause.masked, same]
      · exact mirrors_refuse (congrArg NodeInfo.position same) rfl

theorem blind_importStep :
    comparison.Blind σ τ (Option.map (ImportClause.masked comparison.mask)) importStep := by
  refine (mirrors_check _).bind fun found image same => ?_
  subst same
  cases found with
  | false => exact mirrors_pure rfl
  | true =>
      refine blind_importClause.attempt.bind ?_
      rintro (_ | clause) (_ | image) same
      · exact mirrors_pure rfl
      · cases same
      · cases same
      · exact blind_terminators.bind fun _ _ _ => mirrors_pure same

theorem blind_typeStep : comparison.Blind σ τ (Option.map (TypeDecl.masked comparison.mask)) typeStep := by
  refine blind_terminators.bind fun _ _ _ => (mirrors_check _).bind fun ended image same => ?_
  subst same
  cases ended with
  | true => exact mirrors_pure rfl
  | false => exact blind_typeDecl.bind fun _ _ same => mirrors_pure (congrArg some same)

theorem blind_unit (file : String) :
    comparison.Blind σ τ (SourceUnit.masked comparison.mask) (unit file) := by
  refine mirrors_node.bind fun info _ same => blind_terminators.bind fun _ _ _ => ?_
  refine (mirrors_whenNext _ blind_packageClause).bind fun package _ samePackage => ?_
  refine blind_terminators.bind fun _ _ _ => ?_
  refine (mirrors_collect blind_importStep).bind fun imports _ sameImports => ?_
  refine blind_terminators.bind fun _ _ _ => blind_typeDecl.bind fun first _ sameFirst => ?_
  refine (mirrors_collect blind_typeStep).bind fun rest _ sameRest => mirrors_assemble ?_
  rw [SourceUnit.masked_build, SourceUnit.masked_build, same, samePackage, sameImports,
    map_cons_congr sameFirst sameRest]

end Grammar

namespace Comparison

variable {σ τ : Type} [TokenSource σ] [TokenSource τ] {comparison : Comparison}

theorem alike_parse (left : State σ) (right : State τ)
    (sameFile : left.file = right.file)
    (alike : comparison.Alike { left with session := left.session.begin left.file }
      { right with session := right.session.begin right.file }) :
    Stop.outcome comparison.mask (SourceUnit.masked comparison.mask) left.parse.1 =
      Stop.outcome comparison.mask (SourceUnit.masked comparison.mask) right.parse.1 ∧
    comparison.Alike left.parse.2 right.parse.2 := by
  obtain ⟨same, after⟩ := Grammar.blind_unit left.file _ _ alike
  rw [State.parse, State.parse, ← sameFile]
  rw [← sameFile] at same after
  exact ⟨same, after.ahead, after.ending, after.file, after.nextId, after.told⟩

end Comparison

end Beagle
