import Beagle.Proofs.Construction
import Beagle.Proofs.Outline

/-!
The initial values in a tree.  A field has those of its names, and whatever is put together from fields
has theirs: nothing is lost on the way up to the unit.
-/

namespace Beagle

def Field.initials (field : Field) : List Literal :=
  field.declarators.filterMap Declarator.initial

def Grammar.Member.initials : Grammar.Member → List Literal
  | .field it => it.initials
  | .method _ => []

def Body.initials (body : Body) : List Literal :=
  (body.vars ++ body.consts).flatMap Field.initials

def TypeDecl.initials (decl : TypeDecl) : List Literal :=
  decl.body.elim [] Body.initials

def SourceUnit.initials (unit : SourceUnit) : List Literal :=
  unit.types.flatMap TypeDecl.initials

def Literal.Among (literal : Literal) (initials : List Literal) : Prop :=
  ∃ initial ∈ initials, initial.outline = literal.outline

variable {literal : Literal}

theorem Literal.Among.mono {initials others : List Literal} (among : literal.Among initials)
    (inside : initials ⊆ others) : literal.Among others := by
  obtain ⟨initial, member, same⟩ := among
  exact ⟨initial, inside member, same⟩

theorem has_of_foldlM {α β : Type} {add : β → α → Assembly β} (has : β → Prop) {item : α} {items : List α}
    (keeps : ∀ whole other after, add whole other = .ok after → has whole → has after)
    (brings : ∀ whole after, add whole item = .ok after → has after) (member : item ∈ items)
    {whole after : β} (built : items.foldlM add whole = .ok after) : has after := by
  induction items generalizing whole with
  | nil => simp at member
  | cons first items ih =>
      rw [List.foldlM_cons] at built
      obtain ⟨middle, added, onward⟩ := ok_of_bind built
      rcases List.mem_cons.mp member with rfl | later
      · refine kept_of_foldlM has ?_ (brings whole middle added) onward
        exact fun whole other after _ added => keeps whole other after added
      · exact ih later onward

namespace Field

theorem eq_of_addDeclarator {field after : Field} {declarator : Declarator}
    (built : field.addDeclarator declarator = .ok after) :
    after.initials = field.initials ++ (declarator.initial.map (owned field.info.id)).toList := by
  obtain ⟨initial, attached, made⟩ := ok_of_bind built
  obtain rfl := Except.ok.inj made
  rw [eq_map_owned_of_option_mapM attached]
  cases declarator.initial <;> simp [initials]

theorem among_initials_of_build {info : NodeInfo} {kind : FieldKind} {annotations : List Annot}
    {modifiers : Option Modifiers} {type : Option TypeRef} {declarators : List Declarator} {field : Field}
    (built : build info kind annotations modifiers type declarators = .ok field)
    (member : literal ∈ declarators.filterMap Declarator.initial) : literal.Among field.initials := by
  obtain ⟨declarator, listed, isInitial⟩ := List.mem_filterMap.mp member
  obtain ⟨start, _, built⟩ := ok_of_bind built
  refine has_of_foldlM (fun field => literal.Among field.initials) ?_ ?_ listed built
  · intro whole other after added among
    rw [eq_of_addDeclarator added]
    exact among.mono (List.subset_append_left _ _)
  · intro whole after added
    rw [eq_of_addDeclarator added, isInitial]
    exact ⟨_, List.mem_append_right _ (List.mem_singleton_self _), rfl⟩

end Field

namespace Grammar

theorem Member.initials_of_addTo {body after : Body} {member : Member}
    (built : member.addTo body = .ok after) :
    body.initials ⊆ after.initials ∧ member.initials ⊆ after.initials := by
  cases member with
  | method it =>
      obtain ⟨_, _, made⟩ := ok_of_bind built
      obtain rfl := Except.ok.inj made
      exact ⟨List.Subset.refl _, List.nil_subset _⟩
  | field it =>
      obtain ⟨linked, attached, made⟩ := ok_of_bind built
      obtain rfl := eq_owned_of_attach attached
      have same : (owned body.info.id it).initials = it.initials := rfl
      split at made
      · obtain rfl := Except.ok.inj made
        simp [Body.initials, initials, same]
      · obtain rfl := Except.ok.inj made
        simp [Body.initials, initials, same]

theorem among_initials_of_buildBody {info : NodeInfo} {members : List Member} {body : Body}
    (built : buildBody info members = .ok body) {member : Member} (listed : member ∈ members)
    (among : literal.Among member.initials) : literal.Among body.initials := by
  refine has_of_foldlM (fun body => literal.Among body.initials) ?_ ?_ listed built
  · intro whole other after added before
    exact before.mono (Member.initials_of_addTo added).1
  · intro whole after added
    exact among.mono (Member.initials_of_addTo added).2

end Grammar

theorem TypeDecl.initials_of_build {info : NodeInfo} {annotations : List Annot}
    {modifiers : Option Modifiers} {name : DottedName} {bases : List TypeRef} {body : Body}
    {decl : TypeDecl} (built : build info annotations modifiers name bases (some body) = .ok decl) :
    decl.initials = body.initials := by
  obtain ⟨_, _, built⟩ := ok_of_bind built
  obtain ⟨start, _, built⟩ := ok_of_bind built
  obtain ⟨linked, attached, made⟩ := ok_of_bind built
  obtain rfl := eq_owned_of_attach attached
  obtain rfl := Except.ok.inj made
  rfl

theorem SourceUnit.among_initials_of_build {info : NodeInfo} {file : String}
    {package : Option PackageClause} {imports : List ImportClause} {types : List TypeDecl}
    {unit : SourceUnit} (built : build info file package imports types = .ok unit) {decl : TypeDecl}
    (listed : decl ∈ types) (among : literal.Among decl.initials) : literal.Among unit.initials := by
  obtain ⟨_, _, built⟩ := ok_of_bind built
  obtain ⟨start, _, built⟩ := ok_of_bind built
  have added {whole after : SourceUnit} {other : TypeDecl} (step : whole.addType other = .ok after) :
      after.initials = whole.initials ++ other.initials := by
    obtain ⟨linked, attached, made⟩ := ok_of_bind step
    obtain rfl := eq_owned_of_attach attached
    obtain rfl := Except.ok.inj made
    simp only [initials, List.flatMap_append, List.flatMap_singleton]
    rfl
  refine has_of_foldlM (fun unit => literal.Among unit.initials) ?_ ?_ listed built
  · intro whole other after step before
    rw [added step]
    exact before.mono (List.subset_append_left _ _)
  · intro whole after step
    rw [added step]
    exact among.mono (List.subset_append_right _ _)

end Beagle
