import Beagle.Tree.Node
import Mathlib.Data.List.Nodup
import Mathlib.Data.List.Perm.Basic

/-!
Ownership in trees.  Nodes that nothing owns yet can be put together without fault, and the result is
the node with its parts linked to it.  A forest is a list of trees whose ids lie apart, in a range, and
below which every link leads to the node that lists it as a child.
-/

namespace Beagle

section Attaching

variable {α β : Type} [HasInfo α]

def Loose (child : α) : Prop :=
  (HasInfo.info child).parent = none

def owned (parent : Nat) (child : α) : α :=
  HasInfo.withInfo child { HasInfo.info child with parent := some parent }

theorem attach_eq_owned {parent : Nat} {child : α} (loose : Loose child) :
    attach parent child = .ok (owned parent child) := by
  have unset : (HasInfo.info child).attach parent =
      .ok { HasInfo.info child with parent := some parent } := by
    rw [NodeInfo.attach, show (HasInfo.info child).parent = none from loose]
  rw [attach, unset]
  rfl

theorem mapM_attach_eq {parent : Nat} {children : List α} (loose : ∀ child ∈ children, Loose child) :
    children.mapM (attach parent) = (.ok (children.map (owned parent)) : Except AttachFault _) := by
  induction children with
  | nil => rfl
  | cons child children ih =>
      rw [List.mapM_cons, attach_eq_owned (loose child (by simp)),
        ih fun other member => loose other (by simp [member])]
      rfl

theorem option_mapM_attach_eq {parent : Nat} {child : Option α}
    (loose : ∀ value ∈ child, Loose value) :
    child.mapM (attach parent) = (.ok (child.map (owned parent)) : Except AttachFault _) := by
  cases child with
  | none => rfl
  | some value =>
      have set : attach parent value = .ok (owned parent value) := attach_eq_owned (loose value rfl)
      simp only [Option.mapM_some, set]
      rfl

omit [HasInfo α] in
theorem foldlM_eq_put {add : β → α → Assembly β} (put : β → List α → β)
    (nothing : ∀ whole, put whole [] = whole)
    (more : ∀ whole part parts, put (put whole [part]) parts = put whole (part :: parts))
    {parts : List α} (adds : ∀ whole, ∀ part ∈ parts, add whole part = .ok (put whole [part]))
    (whole : β) : parts.foldlM add whole = .ok (put whole parts) := by
  induction parts generalizing whole with
  | nil => rw [nothing]; rfl
  | cons part parts ih =>
      rw [List.foldlM_cons, adds whole part (by simp)]
      have rest := ih (fun whole other member => adds whole other (by simp [member]))
        (put whole [part])
      rwa [more] at rest

end Attaching

theorem Annot.make_eq {info : NodeInfo} {type : TypeRef} (loose : Loose type) :
    Annot.make info type = .ok ⟨info, owned info.id type⟩ := by
  rw [make, attach_eq_owned loose]
  rfl

theorem Param.make_eq {info : NodeInfo} {name : String} {type : TypeRef} (loose : Loose type) :
    Param.make info name type = .ok ⟨info, name, owned info.id type⟩ := by
  rw [make, attach_eq_owned loose]
  rfl

def Declarator.owned (parent : Nat) (declarator : Declarator) : Declarator :=
  { declarator with initial := declarator.initial.map (Beagle.owned parent) }

theorem Field.make_eq {info : NodeInfo} {kind : FieldKind} {annotations : List Annot}
    {modifiers : Option Modifiers} {type : Option TypeRef}
    (looseAnnotations : ∀ annot ∈ annotations, Loose annot) (looseType : ∀ value ∈ type, Loose value) :
    Field.make info kind annotations modifiers type =
      .ok ⟨info, kind, annotations.map (owned info.id), modifiers, type.map (owned info.id), []⟩ := by
  rw [make, mapM_attach_eq looseAnnotations, option_mapM_attach_eq looseType]
  rfl

theorem Field.foldlM_addDeclarator {declarators : List Declarator}
    (loose : ∀ declarator ∈ declarators, ∀ initial ∈ declarator.initial, Loose initial)
    (field : Field) :
    declarators.foldlM Field.addDeclarator field =
      .ok { field with declarators :=
        field.declarators ++ declarators.map (Declarator.owned field.info.id) } := by
  refine foldlM_eq_put (fun field declarators => { field with
    declarators := field.declarators ++ declarators.map (Declarator.owned field.info.id) })
    (by simp) (by simp) ?_ field
  intro field declarator member
  rw [addDeclarator, option_mapM_attach_eq (loose declarator member)]
  rfl

theorem Field.build_eq {info : NodeInfo} {kind : FieldKind} {annotations : List Annot}
    {modifiers : Option Modifiers} {type : Option TypeRef} {declarators : List Declarator}
    (looseAnnotations : ∀ annot ∈ annotations, Loose annot) (looseType : ∀ value ∈ type, Loose value)
    (looseInitials : ∀ declarator ∈ declarators, ∀ initial ∈ declarator.initial, Loose initial) :
    Field.build info kind annotations modifiers type declarators =
      .ok ⟨info, kind, annotations.map (owned info.id), modifiers, type.map (owned info.id),
        declarators.map (Declarator.owned info.id)⟩ := by
  rw [build, make_eq looseAnnotations looseType]
  exact foldlM_addDeclarator looseInitials _

theorem Method.make_eq {info : NodeInfo} {annotations : List Annot} {modifiers : Option Modifiers}
    {name : String} (loose : ∀ annot ∈ annotations, Loose annot) :
    Method.make info annotations modifiers name =
      .ok ⟨info, annotations.map (owned info.id), modifiers, name, [], none, none⟩ := by
  rw [make, mapM_attach_eq loose]
  rfl

theorem Method.foldlM_addParam {params : List Param} (loose : ∀ param ∈ params, Loose param)
    (method : Method) :
    params.foldlM Method.addParam method =
      .ok { method with params := method.params ++ params.map (owned method.info.id) } := by
  refine foldlM_eq_put (fun method params =>
    { method with params := method.params ++ params.map (owned method.info.id) })
    (by simp) (by simp) ?_ method
  intro method param member
  rw [addParam, attach_eq_owned (loose param member)]
  rfl

theorem Method.setResult_eq {type : TypeRef} (loose : Loose type) (method : Method) :
    method.setResult type = .ok { method with result := some (owned method.info.id type) } := by
  rw [setResult, attach_eq_owned loose]
  rfl

theorem Method.setBody_eq {block : Block} (loose : Loose block) (method : Method) :
    method.setBody block = .ok { method with body := some (owned method.info.id block) } := by
  rw [setBody, attach_eq_owned loose]
  rfl

theorem Method.build_eq {info : NodeInfo} {annotations : List Annot} {modifiers : Option Modifiers}
    {name : String} {params : List Param} {result : Option TypeRef} {body : Option Block}
    (looseAnnotations : ∀ annot ∈ annotations, Loose annot) (looseParams : ∀ param ∈ params, Loose param)
    (looseResult : ∀ type ∈ result, Loose type) (looseBody : ∀ block ∈ body, Loose block) :
    Method.build info annotations modifiers name params result body =
      .ok ⟨info, annotations.map (owned info.id), modifiers, name, params.map (owned info.id),
        result.map (owned info.id), body.map (owned info.id)⟩ := by
  rw [build, make_eq looseAnnotations]
  change (params.foldlM addParam _ >>= _) = _
  rw [foldlM_addParam looseParams]
  cases result with
  | none =>
      cases body with
      | none => rfl
      | some block => exact setBody_eq (looseBody block rfl) _
  | some type =>
      change (setResult _ type >>= _) = _
      rw [setResult_eq (looseResult type rfl)]
      cases body with
      | none => rfl
      | some block => exact setBody_eq (looseBody block rfl) _

theorem Body.addField_eq {field : Field} (loose : Loose field) (body : Body) :
    body.addField field = .ok (match field.kind with
      | .mutable => { body with vars := body.vars ++ [owned body.info.id field] }
      | .constant => { body with consts := body.consts ++ [owned body.info.id field] }) := by
  rw [addField, attach_eq_owned loose]
  change (match field.kind with
    | .mutable => _
    | .constant => _) = _
  cases field.kind <;> rfl

theorem Body.addMethod_eq {method : Method} (loose : Loose method) (body : Body) :
    body.addMethod method =
      .ok { body with methods := body.methods ++ [owned body.info.id method] } := by
  rw [addMethod, attach_eq_owned loose]
  rfl

theorem TypeDecl.make_eq {info : NodeInfo} {annotations : List Annot} {modifiers : Option Modifiers}
    {name : DottedName} (loose : ∀ annot ∈ annotations, Loose annot) :
    TypeDecl.make info annotations modifiers name =
      .ok ⟨info, annotations.map (owned info.id), modifiers, name, [], none⟩ := by
  rw [make, mapM_attach_eq loose]
  rfl

theorem TypeDecl.foldlM_addBase {bases : List TypeRef} (loose : ∀ base ∈ bases, Loose base)
    (decl : TypeDecl) :
    bases.foldlM TypeDecl.addBase decl =
      .ok { decl with bases := decl.bases ++ bases.map (owned decl.info.id) } := by
  refine foldlM_eq_put (fun decl bases =>
    { decl with bases := decl.bases ++ bases.map (owned decl.info.id) })
    (by simp) (by simp) ?_ decl
  intro decl base member
  rw [addBase, attach_eq_owned (loose base member)]
  rfl

theorem TypeDecl.setBody_eq {body : Body} (loose : Loose body) (decl : TypeDecl) :
    decl.setBody body = .ok { decl with body := some (owned decl.info.id body) } := by
  rw [setBody, attach_eq_owned loose]
  rfl

theorem TypeDecl.build_eq {info : NodeInfo} {annotations : List Annot} {modifiers : Option Modifiers}
    {name : DottedName} {bases : List TypeRef} {body : Option Body}
    (looseAnnotations : ∀ annot ∈ annotations, Loose annot) (looseBases : ∀ base ∈ bases, Loose base)
    (looseBody : ∀ part ∈ body, Loose part) :
    TypeDecl.build info annotations modifiers name bases body =
      .ok ⟨info, annotations.map (owned info.id), modifiers, name, bases.map (owned info.id),
        body.map (owned info.id)⟩ := by
  rw [build, make_eq looseAnnotations]
  change (bases.foldlM addBase _ >>= _) = _
  rw [foldlM_addBase looseBases]
  cases body with
  | none => rfl
  | some part => exact setBody_eq (looseBody part rfl) _

theorem SourceUnit.make_eq {info : NodeInfo} {file : String} {package : Option PackageClause}
    (loose : ∀ clause ∈ package, Loose clause) :
    SourceUnit.make info file package = .ok ⟨info, file, package.map (owned info.id), [], []⟩ := by
  rw [make, option_mapM_attach_eq loose]
  rfl

theorem SourceUnit.foldlM_addImport {imports : List ImportClause}
    (loose : ∀ clause ∈ imports, Loose clause) (unit : SourceUnit) :
    imports.foldlM SourceUnit.addImport unit =
      .ok { unit with imports := unit.imports ++ imports.map (owned unit.info.id) } := by
  refine foldlM_eq_put (fun unit imports =>
    { unit with imports := unit.imports ++ imports.map (owned unit.info.id) })
    (by simp) (by simp) ?_ unit
  intro unit clause member
  rw [addImport, attach_eq_owned (loose clause member)]
  rfl

theorem SourceUnit.foldlM_addType {types : List TypeDecl} (loose : ∀ decl ∈ types, Loose decl)
    (unit : SourceUnit) :
    types.foldlM SourceUnit.addType unit =
      .ok { unit with types := unit.types ++ types.map (owned unit.info.id) } := by
  refine foldlM_eq_put (fun unit types =>
    { unit with types := unit.types ++ types.map (owned unit.info.id) })
    (by simp) (by simp) ?_ unit
  intro unit decl member
  rw [addType, attach_eq_owned (loose decl member)]
  rfl

theorem SourceUnit.build_eq {info : NodeInfo} {file : String} {package : Option PackageClause}
    {imports : List ImportClause} {types : List TypeDecl}
    (loosePackage : ∀ clause ∈ package, Loose clause) (looseImports : ∀ clause ∈ imports, Loose clause)
    (looseTypes : ∀ decl ∈ types, Loose decl) :
    SourceUnit.build info file package imports types =
      .ok ⟨info, file, package.map (owned info.id), imports.map (owned info.id),
        types.map (owned info.id)⟩ := by
  rw [build, make_eq loosePackage]
  change (imports.foldlM addImport _ >>= _) = _
  rw [foldlM_addImport looseImports]
  exact foldlM_addType looseTypes _

namespace Node

def ownedBy (parent : Nat) : Node → Node
  | .unit it => .unit { it with info.parent := some parent }
  | .package it => .package (owned parent it)
  | .importClause it => .importClause (owned parent it)
  | .annot it => .annot (owned parent it)
  | .type it => .type (owned parent it)
  | .body it => .body (owned parent it)
  | .field it => .field (owned parent it)
  | .method it => .method (owned parent it)
  | .param it => .param (owned parent it)
  | .typeRef it => .typeRef (owned parent it)
  | .literal it => .literal (owned parent it)
  | .block it => .block (owned parent it)

@[simp] theorem id_ownedBy (node : Node) (parent : Nat) : (node.ownedBy parent).id = node.id := by
  cases node <;> rfl

@[simp] theorem children_ownedBy (node : Node) (parent : Nat) :
    (node.ownedBy parent).children = node.children := by
  cases node <;> rfl

theorem parent_ownedBy (node : Node) (parent : Nat) :
    (node.ownedBy parent).info.parent = some parent := by
  cases node <;> rfl

def all (nodes : List Node) : List Node :=
  nodes.flatMap preorder

@[simp] theorem all_nil : all [] = [] := rfl

@[simp] theorem all_cons (node : Node) (nodes : List Node) :
    all (node :: nodes) = node :: (all node.children ++ all nodes) := by
  rw [all, List.flatMap_cons, preorder_eq]
  rfl

@[simp] theorem all_append (first second : List Node) : all (first ++ second) = all first ++ all second := by
  simp [all]

/-- What holds of a list of trees if it holds of the trees below its first node and of the other trees. -/
@[elab_as_elim]
theorem forest_induct {motive : List Node → Prop} (nodes : List Node) (nil : motive [])
    (cons : ∀ node nodes, motive node.children → motive nodes → motive (node :: nodes)) :
    motive nodes := by
  have siblings (nodes : List Node) (below : ∀ node ∈ nodes, motive node.children) : motive nodes := by
    induction nodes with
    | nil => exact nil
    | cons node nodes ih =>
        exact cons node nodes (below node List.mem_cons_self)
          (ih fun other member => below other (List.mem_cons_of_mem _ member))
  have inside (node : Node) : motive node.children := by
    induction node using preorder.induct with
    | case1 node ih => exact siblings node.children fun child isChild => ih ⟨child, isChild⟩
  exact siblings nodes fun node _ => inside node

theorem mem_all_of_mem {nodes : List Node} {node : Node} (member : node ∈ nodes) :
    node ∈ all nodes := by
  refine List.mem_flatMap.mpr ⟨node, member, ?_⟩
  rw [preorder_eq]
  exact List.mem_cons_self

theorem all_perm {first second : List Node} (perm : first.Perm second) :
    (all first).Perm (all second) :=
  perm.flatMap_right preorder

theorem all_map_ownedBy (nodes : List Node) (parent : Nat) :
    (all (nodes.map (ownedBy parent))).map Node.id = (all nodes).map Node.id := by
  induction nodes with
  | nil => rfl
  | cons node nodes ih => simp [ih]

theorem mem_all_map_ownedBy {nodes : List Node} {parent : Nat} {node : Node}
    (member : node ∈ all (nodes.map (ownedBy parent))) :
    ∃ other ∈ all nodes, other.id = node.id ∧ other.children = node.children := by
  induction nodes with
  | nil => simp at member
  | cons first nodes ih =>
      simp only [List.map_cons, all_cons, List.mem_cons, List.mem_append, children_ownedBy] at member
      rcases member with root | below | later
      · exact ⟨first, by simp, by simp [root]⟩
      · exact ⟨node, by simp [below], rfl, rfl⟩
      · obtain ⟨other, found, same⟩ := ih later
        exact ⟨other, by simp [found], same⟩

end Node

/-- Trees with ids from `low` on and below `high`. -/
structure Forest (nodes : List Node) (low high : Nat) : Prop where
  distinct : ((Node.all nodes).map Node.id).Nodup
  within : ∀ node ∈ Node.all nodes, low ≤ node.id ∧ node.id < high
  linked : ∀ node ∈ Node.all nodes, ∀ child ∈ node.children,
    child.info.parent = some node.id ∧ node.id < child.id

namespace Forest

theorem nil (low high : Nat) : Forest [] low high := by
  constructor <;> simp

theorem append {first second : List Node} {low middle high : Nat} (early : Forest first low middle)
    (late : Forest second middle high) (below : low ≤ middle) (above : middle ≤ high) :
    Forest (first ++ second) low high := by
  constructor
  · rw [Node.all_append, List.map_append]
    refine List.Nodup.append early.distinct late.distinct ?_
    intro id inFirst inSecond
    obtain ⟨node, member, rfl⟩ := List.mem_map.mp inFirst
    obtain ⟨other, otherMember, same⟩ := List.mem_map.mp inSecond
    have upper := (early.within node member).2
    have lower := (late.within other otherMember).1
    omega
  · intro node member
    rw [Node.all_append, List.mem_append] at member
    rcases member with inFirst | inSecond
    · have bounds := early.within node inFirst
      omega
    · have bounds := late.within node inSecond
      omega
  · intro node member
    rw [Node.all_append, List.mem_append] at member
    rcases member with inFirst | inSecond
    · exact early.linked node inFirst
    · exact late.linked node inSecond

theorem perm {first second : List Node} {low high : Nat} (forest : Forest first low high)
    (perm : first.Perm second) : Forest second low high := by
  have same := Node.all_perm perm
  exact ⟨(same.map Node.id).nodup_iff.mp forest.distinct,
    fun node member => forest.within node (same.mem_iff.mpr member),
    fun node member => forest.linked node (same.mem_iff.mpr member)⟩

theorem map_ownedBy {nodes : List Node} {low high : Nat} (forest : Forest nodes low high)
    (parent : Nat) : Forest (nodes.map (Node.ownedBy parent)) low high := by
  constructor
  · rw [Node.all_map_ownedBy]
    exact forest.distinct
  · intro node member
    obtain ⟨other, found, sameId, _⟩ := Node.mem_all_map_ownedBy member
    exact sameId ▸ forest.within other found
  · intro node member
    obtain ⟨other, found, sameId, sameChildren⟩ := Node.mem_all_map_ownedBy member
    rw [← sameId, ← sameChildren]
    exact forest.linked other found

theorem root {node : Node} {parts : List Node} {high : Nat}
    (forest : Forest parts (node.id + 1) high) (below : node.id < high)
    (owns : node.children.Perm (parts.map (Node.ownedBy node.id))) :
    Forest [node] node.id high := by
  have inside := (forest.map_ownedBy node.id).perm owns.symm
  have later (other : Node) (member : other ∈ Node.all node.children) : node.id < other.id :=
    (inside.within other member).1
  constructor
  · simp only [Node.all_cons, Node.all_nil, List.append_nil, List.map_cons, List.nodup_cons]
    refine ⟨?_, inside.distinct⟩
    intro again
    obtain ⟨other, member, same⟩ := List.mem_map.mp again
    have := later other member
    omega
  · simp only [Node.all_cons, Node.all_nil, List.append_nil, List.mem_cons]
    rintro other (rfl | member)
    · exact ⟨Nat.le_refl _, below⟩
    · have bounds := inside.within other member
      omega
  · simp only [Node.all_cons, Node.all_nil, List.append_nil, List.mem_cons]
    rintro other (rfl | member) child isChild
    · obtain ⟨part, _, rfl⟩ := List.mem_map.mp (owns.mem_iff.mp isChild)
      exact ⟨part.parent_ownedBy _, later _ (Node.mem_all_of_mem isChild)⟩
    · exact inside.linked other member child isChild

end Forest

end Beagle
