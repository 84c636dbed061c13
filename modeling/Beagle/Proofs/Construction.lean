import Beagle.Proofs.Ownership

/-!
Trees put together part by part.  Whatever ids the nodes have and whatever order the parts come in, a
node that was put together without a fault owns its parts: below it every link leads to the node that
lists the linked one.
-/

namespace Beagle

section Attached

variable {α β : Type} [HasInfo α]

omit [HasInfo α] in
theorem ok_of_bind {part : Assembly α} {next : α → Assembly β} {whole : β}
    (built : part >>= next = .ok whole) : ∃ value, part = .ok value ∧ next value = .ok whole := by
  cases part with
  | error fault => cases built
  | ok value => exact ⟨value, rfl, built⟩

omit [HasInfo α] in
theorem kept_of_foldlM {add : β → α → Assembly β} {parts : List α} (has : β → Prop)
    (keeps : ∀ whole part after, part ∈ parts → add whole part = .ok after → has whole → has after)
    {whole after : β} (before : has whole) (built : parts.foldlM add whole = .ok after) : has after := by
  induction parts generalizing whole with
  | nil =>
      obtain rfl : whole = after := Except.ok.inj built
      exact before
  | cons first parts ih =>
      rw [List.foldlM_cons] at built
      obtain ⟨middle, added, onward⟩ := ok_of_bind built
      refine ih (fun whole part after member => keeps whole part after (List.mem_cons_of_mem _ member)) ?_ onward
      exact keeps whole first middle List.mem_cons_self added before

theorem eq_owned_of_attach {parent : Nat} {child linked : α}
    (attached : attach parent child = .ok linked) : linked = owned parent child := by
  cases link : (HasInfo.info child).parent with
  | none =>
      rw [attach_eq_owned link] at attached
      exact (Except.ok.inj attached).symm
  | some earlier =>
      rw [attach, NodeInfo.attach, link] at attached
      cases attached

theorem eq_map_owned_of_mapM {parent : Nat} {children linked : List α}
    (attached : children.mapM (attach parent) = (.ok linked : Assembly (List α))) :
    linked = children.map (owned parent) := by
  induction children generalizing linked with
  | nil => exact (Except.ok.inj attached).symm
  | cons child children ih =>
      rw [List.mapM_cons] at attached
      obtain ⟨first, attachedFirst, attached⟩ := ok_of_bind attached
      obtain ⟨others, attachedOthers, attached⟩ := ok_of_bind attached
      obtain rfl : first :: others = linked := Except.ok.inj attached
      rw [eq_owned_of_attach attachedFirst, ih attachedOthers, List.map_cons]

theorem eq_map_owned_of_option_mapM {parent : Nat} {child linked : Option α}
    (attached : child.mapM (attach parent) = (.ok linked : Assembly (Option α))) :
    linked = child.map (owned parent) := by
  cases child with
  | none => exact (Except.ok.inj attached).symm
  | some child =>
      rw [Option.mapM_some] at attached
      obtain ⟨value, attachedValue, attached⟩ := ok_of_bind attached
      obtain rfl : some value = linked := Except.ok.inj attached
      rw [eq_owned_of_attach attachedValue, Option.map_some]

end Attached

namespace Node

def Linked (root : Node) : Prop :=
  ∀ owner ∈ root.preorder, ∀ child ∈ owner.children, child.info.parent = some owner.id

theorem linked_iff {node : Node} :
    node.Linked ↔ ∀ child ∈ node.children, child.info.parent = some node.id ∧ child.Linked := by
  unfold Linked
  rw [preorder_eq]
  constructor
  · intro linked child isChild
    refine ⟨linked node List.mem_cons_self child isChild, fun owner below => ?_⟩
    exact linked owner (List.mem_cons_of_mem _ (List.mem_flatMap.mpr ⟨child, isChild, below⟩))
  · intro parts owner member child isChild
    rcases List.mem_cons.mp member with rfl | below
    · exact (parts child isChild).1
    · obtain ⟨part, isPart, inside⟩ := List.mem_flatMap.mp below
      exact (parts part isPart).2 owner inside child isChild

theorem Linked.ownedBy {node : Node} (linked : node.Linked) (parent : Nat) :
    (node.ownedBy parent).info.parent = some parent ∧ (node.ownedBy parent).Linked := by
  refine ⟨parent_ownedBy node parent, linked_iff.mpr fun child isChild => ?_⟩
  rw [children_ownedBy] at isChild
  rw [id_ownedBy]
  exact linked_iff.mp linked child isChild

theorem linked_of_parts {node : Node} (parts : List Node) (linked : ∀ part ∈ parts, part.Linked)
    (children : node.children = parts.map (Node.ownedBy node.id)) : node.Linked := by
  refine linked_iff.mpr fun child isChild => ?_
  rw [children] at isChild
  obtain ⟨part, isPart, rfl⟩ := List.mem_map.mp isChild
  exact (linked part isPart).ownedBy node.id

/-- The node kept its id, lost parts perhaps, and more parts were attached to it. -/
theorem Linked.add {before after : Node} (whole : before.Linked) (parts : List Node)
    (linked : ∀ part ∈ parts, part.Linked) (same : after.id = before.id)
    (children : ∀ child ∈ after.children,
      child ∈ before.children ∨ child ∈ parts.map (Node.ownedBy before.id)) : after.Linked := by
  refine linked_iff.mpr fun child isChild => ?_
  rw [same]
  rcases children child isChild with old | new
  · exact linked_iff.mp whole child old
  · obtain ⟨part, isPart, rfl⟩ := List.mem_map.mp new
    exact (linked part isPart).ownedBy before.id

theorem linked_of_single {node : Node} (childless : node.children = []) : node.Linked :=
  linked_iff.mpr fun child isChild => by simp [childless] at isChild

end Node

inductive Assembled : Node → Prop
  | single {node : Node} : node.children = [] → Assembled node
  | annot {info : NodeInfo} {type : TypeRef} {annot : Annot} :
      Annot.make info type = .ok annot → Assembled (.annot annot)
  | param {info : NodeInfo} {name : String} {type : TypeRef} {param : Param} :
      Param.make info name type = .ok param → Assembled (.param param)
  | field {info : NodeInfo} {kind : FieldKind} {annotations : List Annot}
      {modifiers : Option Modifiers} {type : Option TypeRef} {field : Field} :
      (∀ annot ∈ annotations, Assembled (.annot annot)) →
      Field.make info kind annotations modifiers type = .ok field → Assembled (.field field)
  | addAnnot {before after : Field} {annot : Annot} :
      Assembled (.field before) → Assembled (.annot annot) →
      before.addAnnot annot = .ok after → Assembled (.field after)
  | addDeclarator {before after : Field} {declarator : Declarator} :
      Assembled (.field before) → before.addDeclarator declarator = .ok after → Assembled (.field after)
  | method {info : NodeInfo} {annotations : List Annot} {modifiers : Option Modifiers} {name : String}
      {method : Method} :
      (∀ annot ∈ annotations, Assembled (.annot annot)) →
      Method.make info annotations modifiers name = .ok method → Assembled (.method method)
  | addParam {before after : Method} {param : Param} :
      Assembled (.method before) → Assembled (.param param) →
      before.addParam param = .ok after → Assembled (.method after)
  | setResult {before after : Method} {type : TypeRef} :
      Assembled (.method before) → before.setResult type = .ok after → Assembled (.method after)
  | setBlock {before after : Method} {block : Block} :
      Assembled (.method before) → before.setBody block = .ok after → Assembled (.method after)
  | addField {before after : Body} {field : Field} :
      Assembled (.body before) → Assembled (.field field) →
      before.addField field = .ok after → Assembled (.body after)
  | addMethod {before after : Body} {method : Method} :
      Assembled (.body before) → Assembled (.method method) →
      before.addMethod method = .ok after → Assembled (.body after)
  | type {info : NodeInfo} {annotations : List Annot} {modifiers : Option Modifiers} {name : DottedName}
      {decl : TypeDecl} :
      (∀ annot ∈ annotations, Assembled (.annot annot)) →
      TypeDecl.make info annotations modifiers name = .ok decl → Assembled (.type decl)
  | addBase {before after : TypeDecl} {base : TypeRef} :
      Assembled (.type before) → before.addBase base = .ok after → Assembled (.type after)
  | setBody {before after : TypeDecl} {body : Body} :
      Assembled (.type before) → Assembled (.body body) →
      before.setBody body = .ok after → Assembled (.type after)
  | unit {info : NodeInfo} {file : String} {package : Option PackageClause} {unit : SourceUnit} :
      SourceUnit.make info file package = .ok unit → Assembled (.unit unit)
  | addImport {before after : SourceUnit} {clause : ImportClause} :
      Assembled (.unit before) → before.addImport clause = .ok after → Assembled (.unit after)
  | addType {before after : SourceUnit} {decl : TypeDecl} :
      Assembled (.unit before) → Assembled (.type decl) →
      before.addType decl = .ok after → Assembled (.unit after)

namespace Assembled

theorem linked_of_step {α β : Type} [HasInfo α] (ofWhole : β → Node) (ofPart : α → Node)
    {before after : β} {part : α} {put : α → β} (whole : (ofWhole before).Linked)
    (linked : (ofPart part).Linked)
    (built : (attach (ofWhole before).id part >>= fun part => pure (put part)) = .ok after)
    (same : (ofWhole (put (owned (ofWhole before).id part))).id = (ofWhole before).id)
    (children : ∀ child ∈ (ofWhole (put (owned (ofWhole before).id part))).children,
      child ∈ (ofWhole before).children ∨ child = (ofPart part).ownedBy (ofWhole before).id) :
    (ofWhole after).Linked := by
  obtain ⟨attached, isAttached, built⟩ := ok_of_bind built
  obtain rfl := eq_owned_of_attach isAttached
  obtain rfl := Except.ok.inj built
  exact whole.add [ofPart part] (by simpa using linked) same (by simpa using children)

theorem linked_of_typed {node : Node} {type attached : TypeRef}
    (isAttached : attach node.id type = .ok attached) (children : node.children = [.typeRef attached]) :
    node.Linked := by
  obtain rfl := eq_owned_of_attach isAttached
  refine Node.linked_of_parts [.typeRef type] ?_ children
  grind [Node.linked_of_single, Node.children]

theorem linked_of_annotated {node : Node} {annotations attached : List Annot}
    (linked : ∀ annot ∈ annotations, (Node.annot annot).Linked)
    (areAttached : annotations.mapM (attach node.id) = (.ok attached : Assembly (List Annot)))
    (children : node.children = attached.map .annot) : node.Linked := by
  obtain rfl := eq_map_owned_of_mapM areAttached
  refine Node.linked_of_parts (annotations.map .annot) ?_ ?_
  · grind
  · simp [children, Node.ownedBy]

theorem linked {node : Node} (assembled : Assembled node) : node.Linked := by
  induction assembled with
  | single childless => exact Node.linked_of_single childless
  | annot built =>
      obtain ⟨attached, isAttached, built⟩ := ok_of_bind built
      obtain rfl := Except.ok.inj built
      exact linked_of_typed isAttached rfl
  | param built =>
      obtain ⟨attached, isAttached, built⟩ := ok_of_bind built
      obtain rfl := Except.ok.inj built
      exact linked_of_typed isAttached rfl
  | @field info kind annotations modifiers type field _ built linked =>
      obtain ⟨annots, areAnnots, built⟩ := ok_of_bind built
      obtain ⟨types, isType, built⟩ := ok_of_bind built
      obtain rfl := eq_map_owned_of_mapM areAnnots
      obtain rfl := eq_map_owned_of_option_mapM isType
      obtain rfl := Except.ok.inj built
      refine Node.linked_of_parts (annotations.map .annot ++ type.toList.map .typeRef) ?_ ?_
      · grind [Node.linked_of_single, Node.children]
      · cases type <;> simp [Node.children, Node.ownedBy, Node.id, Node.info]
  | addAnnot _ _ built whole linked =>
      refine linked_of_step .field .annot whole linked built rfl ?_
      grind [Node.children, Node.ownedBy]
  | @addDeclarator before after declarator _ built whole =>
      obtain ⟨initial, isInitial, built⟩ := ok_of_bind built
      obtain rfl := eq_map_owned_of_option_mapM isInitial
      obtain rfl := Except.ok.inj built
      refine whole.add (declarator.initial.toList.map .literal) ?_ rfl ?_
      · grind [Node.linked_of_single, Node.children]
      · intro child
        simp only [Node.children, List.filterMap_append, List.map_append, List.mem_append]
        cases declarator.initial with
        | none => simp +contextual
        | some initial =>
            rintro (old | kept | new)
            · exact .inl (.inl old)
            · exact .inl (.inr kept)
            · exact .inr new
  | method _ built linked =>
      obtain ⟨attached, areAttached, built⟩ := ok_of_bind built
      obtain rfl := Except.ok.inj built
      exact linked_of_annotated linked areAttached (by simp [Node.children])
  | addParam _ _ built whole linked =>
      refine linked_of_step .method .param whole linked built rfl ?_
      grind [Node.children, Node.ownedBy]
  | setResult _ built whole =>
      refine linked_of_step .method .typeRef whole (Node.linked_of_single rfl) built rfl ?_
      grind [Node.children, Node.ownedBy]
  | setBlock _ built whole =>
      refine linked_of_step .method .block whole (Node.linked_of_single rfl) built rfl ?_
      grind [Node.children, Node.ownedBy]
  | @addField before after field _ _ built whole linked =>
      obtain ⟨attached, isAttached, built⟩ := ok_of_bind built
      obtain rfl := eq_owned_of_attach isAttached
      split at built
      · obtain rfl := Except.ok.inj built
        refine whole.add [.field field] (by simpa using linked) rfl ?_
        grind [Node.children, Node.ownedBy, Node.id, Node.info]
      · obtain rfl := Except.ok.inj built
        refine whole.add [.field field] (by simpa using linked) rfl ?_
        grind [Node.children, Node.ownedBy, Node.id, Node.info]
  | addMethod _ _ built whole linked =>
      refine linked_of_step .body .method whole linked built rfl ?_
      grind [Node.children, Node.ownedBy]
  | type _ built linked =>
      obtain ⟨attached, areAttached, built⟩ := ok_of_bind built
      obtain rfl := Except.ok.inj built
      exact linked_of_annotated linked areAttached (by simp [Node.children])
  | addBase _ built whole =>
      refine linked_of_step .type .typeRef whole (Node.linked_of_single rfl) built rfl ?_
      grind [Node.children, Node.ownedBy]
  | setBody _ _ built whole linked =>
      refine linked_of_step .type .body whole linked built rfl ?_
      grind [Node.children, Node.ownedBy]
  | @unit info file package unit built =>
      obtain ⟨clause, isClause, built⟩ := ok_of_bind built
      obtain rfl := eq_map_owned_of_option_mapM isClause
      obtain rfl := Except.ok.inj built
      refine Node.linked_of_parts (package.toList.map .package) ?_ ?_
      · grind [Node.linked_of_single, Node.children]
      · cases package <;> rfl
  | addImport _ built whole =>
      refine linked_of_step .unit .importClause whole (Node.linked_of_single rfl) built rfl ?_
      grind [Node.children, Node.ownedBy]
  | addType _ _ built whole linked =>
      refine linked_of_step .unit .type whole linked built rfl ?_
      grind [Node.children, Node.ownedBy]

end Assembled

end Beagle
