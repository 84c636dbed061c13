import Beagle.Proofs.Construction
import Beagle.Proofs.TreeShape
import Beagle.Tree.Node

/-!
What lookups find.  A search by id finds the first node in preorder.  Where ids are distinct and every
link leads to the node that lists the linked one, a search that follows the links from a node meets
exactly the nodes above it, nearest first.
-/

namespace Beagle

namespace Node

theorem foldl_walk_finder (nodes : List Node) (id : Nat) (found : Option Node) :
    nodes.foldl (fun found node => node.walk (.finder id) found) found =
      found.or ((all nodes).find? fun other => other.id = id) := by
  induction nodes using forest_induct generalizing found with
  | nil => simp
  | cons node nodes below later =>
      have walked : node.walk (.finder id) found =
          found.or ((node :: all node.children).find? fun other => other.id = id) := by
        rw [walk_eq]
        cases found with
        | some earlier => rfl
        | none =>
            by_cases isHere : node.id = id
            · simp [Visitor.finder, isHere]
            · simpa [Visitor.finder, isHere] using below none
      rw [List.foldl_cons, later, walked, all_cons, ← List.cons_append, List.find?_append,
        Option.or_assoc]

theorem mem_preorder_of_mem_children {root owner child : Node} (member : owner ∈ root.preorder)
    (isChild : child ∈ owner.children) : child ∈ root.preorder := by
  induction root using preorder.induct with
  | case1 root ih =>
      rw [preorder_eq, List.mem_cons, List.mem_flatMap] at member ⊢
      rcases member with rfl | ⟨part, isPart, below⟩
      · refine .inr ⟨child, isChild, ?_⟩
        rw [preorder_eq]
        exact List.mem_cons_self
      · exact .inr ⟨part, isPart, ih ⟨part, isPart⟩ below⟩

def type? : Node → Option TypeDecl
  | .type decl => some decl
  | _ => none

theorem findSome?_type?_eq_none_iff {nodes : List Node} :
    nodes.findSome? type? = none ↔ ∀ decl, .type decl ∉ nodes := by
  rw [List.findSome?_eq_none_iff]
  constructor
  · intro others decl member
    cases others _ member
  · intro others node member
    cases node with
    | type decl => exact absurd member (others decl)
    | _ => rfl

end Node

theorem find?_of_nodup {nodes : List Node} (distinct : (nodes.map Node.id).Nodup) {node : Node}
    (member : node ∈ nodes) : nodes.find? (fun other => other.id = node.id) = some node := by
  induction nodes with
  | nil => simp at member
  | cons first nodes ih =>
      rw [List.map_cons, List.nodup_cons] at distinct
      rcases List.mem_cons.mp member with rfl | later
      · simp
      · have apart : first.id ≠ node.id := by
          intro same
          exact distinct.1 (same ▸ List.mem_map_of_mem later)
        simpa [apart] using ih distinct.2 later

namespace SourceUnit

variable {unit : SourceUnit}

theorem find?_eq (unit : SourceUnit) (id : Nat) :
    unit.find? id = unit.visited.find? fun node => node.id = id := by
  rw [visited_eq_all]
  exact (Node.foldl_walk_finder [.unit unit] id none).trans Option.none_or

theorem mem_visited_of_mem_children {owner child : Node} (member : owner ∈ unit.visited)
    (isChild : child ∈ owner.children) : child ∈ unit.visited := by
  rw [visited_eq_preorder] at member ⊢
  exact Node.mem_preorder_of_mem_children member isChild

theorem find?_of_notMem {id : Nat} (absent : id ∉ unit.ids) : unit.find? id = none := by
  rw [find?_eq, List.find?_eq_none]
  intro node member same
  exact absent (List.mem_map.mpr ⟨node, member, by simpa using same⟩)

theorem parentOf?_of_notMem {id : Nat} (absent : id ∉ unit.ids) : unit.parentOf? id = none := by
  rw [parentOf?, find?_of_notMem absent]
  rfl

theorem enclosingType?_of_notMem {id : Nat} (absent : id ∉ unit.ids) :
    unit.enclosingType? id = none := by
  rw [enclosingType?, parentOf?_of_notMem absent]
  rfl

structure Linked (unit : SourceUnit) : Prop where
  root : unit.info.parent = none
  below : (Node.unit unit).Linked

theorem WellFormed.toLinked {low high : Nat} (wellFormed : unit.WellFormed low high) : unit.Linked := by
  refine ⟨wellFormed.root, fun owner member child isChild => ?_⟩
  rw [← visited_eq_preorder] at member
  exact (wellFormed.linked owner member child isChild).1

/-- The nodes above a node of the unit, from the one that owns it up to the unit itself. -/
inductive Above (unit : SourceUnit) : Node → List Node → Prop
  | root : Above unit (.unit unit) []
  | child {owner child : Node} {above : List Node} :
      Above unit owner above → child ∈ owner.children → Above unit child (owner :: above)

namespace Above

variable {node : Node} {above : List Node}

theorem mem_visited (path : unit.Above node above) : node ∈ unit.visited := by
  induction path with
  | root =>
      rw [visited_eq_preorder, Node.preorder_eq]
      exact List.mem_cons_self
  | child _ isChild ih => exact mem_visited_of_mem_children ih isChild

theorem subset_visited (path : unit.Above node above) : above ⊆ unit.visited := by
  induction path with
  | root => exact List.nil_subset _
  | child path _ ih => exact List.cons_subset.mpr ⟨path.mem_visited, ih⟩

/-- The nodes above a node are ever deeper, so that none of them comes twice. -/
theorem pairwise_depth (path : unit.Above node above) :
    (node :: above).Pairwise (·.depth < ·.depth) := by
  induction path with
  | root => simp
  | @child owner child above _ isChild ih =>
      refine List.pairwise_cons.mpr ⟨fun other member => ?_, ih⟩
      have step := Node.depth_lt_of_mem_children isChild
      rcases List.mem_cons.mp member with rfl | higher
      · exact step
      · have rest := (List.pairwise_cons.mp ih).1 other higher
        omega

theorem length_lt (path : unit.Above node above) : above.length < unit.visited.length := by
  have distinct : (node :: above).Nodup :=
    path.pairwise_depth.imp fun deeper same => by simp [same] at deeper
  have inside : node :: above ⊆ unit.visited :=
    List.cons_subset.mpr ⟨path.mem_visited, path.subset_visited⟩
  exact (distinct.subperm inside).length_le

end Above

theorem exists_above_of_mem_preorder {root node : Node} {above : List Node}
    (path : unit.Above root above) (member : node ∈ root.preorder) : ∃ nodes, unit.Above node nodes := by
  induction root using Node.preorder.induct generalizing above with
  | case1 root ih =>
      rw [Node.preorder_eq, List.mem_cons, List.mem_flatMap] at member
      rcases member with rfl | ⟨child, isChild, inside⟩
      · exact ⟨above, path⟩
      · exact ih ⟨child, isChild⟩ (path.child isChild) inside

theorem exists_above {node : Node} (member : node ∈ unit.visited) : ∃ above, unit.Above node above := by
  rw [visited_eq_preorder] at member
  exact exists_above_of_mem_preorder .root member

theorem climb_succ (steps : Nat) (node : Node) :
    unit.climb (steps + 1) node = node.type?.or (unit.parentOf? node.id >>= unit.climb steps) := by
  cases node <;> rfl

section Lookups

variable (linked : unit.Linked) (distinct : unit.ids.Nodup) {node : Node} {above : List Node}

include distinct in
theorem find?_of_mem (member : node ∈ unit.visited) : unit.find? node.id = some node := by
  rw [find?_eq]
  exact find?_of_nodup distinct member

include linked in
theorem Above.parent_eq (path : unit.Above node above) :
    node.info.parent = above.head?.map Node.id := by
  cases path with
  | root => exact linked.root
  | child path isChild =>
      have member := path.mem_visited
      rw [visited_eq_preorder] at member
      exact linked.below _ member _ isChild

include linked distinct

theorem parentOf?_of_above (path : unit.Above node above) : unit.parentOf? node.id = above.head? := by
  rw [parentOf?, find?_of_mem distinct path.mem_visited]
  change (node.info.parent >>= unit.find?) = above.head?
  rw [path.parent_eq linked]
  cases path with
  | root => rfl
  | child path _ => exact find?_of_mem distinct path.mem_visited

theorem climb_of_above (path : unit.Above node above) {steps : Nat} (enough : above.length < steps) :
    unit.climb steps node = (node :: above).findSome? Node.type? := by
  induction path generalizing steps with
  | root =>
      cases steps with
      | zero => omega
      | succ steps =>
          rw [climb_succ, parentOf?_of_above linked distinct .root]
          rfl
  | @child owner child above path isChild ih =>
      cases steps with
      | zero => omega
      | succ steps =>
          have rest := ih (Nat.lt_of_succ_lt_succ enough)
          rw [climb_succ, parentOf?_of_above linked distinct (path.child isChild), List.findSome?_cons]
          change child.type?.or (unit.climb steps owner) = _
          rw [rest]
          cases child.type? <;> rfl

theorem enclosingType?_of_above (path : unit.Above node above) :
    unit.enclosingType? node.id = above.findSome? Node.type? := by
  have parent := parentOf?_of_above linked distinct path
  rw [enclosingType?, parent, ← visited_eq_preorder]
  cases path with
  | root => rfl
  | child path isChild =>
      exact climb_of_above linked distinct path path.length_lt

end Lookups

theorem WellFormed.enclosingType?_of_mem_methods {low high : Nat} (wellFormed : unit.WellFormed low high)
    {decl : TypeDecl} {body : Body} {method : Method} (isType : decl ∈ unit.types)
    (isBody : body ∈ decl.body) (isMethod : method ∈ body.methods) :
    unit.enclosingType? method.info.id = some decl := by
  have typeBelow : Node.type decl ∈ (Node.unit unit).children := by simp [Node.children, isType]
  have bodyBelow : Node.body body ∈ (Node.type decl).children := by
    simp [Node.children, Option.mem_def.mp isBody]
  have methodBelow : Node.method method ∈ (Node.body body).children := by
    simp [Node.children, isMethod]
  have path := ((Above.root.child typeBelow).child bodyBelow).child methodBelow
  exact enclosingType?_of_above wellFormed.toLinked wellFormed.distinct path

/-- Lookups agree with the tree.  Parsed units and units put together from their parts are linked.  In a
linked unit with distinct ids the owner of a node is the first of the nodes above it, and the type
around it is the first of them that is a type; an id that no node has leads nowhere. -/
theorem lookups_follow_tree (unit : SourceUnit) :
    (∀ {σ : Type} [TokenSource σ] (state : State σ), state.parse.1 = .ok unit →
      unit.Linked ∧ unit.ids.Nodup) ∧
    (Assembled (.unit unit) → unit.info.parent = none → unit.Linked) ∧
    (unit.Linked → unit.ids.Nodup →
      (∀ node ∈ unit.visited, ∃ above, unit.Above node above) ∧
      (∀ node above, unit.Above node above →
        unit.parentOf? node.id = above.head? ∧
        unit.enclosingType? node.id = above.findSome? Node.type? ∧
        (unit.enclosingType? node.id = none ↔ ∀ decl, Node.type decl ∉ above)) ∧
      (∀ node, node = .unit unit ∨ node ∈ (Node.unit unit).children →
        unit.enclosingType? node.id = none) ∧
      ∀ id ∉ unit.ids, unit.parentOf? id = none ∧ unit.enclosingType? id = none) := by
  refine ⟨?_, fun assembled loose => ⟨loose, assembled.linked⟩, ?_⟩
  · intro σ _ state parsed
    have wellFormed := unit.wellFormed_of_reading (state.reading_of_parse parsed)
    exact ⟨wellFormed.toLinked, wellFormed.distinct⟩
  · intro linked distinct
    refine ⟨fun node => exists_above, ?_, ?_, ?_⟩
    · intro node above path
      have around := enclosingType?_of_above linked distinct path
      refine ⟨parentOf?_of_above linked distinct path, around, ?_⟩
      rw [around]
      exact Node.findSome?_type?_eq_none_iff
    · rintro node (rfl | isChild)
      · exact enclosingType?_of_above linked distinct .root
      · exact enclosingType?_of_above linked distinct (.child .root isChild)
    · intro id absent
      exact ⟨parentOf?_of_notMem absent, enclosingType?_of_notMem absent⟩

def nestedParam : Param :=
  ⟨⟨4, .start, some 3⟩, "x", ⟨⟨5, .start, some 4⟩, .single "int32"⟩⟩

def nestedMethod : Method :=
  ⟨⟨3, .start, some 2⟩, [], none, "run", [nestedParam], none, none⟩

def nestedType : TypeDecl :=
  ⟨⟨1, .start, some 0⟩, [], none, .single "C", [], some ⟨⟨2, .start, some 1⟩, [], [], [nestedMethod]⟩⟩

def nestedUnit : SourceUnit :=
  ⟨.fresh 0 .start, "t.bgl", none, [], [nestedType]⟩

theorem nestedUnit_assembled : Assembled (.unit nestedUnit) := by
  have noAnnots : ∀ annot ∈ ([] : List Annot), Assembled (.annot annot) := by simp
  have param : Assembled (.param ⟨.fresh 4 .start, "x", nestedParam.type⟩) :=
    .param (show Param.make _ _ ⟨.fresh 5 .start, .single "int32"⟩ = _ from rfl)
  have method : Assembled (.method ⟨.fresh 3 .start, [], none, "run", [nestedParam], none, none⟩) :=
    .addParam (.method noAnnots (show Method.make (.fresh 3 .start) [] none "run" = _ from rfl)) param
      rfl
  have body : Assembled (.body ⟨.fresh 2 .start, [], [], [nestedMethod]⟩) :=
    .addMethod (show Assembled (.body (.make (.fresh 2 .start))) from .single rfl) method rfl
  have type : Assembled (.type ⟨.fresh 1 .start, [], none, .single "C", [], nestedType.body⟩) :=
    .setBody (.type noAnnots (show TypeDecl.make (.fresh 1 .start) [] none (.single "C") = _ from rfl))
      body rfl
  exact .addType (.unit (show SourceUnit.make (.fresh 0 .start) "t.bgl" none = _ from rfl)) type rfl

/-- The links lead from the type of the parameter to the class around it, and from there nowhere. -/
theorem lookups_follow_tree_example :
    nestedUnit.parentOf? 5 = some (.param nestedParam) ∧
    nestedUnit.enclosingType? 5 = some nestedType ∧
    nestedUnit.enclosingType? 1 = none ∧ nestedUnit.parentOf? 0 = none ∧
    nestedUnit.parentOf? 99 = none := by
  obtain ⟨_, linked, lookups⟩ := lookups_follow_tree nestedUnit
  have ids : nestedUnit.ids = [0, 1, 2, 3, 4, 5] := by
    rw [SourceUnit.ids, visited_eq_all]
    simp [Node.children, nestedUnit, nestedType, nestedMethod, nestedParam, Node.id, Node.info,
      NodeInfo.fresh]
  obtain ⟨_, paths, _, absent⟩ := lookups (linked nestedUnit_assembled rfl) (by simp [ids])
  have typePath : nestedUnit.Above (.type nestedType) _ := .child .root List.mem_cons_self
  have methodPath : nestedUnit.Above (.method nestedMethod) _ :=
    .child (.child typePath List.mem_cons_self) List.mem_cons_self
  have path : nestedUnit.Above (.typeRef nestedParam.type) _ :=
    .child (.child methodPath List.mem_cons_self) List.mem_cons_self
  obtain ⟨parent, type, _⟩ := paths _ _ path
  exact ⟨parent, type, (paths _ _ typePath).2.1, (paths _ _ .root).1, (absent 99 (by simp [ids])).1⟩

end SourceUnit

end Beagle
