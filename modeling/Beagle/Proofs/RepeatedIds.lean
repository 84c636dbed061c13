import Beagle.Proofs.Lookup

/-!
Lookups in units whose ids may repeat.  A search by id finds the first node of a walk that has the id.  A
search for the type around a node may then leave the path to the root, because a link leads to the first
node with the linked id; but it only ever moves to nodes that a walk meets earlier, and so it ends.
-/

namespace Beagle

def LinksBack (seen : List Nat) : List Node → Prop
  | [] => True
  | node :: nodes => (∃ id ∈ seen, node.info.parent = some id) ∧ LinksBack (node.id :: seen) nodes

namespace LinksBack

variable {seen : List Nat} {nodes : List Node}

theorem mono {more : List Nat} (back : LinksBack seen nodes) (sub : seen ⊆ more) :
    LinksBack more nodes := by
  induction nodes generalizing seen more with
  | nil => trivial
  | cons node nodes ih =>
      obtain ⟨⟨id, member, link⟩, rest⟩ := back
      exact ⟨⟨id, sub member, link⟩, ih rest (List.cons_subset_cons _ sub)⟩

theorem append {others : List Node} (first : LinksBack seen nodes) (second : LinksBack seen others) :
    LinksBack seen (nodes ++ others) := by
  induction nodes generalizing seen with
  | nil => exact second
  | cons node nodes ih =>
      exact ⟨first.1, ih first.2 (second.mono (List.subset_cons_self _ _))⟩

theorem exists_before {before after : List Node} {node : Node}
    (back : LinksBack seen (before ++ node :: after)) :
    ∃ id, node.info.parent = some id ∧ (id ∈ seen ∨ ∃ owner ∈ before, owner.id = id) := by
  induction before generalizing seen with
  | nil =>
      obtain ⟨⟨id, member, link⟩, _⟩ := back
      exact ⟨id, link, .inl member⟩
  | cons first before ih =>
      obtain ⟨id, link, member | ⟨owner, earlier, same⟩⟩ := ih back.2
      · rcases List.mem_cons.mp member with rfl | member
        · exact ⟨first.id, link, .inr ⟨first, List.mem_cons_self, rfl⟩⟩
        · exact ⟨id, link, .inl member⟩
      · exact ⟨id, link, .inr ⟨owner, List.mem_cons_of_mem _ earlier, same⟩⟩

end LinksBack

theorem Node.linksBack_all {nodes : List Node} {seen : List Nat}
    (linked : ∀ node ∈ nodes, (∃ id ∈ seen, node.info.parent = some id) ∧ node.Linked) :
    LinksBack seen (all nodes) := by
  induction nodes using forest_induct generalizing seen with
  | nil => trivial
  | cons node nodes below later =>
      obtain ⟨⟨link, linkedNode⟩, others⟩ := List.forall_mem_cons.mp linked
      rw [all_cons]
      refine ⟨link, LinksBack.append (below ?_) ((later others).mono (List.subset_cons_self _ _))⟩
      intro child isChild
      obtain ⟨owned, linkedChild⟩ := linked_iff.mp linkedNode child isChild
      exact ⟨⟨node.id, List.mem_cons_self, owned⟩, linkedChild⟩

namespace Node

variable {α : Type} {wrap : α → Node}

theorem all_map {nodes : α → List Node} (same : ∀ item, (wrap item).preorder = nodes item)
    (items : List α) : all (items.map wrap) = items.flatMap nodes := by
  rw [all, List.flatMap_map]
  exact congrArg (items.flatMap ·) (funext same)

theorem all_map_leaf (leaf : ∀ item, (wrap item).children = []) (items : List α) :
    all (items.map wrap) = items.map wrap := by
  induction items with
  | nil => rfl
  | cons item items ih =>
      rw [List.map_cons, all_cons, leaf, ih]
      rfl

end Node

section Fields

open Node

def Annot.nodes (annot : Annot) : List Node :=
  [.annot annot, .typeRef annot.type]

def Param.nodes (param : Param) : List Node :=
  [.param param, .typeRef param.type]

def Field.nodes (field : Field) : List Node :=
  .field field :: (field.annotations.flatMap Annot.nodes ++ field.type.toList.map .typeRef ++
    (field.declarators.filterMap Declarator.initial).map .literal)

def Method.nodes (method : Method) : List Node :=
  .method method :: (method.annotations.flatMap Annot.nodes ++ method.params.flatMap Param.nodes ++
    method.result.toList.map .typeRef ++ method.body.toList.map .block)

def Body.nodes (body : Body) : List Node :=
  .body body :: (body.vars.flatMap Field.nodes ++ body.consts.flatMap Field.nodes ++
    body.methods.flatMap Method.nodes)

def TypeDecl.nodes (decl : TypeDecl) : List Node :=
  .type decl :: (decl.annotations.flatMap Annot.nodes ++ decl.bases.map .typeRef ++
    decl.body.toList.flatMap Body.nodes)

def SourceUnit.nodes (unit : SourceUnit) : List Node :=
  .unit unit :: (unit.package.toList.map .package ++ unit.imports.map .importClause ++
    unit.types.flatMap TypeDecl.nodes)

theorem Node.preorder_annot (annot : Annot) : (Node.annot annot).preorder = annot.nodes := by
  simp [preorder_eq, children, Annot.nodes]

theorem Node.preorder_param (param : Param) : (Node.param param).preorder = param.nodes := by
  simp [preorder_eq, children, Param.nodes]

theorem Node.preorder_field (field : Field) : (Node.field field).preorder = field.nodes := by
  rw [preorder_eq, ← all, children, all_append, all_append, all_map preorder_annot,
    all_map_leaf fun _ => rfl, all_map_leaf fun _ => rfl]
  rfl

theorem Node.preorder_method (method : Method) : (Node.method method).preorder = method.nodes := by
  rw [preorder_eq, ← all, children, all_append, all_append, all_append, all_map preorder_annot,
    all_map preorder_param, all_map_leaf fun _ => rfl, all_map_leaf fun _ => rfl]
  rfl

theorem Node.preorder_body (body : Body) : (Node.body body).preorder = body.nodes := by
  rw [preorder_eq, ← all, children, all_append, all_append, all_map preorder_field,
    all_map preorder_field, all_map preorder_method]
  rfl

theorem Node.preorder_type (decl : TypeDecl) : (Node.type decl).preorder = decl.nodes := by
  rw [preorder_eq, ← all, children, all_append, all_append, all_map preorder_annot,
    all_map_leaf fun _ => rfl, all_map preorder_body]
  rfl

theorem SourceUnit.visited_eq_nodes (unit : SourceUnit) : unit.visited = unit.nodes := by
  rw [visited_eq_preorder, preorder_eq, ← all, children, all_append, all_append,
    all_map_leaf fun _ => rfl, all_map_leaf fun _ => rfl, all_map preorder_type]
  rfl

end Fields

namespace SourceUnit

variable {unit : SourceUnit} {id : Nat} {node : Node}

theorem find?_eq_some_iff : unit.find? id = some node ↔ node.id = id ∧
    ∃ before after, unit.visited = before ++ node :: after ∧ ∀ earlier ∈ before, earlier.id ≠ id := by
  rw [find?_eq, List.find?_eq_some_iff_append]
  simp

/-- A walk over the whole unit visits the nodes in the order in which the fields list them.  A search by id
returns the first one with the id that the walk meets, and nothing exactly if no node of the unit has the
id. -/
theorem find?_first_visited (unit : SourceUnit) (id : Nat) :
    unit.visited = unit.nodes ∧
    (∀ node, unit.find? id = some node ↔ node.id = id ∧
      ∃ before after, unit.visited = before ++ node :: after ∧ ∀ earlier ∈ before, earlier.id ≠ id) ∧
    (unit.find? id = none ↔ ∀ node ∈ unit.nodes, node.id ≠ id) := by
  refine ⟨unit.visited_eq_nodes, fun node => find?_eq_some_iff, ?_⟩
  rw [find?_eq, List.find?_eq_none, visited_eq_nodes]
  simp

def earlierBody : Body :=
  ⟨⟨2, .start, some 1⟩, [], [], []⟩

def earlierType : TypeDecl :=
  ⟨⟨1, .start, some 0⟩, [], none, .single "A", [], some earlierBody⟩

def laterMethod : Method :=
  ⟨⟨4, .start, some 2⟩, [], none, "run", [], none, none⟩

def laterBody : Body :=
  ⟨⟨2, .start, some 3⟩, [], [], [laterMethod]⟩

def laterType : TypeDecl :=
  ⟨⟨3, .start, some 0⟩, [], none, .single "B", [], some laterBody⟩

def twinBodies : SourceUnit :=
  ⟨.fresh 0 .start, "t.bgl", none, [], [earlierType, laterType]⟩

theorem find?_first_visited_example :
    twinBodies.find? 2 = some (.body earlierBody) ∧
    twinBodies.find? 4 = some (.method laterMethod) ∧
    twinBodies.find? 9 = none := by
  have first (id : Nat) := find?_first_visited twinBodies id
  refine ⟨((first 2).2.1 _).mpr ⟨rfl, [_, _], _, (first 2).1, ?_⟩,
    ((first 4).2.1 _).mpr ⟨rfl, [_, _, _, _, _], _, (first 4).1, ?_⟩, (first 9).2.2.mpr ?_⟩
  · decide
  · decide
  · decide

def place (unit : SourceUnit) (id : Nat) : Nat :=
  unit.visited.findIdx fun node => node.id = id

theorem getElem?_place : unit.visited[unit.place id]? = unit.find? id := by
  rw [find?_eq, place, List.find?_eq_getElem?_findIdx]

theorem place_le : unit.place id ≤ unit.visited.length :=
  List.findIdx_le_length

theorem exists_earlier_of_link (linked : unit.Linked) {before after : List Node} {parent : Nat}
    (split : unit.visited = before ++ node :: after) (link : node.info.parent = some parent) :
    ∃ owner ∈ before, owner.id = parent := by
  have start : unit.visited = .unit unit :: Node.all (Node.unit unit).children := by
    simp [visited_eq_all]
  cases before with
  | nil =>
      obtain rfl : node = .unit unit := by simp_all
      cases linked.root.symm.trans link
  | cons first before =>
      obtain ⟨rfl, rest⟩ := List.cons.inj (start.symm.trans split)
      have back : LinksBack [(Node.unit unit).id] (Node.all (Node.unit unit).children) := by
        refine Node.linksBack_all fun child isChild => ?_
        obtain ⟨owned, linkedChild⟩ := Node.linked_iff.mp linked.below child isChild
        exact ⟨⟨_, List.mem_singleton_self _, owned⟩, linkedChild⟩
      rw [rest] at back
      obtain ⟨owned, isOwned, earlier⟩ := back.exists_before
      obtain rfl : parent = owned := Option.some.inj (link.symm.trans isOwned)
      rcases earlier with isRoot | ⟨owner, member, same⟩
      · exact ⟨_, List.mem_cons_self, (List.mem_singleton.mp isRoot).symm⟩
      · exact ⟨owner, List.mem_cons_of_mem _ member, same⟩

theorem place_lt_of_link (linked : unit.Linked) {parent : Nat} (found : unit.find? id = some node)
    (link : node.info.parent = some parent) : unit.place parent < unit.place id := by
  obtain ⟨_, before, after, split, others⟩ := find?_eq_some_iff.mp found
  obtain ⟨owner, isBefore, same⟩ := exists_earlier_of_link linked split link
  have early : before.findIdx (fun node => node.id = parent) < before.length :=
    List.findIdx_lt_length.mpr ⟨owner, isBefore, decide_eq_true same⟩
  have late : before.findIdx (fun node => node.id = id) = before.length := by
    rw [List.findIdx_eq_length]
    intro other member
    exact decide_eq_false (others other member)
  rw [place, place, split, List.findIdx_append, List.findIdx_append, if_pos early, late,
    if_neg (Nat.lt_irrefl _)]
  omega

/-- A search for the type around the node with the id.  It looks at the nodes `passed` one after the
other, each found through the link of the one before it, until one is a type or has no link that leads
anywhere. -/
inductive Search (unit : SourceUnit) : Nat → List Node → Option TypeDecl → Prop
  | nowhere {id : Nat} : unit.parentOf? id = none → Search unit id [] none
  | found {id : Nat} {decl : TypeDecl} :
      unit.parentOf? id = some (.type decl) → Search unit id [.type decl] (some decl)
  | further {id : Nat} {node : Node} {passed : List Node} {answer : Option TypeDecl} :
      unit.parentOf? id = some node → node.type? = none → Search unit node.id passed answer →
      Search unit id (node :: passed) answer

theorem parentOf?_eq_some_iff {owner : Node} : unit.parentOf? id = some owner ↔
    ∃ node parent, unit.find? id = some node ∧ node.info.parent = some parent ∧
      unit.find? parent = some owner := by
  simp [parentOf?, Option.bind_eq_some_iff]

theorem place_parentOf? (linked : unit.Linked) {owner : Node} (led : unit.parentOf? id = some owner) :
    unit.place owner.id < unit.place id ∧ unit.visited[unit.place owner.id]? = some owner := by
  obtain ⟨node, parent, found, link, isOwner⟩ := parentOf?_eq_some_iff.mp led
  obtain rfl := (find?_eq_some_iff.mp isOwner).1
  exact ⟨place_lt_of_link linked found link, getElem?_place.trans isOwner⟩

namespace Search

variable {passed : List Node} {answer : Option TypeDecl}

theorem isChain (linked : unit.Linked) (search : unit.Search id passed answer) :
    (id :: passed.map Node.id).IsChain fun id next => unit.place next < unit.place id := by
  induction search with
  | nowhere => exact .singleton _
  | found led => exact .cons_cons (place_parentOf? linked led).1 (.singleton _)
  | further led _ _ ih => exact .cons_cons (place_parentOf? linked led).1 ih

theorem getElem?_of_mem (linked : unit.Linked) (search : unit.Search id passed answer)
    (member : node ∈ passed) : unit.visited[unit.place node.id]? = some node := by
  induction search with
  | nowhere => cases member
  | found led =>
      obtain rfl := List.mem_singleton.mp member
      exact (place_parentOf? linked led).2
  | further led _ _ ih =>
      rcases List.mem_cons.mp member with rfl | later
      · exact (place_parentOf? linked led).2
      · exact ih later

theorem length_le (linked : unit.Linked) (search : unit.Search id passed answer) :
    passed.length ≤ unit.place id := by
  induction search with
  | nowhere => exact Nat.zero_le _
  | found led =>
      have earlier := (place_parentOf? linked led).1
      simp only [List.length_singleton]
      omega
  | further led _ _ ih =>
      have earlier := (place_parentOf? linked led).1
      simp only [List.length_cons]
      omega

theorem climb_eq (search : unit.Search id passed answer) {steps : Nat} (enough : passed.length ≤ steps) :
    (unit.parentOf? id >>= unit.climb steps) = answer := by
  induction search generalizing steps with
  | nowhere led =>
      rw [led]
      rfl
  | found led =>
      cases steps with
      | zero => simp at enough
      | succ steps =>
          rw [led]
          rfl
  | further led noType _ ih =>
      cases steps with
      | zero => simp at enough
      | succ steps =>
          rw [led]
          change unit.climb (steps + 1) _ = _
          rw [climb_succ, noType, Option.none_or]
          exact ih (Nat.le_of_succ_le_succ enough)

end Search

theorem exists_search (linked : unit.Linked) (id : Nat) : ∃ passed answer, unit.Search id passed answer := by
  induction measure : unit.place id using Nat.strong_induction_on generalizing id with
  | h place ih =>
      cases led : unit.parentOf? id with
      | none => exact ⟨[], none, .nowhere led⟩
      | some node =>
          cases isType : node.type? with
          | some decl =>
              cases node with
              | type => exact ⟨_, _, .found led⟩
              | _ => cases isType
          | none =>
              have earlier := (place_parentOf? linked led).1
              obtain ⟨passed, answer, rest⟩ := ih _ (measure ▸ earlier) node.id rfl
              exact ⟨node :: passed, answer, .further led isType rest⟩

theorem Search.enclosingType?_eq (linked : unit.Linked) {passed : List Node} {answer : Option TypeDecl}
    (search : unit.Search id passed answer) : unit.enclosingType? id = answer := by
  apply search.climb_eq
  rw [← visited_eq_preorder]
  exact (search.length_le linked).trans place_le

/-- Whatever ids the nodes have, the search for the type around a node ends in a unit whose links lead to
the owners, as those of a unit put together from its parts do: each round moves to a node at an earlier
place of the walk. -/
theorem enclosing_search_ends (unit : SourceUnit) :
    (Assembled (.unit unit) → unit.info.parent = none → unit.Linked) ∧
    (unit.Linked → ∀ id, ∃ passed,
      unit.Search id passed (unit.enclosingType? id) ∧
      (∀ node ∈ passed, unit.visited[unit.place node.id]? = some node) ∧
      (id :: passed.map Node.id).IsChain fun id next => unit.place next < unit.place id) := by
  refine ⟨fun assembled loose => ⟨loose, assembled.linked⟩, fun linked id => ?_⟩
  obtain ⟨passed, answer, search⟩ := exists_search linked id
  rw [search.enclosingType?_eq linked]
  exact ⟨passed, search, fun _ => search.getElem?_of_mem linked, search.isChain linked⟩

theorem twinBodies_assembled : Assembled (.unit twinBodies) := by
  have noAnnots : ∀ annot ∈ ([] : List Annot), Assembled (.annot annot) := by simp
  have empty (id : Nat) : Assembled (.body (.make (.fresh id .start))) := .single rfl
  have method : Assembled (.method ⟨.fresh 4 .start, [], none, "run", [], none, none⟩) :=
    .method noAnnots (show Method.make (.fresh 4 .start) [] none "run" = _ from rfl)
  have earlier : Assembled (.type ⟨.fresh 1 .start, [], none, .single "A", [], some earlierBody⟩) :=
    .setBody (.type noAnnots (show TypeDecl.make (.fresh 1 .start) [] none (.single "A") = _ from rfl))
      (empty 2) rfl
  have later : Assembled (.type ⟨.fresh 3 .start, [], none, .single "B", [], some laterBody⟩) :=
    .setBody (.type noAnnots (show TypeDecl.make (.fresh 3 .start) [] none (.single "B") = _ from rfl))
      (.addMethod (empty 2) method rfl) rfl
  exact .addType (.addType (.unit (show SourceUnit.make (.fresh 0 .start) "t.bgl" none = _ from rfl))
    earlier rfl) later rfl

theorem twinBodies_search :
    twinBodies.Search 4 [.body earlierBody, .type earlierType] (some earlierType) := by
  have visited : twinBodies.visited = [.unit twinBodies, .type earlierType, .body earlierBody,
      .type laterType, .body laterBody, .method laterMethod] := by
    rw [visited_eq_all]
    simp [Node.children, twinBodies, earlierType, earlierBody, laterType, laterBody, laterMethod]
  refine .further (parentOf?_eq_some_iff.mpr ⟨.method laterMethod, 2, ?_, rfl, ?_⟩) rfl
    (.found (parentOf?_eq_some_iff.mpr ⟨.body earlierBody, 1, ?_, rfl, ?_⟩))
  all_goals
    rw [find?_eq, visited]
    rfl

/-- From the method the search comes to the body of the other class, and ends at that class. -/
theorem enclosing_search_ends_example :
    ∃ passed, twinBodies.Search 4 passed (some earlierType) ∧
      (4 :: passed.map Node.id).IsChain fun id next => twinBodies.place next < twinBodies.place id := by
  obtain ⟨linked, ends⟩ := enclosing_search_ends twinBodies
  have isLinked := linked twinBodies_assembled rfl
  obtain ⟨passed, search, _, earlier⟩ := ends isLinked 4
  rw [twinBodies_search.enclosingType?_eq isLinked] at search
  exact ⟨passed, search, earlier⟩

end SourceUnit

end Beagle
