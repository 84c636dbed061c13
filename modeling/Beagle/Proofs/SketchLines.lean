import Beagle.Proofs.Lookup
import Beagle.Output

/-!
The lines of a sketch, read off the tree.  A sketch is written by a visitor that looks up the type around
each method by id.  In a well-formed unit that is the type whose body lists the method, so the lines
follow from the shape of the unit alone.
-/

namespace Beagle

namespace Node

variable {visitor : Visitor (List Fragment)} {lines : Node → List Fragment} {node : Node}
variable {written entered : List Fragment}

theorem foldl_walk_eq {nodes : List Node}
    (writes : ∀ node ∈ nodes, ∀ written, node.walk visitor written = written ++ lines node) :
    nodes.foldl (fun written node => node.walk visitor written) written =
      written ++ nodes.flatMap lines := by
  induction nodes generalizing written with
  | nil => simp
  | cons node nodes ih =>
      rw [List.foldl_cons, writes node (by simp), ih fun other member => writes other (by simp [member])]
      simp

theorem walk_of_enter_false (enters : visitor.enter node written = (false, entered)) :
    node.walk visitor written = visitor.leave node entered := by
  rw [walk_eq, enters]
  rfl

theorem walk_of_enter_true (enters : visitor.enter node written = (true, entered))
    (writes : ∀ child ∈ node.children, ∀ written, child.walk visitor written = written ++ lines child) :
    node.walk visitor written = visitor.leave node (entered ++ node.children.flatMap lines) := by
  rw [walk_eq, enters, ← foldl_walk_eq writes]
  rfl

end Node

namespace Sketch

def methodsOf (decl : TypeDecl) : List Method :=
  decl.body.elim [] Body.methods

def typeSection (name : String) (decl : TypeDecl) : List Fragment :=
  typeLines name decl ++ (methodsOf decl).flatMap (fun method => methodLines name method.name) ++ [.blank]

def unitLines (unit : SourceUnit) : List Fragment :=
  moduleLines unit.moduleName ++
    unit.types.flatMap fun decl => typeSection (unit.nameOf decl).text decl

def nodeLines (unit : SourceUnit) (owner : String) : Node → List Fragment
  | .type decl => typeSection (unit.nameOf decl).text decl
  | .body body => body.methods.flatMap fun method => methodLines owner method.name
  | .method method => methodLines owner method.name
  | _ => []

theorem flatMap_silent {α : Type} (items : List α) :
    (items.flatMap fun _ => ([] : List Fragment)) = [] :=
  List.flatMap_eq_nil_iff.mpr fun _ _ => rfl

variable {unit : SourceUnit} {decl : TypeDecl} {body : Body} {node : Node}

theorem walk_member (owners : ∀ method ∈ body.methods, unit.enclosingType? method.info.id = some decl)
    (member : node ∈ (Node.body body).children) (written : List Fragment) :
    node.walk (visitor unit) written = written ++ nodeLines unit (unit.nameOf decl).text node := by
  simp only [Node.children, List.mem_append, List.mem_map] at member
  rcases member with (⟨field, _, rfl⟩ | ⟨field, _, rfl⟩) | ⟨method, isMethod, rfl⟩
  · exact (Node.walk_of_enter_false rfl).trans (List.append_nil _).symm
  · exact (Node.walk_of_enter_false rfl).trans (List.append_nil _).symm
  · rw [Node.walk_of_enter_false rfl, owners method isMethod]
    rfl

theorem walk_part (owners : ∀ body ∈ decl.body, ∀ method ∈ body.methods,
      unit.enclosingType? method.info.id = some decl)
    (member : node ∈ (Node.type decl).children) (written : List Fragment) :
    node.walk (visitor unit) written = written ++ nodeLines unit (unit.nameOf decl).text node := by
  simp only [Node.children, List.mem_append, List.mem_map, Option.mem_toList] at member
  rcases member with (⟨annot, _, rfl⟩ | ⟨base, _, rfl⟩) | ⟨body, isBody, rfl⟩
  · exact (Node.walk_of_enter_false rfl).trans (List.append_nil _).symm
  · exact (Node.walk_of_enter_false rfl).trans (List.append_nil _).symm
  · rw [Node.walk_of_enter_true rfl fun _ => walk_member (owners body isBody)]
    simp [visitor, nodeLines, Node.children, List.flatMap_map, flatMap_silent]

theorem walk_top (owners : ∀ decl ∈ unit.types, ∀ body ∈ decl.body, ∀ method ∈ body.methods,
      unit.enclosingType? method.info.id = some decl)
    (member : node ∈ (Node.unit unit).children) (written : List Fragment) :
    node.walk (visitor unit) written = written ++ nodeLines unit "" node := by
  simp only [Node.children, List.mem_append, List.mem_map, Option.mem_toList] at member
  rcases member with (⟨clause, _, rfl⟩ | ⟨clause, _, rfl⟩) | ⟨decl, isType, rfl⟩
  · exact (Node.walk_of_enter_false rfl).trans (List.append_nil _).symm
  · exact (Node.walk_of_enter_false rfl).trans (List.append_nil _).symm
  · rw [Node.walk_of_enter_true rfl fun _ => walk_part (owners decl isType)]
    cases isBody : decl.body <;>
      simp [visitor, nodeLines, typeSection, methodsOf, Node.children, List.flatMap_map, flatMap_silent,
        isBody]

end Sketch

theorem SourceUnit.WellFormed.sketch_eq {unit : SourceUnit} {low high : Nat}
    (wellFormed : unit.WellFormed low high) :
    unit.sketch = Fragment.renderAll (Sketch.unitLines unit) := by
  have owners : ∀ decl ∈ unit.types, ∀ body ∈ decl.body, ∀ method ∈ body.methods,
      unit.enclosingType? method.info.id = some decl :=
    fun _ isType _ isBody _ => wellFormed.enclosingType?_of_mem_methods isType isBody
  rw [sketch, Node.walk_of_enter_true rfl fun _ => Sketch.walk_top owners]
  simp [Sketch.visitor, Sketch.nodeLines, Sketch.unitLines, Node.children, List.flatMap_map,
    Sketch.flatMap_silent]

end Beagle
