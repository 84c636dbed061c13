import Beagle.Tree.Basic

/-!
The nodes of a unit, whatever they are, and their children in order.  On a walk over a tree a visitor
sees every node on the way in and on the way out, and decides on the way in whether the walk goes below
the node.  Where several nodes have the same id, the first in preorder is looked up.
-/

namespace Beagle

inductive Node
  | unit (unit : SourceUnit)
  | package (clause : PackageClause)
  | importClause (clause : ImportClause)
  | annot (annot : Annot)
  | type (decl : TypeDecl)
  | body (body : Body)
  | field (field : Field)
  | method (method : Method)
  | param (param : Param)
  | typeRef (type : TypeRef)
  | literal (literal : Literal)
  | block (block : Block)
deriving DecidableEq

namespace Node

def info : Node → NodeInfo
  | .unit it => it.info
  | .package it => it.info
  | .importClause it => it.info
  | .annot it => it.info
  | .type it => it.info
  | .body it => it.info
  | .field it => it.info
  | .method it => it.info
  | .param it => it.info
  | .typeRef it => it.info
  | .literal it => it.info
  | .block it => it.info

def id (node : Node) : Nat :=
  node.info.id

def children : Node → List Node
  | .unit it =>
    it.package.toList.map .package ++ it.imports.map .importClause ++ it.types.map .type
  | .annot it => [.typeRef it.type]
  | .type it =>
    it.annotations.map .annot ++ it.bases.map .typeRef ++ it.body.toList.map .body
  | .body it =>
    it.vars.map .field ++ it.consts.map .field ++ it.methods.map .method
  | .field it =>
    it.annotations.map .annot ++ it.type.toList.map .typeRef ++
      (it.declarators.filterMap Declarator.initial).map .literal
  | .method it =>
    it.annotations.map .annot ++ it.params.map .param ++ it.result.toList.map .typeRef ++
      it.body.toList.map .block
  | .param it => [.typeRef it.type]
  | .package _ | .importClause _ | .typeRef _ | .literal _ | .block _ => []

def depth : Node → Nat
  | .unit _ => 5
  | .type _ => 4
  | .body _ => 3
  | .field _ | .method _ => 2
  | .annot _ | .param _ => 1
  | .package _ | .importClause _ | .typeRef _ | .literal _ | .block _ => 0

theorem depth_lt_of_mem_children {node child : Node} (member : child ∈ node.children) :
    child.depth < node.depth := by
  cases node <;> simp only [children, List.mem_append, List.mem_map, List.mem_singleton,
    List.not_mem_nil] at member <;> grind [depth]

def preorder (node : Node) : List Node :=
  node :: node.children.attach.flatMap fun child => preorder child.1
termination_by node.depth
decreasing_by exact depth_lt_of_mem_children child.2

theorem preorder_eq (node : Node) :
    node.preorder = node :: node.children.flatMap preorder := by
  rw [preorder]
  simp [List.flatMap_def]

end Node

structure Visitor (β : Type) where
  enter : Node → β → Bool × β
  leave : Node → β → β

namespace Node

variable {β : Type}

def walk (node : Node) (visitor : Visitor β) (state : β) : β :=
  let (descend, state) := visitor.enter node state
  let state := if descend then
      node.children.attach.foldl (fun state child => walk child.1 visitor state) state
    else state
  visitor.leave node state
termination_by node.depth
decreasing_by exact depth_lt_of_mem_children child.2

theorem walk_eq (node : Node) (visitor : Visitor β) (state : β) :
    node.walk visitor state =
      let entered := visitor.enter node state
      visitor.leave node (if entered.1 then
          node.children.foldl (fun state child => child.walk visitor state) entered.2
        else entered.2) := by
  rw [walk]
  simp

end Node

def Visitor.finder (id : Nat) : Visitor (Option Node) where
  enter node found :=
    match found with
    | some _ => (false, found)
    | none => if node.id = id then (false, some node) else (true, none)
  leave _ found := found

def Node.find? (node : Node) (id : Nat) : Option Node :=
  node.walk (.finder id) none

namespace SourceUnit

def find? (unit : SourceUnit) (id : Nat) : Option Node :=
  (Node.unit unit).find? id

def parentOf? (unit : SourceUnit) (id : Nat) : Option Node := do
  let node ← unit.find? id
  unit.find? (← node.info.parent)

def climb (unit : SourceUnit) : (steps : Nat) → Node → Option TypeDecl
  | 0, _ => none
  | _ + 1, .type decl => some decl
  | steps + 1, node => do climb unit steps (← unit.parentOf? node.id)

/-- The type around a node.  Links that pass more nodes than there are go round in a circle: to follow
them would never end, and here the answer is `none`.  No linked unit has such links. -/
def enclosingType? (unit : SourceUnit) (id : Nat) : Option TypeDecl := do
  unit.climb (Node.unit unit).preorder.length (← unit.parentOf? id)

end SourceUnit

end Beagle
