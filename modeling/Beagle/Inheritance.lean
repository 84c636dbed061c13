import Beagle.Tree.Basic

/-!
Inheritance between the types of a unit.  Records of a type name the records of its parent, so types
are generated ancestors first; apart from that they keep the order of their declarations.
-/

namespace Beagle

inductive InheritanceError
  | cycle (name : String)
  | duplicate (name : String)
deriving DecidableEq

def InheritanceError.message : InheritanceError → String
  | .cycle name => s!"Cyclic inheritance involving type '{name}'"
  | .duplicate name => s!"Type '{name}' is declared more than once"

structure Declared where
  decl : TypeDecl
  name : DottedName
deriving DecidableEq

/-- A type with the name of its parent: a type of the unit under its full name, any other as written. -/
structure Entry where
  decl : TypeDecl
  name : DottedName
  parent : Option DottedName
deriving DecidableEq

namespace Inheritance

def repeated? (seen : List String) : List String → Option String
  | [] => none
  | text :: rest => if text ∈ seen then some text else repeated? (text :: seen) rest

def placesOf (types : List Declared) (simple : String) : List (Fin types.length) :=
  (List.finRange types.length).filter fun place => (types.get place).name.simple = simple

/-- The type that a base means: the one of that name, or, for a base of one segment, the only one whose
name ends in it. -/
def resolve? (types : List Declared) (base : DottedName) : Option (Fin types.length) :=
  match types.findFinIdx? fun type => type.name.text = base.text with
  | some place => some place
  | none =>
    if base.isQualified then none
    else match placesOf types base.simple with
      | [place] => some place
      | _ => none

def parent? (types : List Declared) (place : Fin types.length) : Option (Fin types.length) := do
  resolve? types (← (types.get place).decl.base?)

def entry (types : List Declared) (place : Fin types.length) : Entry where
  decl := (types.get place).decl
  name := (types.get place).name
  parent := match parent? types place with
    | some above => some (types.get above).name
    | none => (types.get place).decl.base?

/-- What was put in order, and what was not yet looked at.  Anything else is having its ancestors
looked at. -/
structure Progress (α : Type) where
  placed : List α
  unseen : List α

variable {α : Type} [DecidableEq α]

theorem length_erase_lt {items : List α} {item : α} (member : item ∈ items) :
    (items.erase item).length < items.length := by
  have positive := List.length_pos_of_mem member
  rw [List.length_erase_of_mem member]
  omega

/-- Puts an item behind its ancestors.  An item met again while its ancestors are looked at is its own
ancestor. -/
def visit (parent : α → Option α) (progress : Progress α) (item : α) : Except α (Progress α) :=
  if item ∈ progress.placed then .ok progress
  else if fresh : item ∈ progress.unseen then do
    have := length_erase_lt fresh
    let entered := { progress with unseen := progress.unseen.erase item }
    let after ← match parent item with
      | some above => visit parent entered above
      | none => .ok entered
    return { after with placed := after.placed ++ [item] }
  else .error item
termination_by progress.unseen.length

def order (parent : α → Option α) (items : List α) : Except α (List α) := do
  let progress ← items.foldlM (visit parent) ⟨[], items⟩
  return progress.placed

end Inheritance

namespace SourceUnit

def declared (unit : SourceUnit) : List Declared :=
  unit.types.map fun decl => ⟨decl, unit.nameOf decl⟩

def entries (unit : SourceUnit) : Except InheritanceError (List Entry) :=
  let types := unit.declared
  match Inheritance.repeated? [] (types.map (·.name.text)) with
  | some name => .error (.duplicate name)
  | none =>
    match Inheritance.order (Inheritance.parent? types) (List.finRange types.length) with
    | .ok places => .ok (places.map (Inheritance.entry types))
    | .error place => .error (.cycle (types.get place).name.text)

end SourceUnit

end Beagle
