import Beagle.Text.Basic
import Beagle.Token.Basic

/-!
Trees of class units.  Every node has an id, the place where it starts, and a link to the node that owns
it, which is set once, when the node is attached.  A node is put together part by part, and each part is
attached to it on the way.  Names such as `geometry.plane.Point` have one or more segments.
-/

namespace Beagle

structure DottedName where
  segments : List String
  segments_ne_nil : segments ≠ []
deriving DecidableEq

namespace DottedName

def single (segment : String) : DottedName :=
  ⟨[segment], List.cons_ne_nil _ _⟩

def ofSegments? (segments : List String) : Option DottedName :=
  if nonempty : segments ≠ [] then some ⟨segments, nonempty⟩ else none

def ofText? (text : String) : Option DottedName :=
  let segments := (Text.pieces '.' text.toList).map String.ofList
  if segments.contains "" then none else ofSegments? segments

def text (name : DottedName) : String :=
  ".".intercalate name.segments

def size (name : DottedName) : Nat :=
  name.segments.length

def isQualified (name : DottedName) : Bool :=
  1 < name.size

def push (name : DottedName) (segment : String) : DottedName :=
  ⟨name.segments ++ [segment], by simp⟩

def simple (name : DottedName) : String :=
  name.segments.getLast name.segments_ne_nil

def slice? (name : DottedName) (start stop : Nat) : Option DottedName :=
  if start < stop ∧ stop ≤ name.size then ofSegments? ((name.segments.take stop).drop start) else none

def within (name package : DottedName) : DottedName :=
  ⟨package.segments ++ name.segments, by simp [name.segments_ne_nil]⟩

/-- The name a declaration has in a package: a name that is already qualified stands for itself. -/
def resolve (name : DottedName) (package : Option DottedName) : DottedName :=
  match package with
  | some package => if name.isQualified then name else name.within package
  | none => name

end DottedName

inductive BuiltinType
  | int32
  | bool
  | string
deriving DecidableEq

def BuiltinType.name : BuiltinType → String
  | .int32 => "int32"
  | .bool => "bool"
  | .string => "string"

inductive LiteralValue
  | bool (truth : Bool)
  | string (text : String)
  | integer (number : Int32)
deriving DecidableEq

namespace LiteralValue

def text : LiteralValue → String
  | .bool truth => if truth then "true" else "false"
  | .string text => Text.quote text
  | .integer number => toString number.toInt

def type : LiteralValue → BuiltinType
  | .bool _ => .bool
  | .string _ => .string
  | .integer _ => .int32

end LiteralValue

structure NodeInfo where
  id : Nat
  position : Position
  parent : Option Nat
deriving DecidableEq

structure AttachFault where
  id : Nat
  parent : Nat
deriving DecidableEq

def AttachFault.message (fault : AttachFault) : String :=
  s!"node {fault.id} is already attached to Some({fault.parent})"

namespace NodeInfo

def fresh (id : Nat) (position : Position) : NodeInfo :=
  ⟨id, position, none⟩

def attach (info : NodeInfo) (parent : Nat) : Except AttachFault NodeInfo :=
  match info.parent with
  | some earlier => .error ⟨info.id, earlier⟩
  | none => .ok { info with parent := some parent }

end NodeInfo

class HasInfo (α : Type) where
  info : α → NodeInfo
  withInfo : α → NodeInfo → α

def attach {α : Type} [HasInfo α] (parent : Nat) (child : α) : Except AttachFault α := do
  return HasInfo.withInfo child (← (HasInfo.info child).attach parent)

structure TypeRef where
  info : NodeInfo
  name : DottedName
deriving DecidableEq

structure Annot where
  info : NodeInfo
  type : TypeRef
deriving DecidableEq

structure Literal where
  info : NodeInfo
  value : LiteralValue
deriving DecidableEq

structure Declarator where
  name : String
  position : Position
  initial : Option Literal
deriving DecidableEq

inductive FieldKind
  | mutable
  | constant
deriving DecidableEq

structure Field where
  info : NodeInfo
  kind : FieldKind
  annotations : List Annot
  modifiers : Option Modifiers
  type : Option TypeRef
  declarators : List Declarator
deriving DecidableEq

structure Param where
  info : NodeInfo
  name : String
  type : TypeRef
deriving DecidableEq

/-- The body of a method, of which only the number of tokens between its braces is kept. -/
structure Block where
  info : NodeInfo
  size : Nat
deriving DecidableEq

structure Method where
  info : NodeInfo
  annotations : List Annot
  modifiers : Option Modifiers
  name : String
  params : List Param
  result : Option TypeRef
  body : Option Block
deriving DecidableEq

structure Body where
  info : NodeInfo
  vars : List Field
  consts : List Field
  methods : List Method
deriving DecidableEq

structure TypeDecl where
  info : NodeInfo
  annotations : List Annot
  modifiers : Option Modifiers
  name : DottedName
  bases : List TypeRef
  body : Option Body
deriving DecidableEq

structure PackageClause where
  info : NodeInfo
  name : DottedName
deriving DecidableEq

inductive ImportTarget
  | everything
  | type (name : DottedName)
deriving DecidableEq

structure ImportClause where
  info : NodeInfo
  package : DottedName
  target : ImportTarget
deriving DecidableEq

structure SourceUnit where
  info : NodeInfo
  file : String
  package : Option PackageClause
  imports : List ImportClause
  types : List TypeDecl
deriving DecidableEq

instance : HasInfo TypeRef := ⟨(·.info), fun node info => { node with info }⟩
instance : HasInfo Annot := ⟨(·.info), fun node info => { node with info }⟩
instance : HasInfo Literal := ⟨(·.info), fun node info => { node with info }⟩
instance : HasInfo Field := ⟨(·.info), fun node info => { node with info }⟩
instance : HasInfo Param := ⟨(·.info), fun node info => { node with info }⟩
instance : HasInfo Block := ⟨(·.info), fun node info => { node with info }⟩
instance : HasInfo Method := ⟨(·.info), fun node info => { node with info }⟩
instance : HasInfo Body := ⟨(·.info), fun node info => { node with info }⟩
instance : HasInfo TypeDecl := ⟨(·.info), fun node info => { node with info }⟩
instance : HasInfo PackageClause := ⟨(·.info), fun node info => { node with info }⟩
instance : HasInfo ImportClause := ⟨(·.info), fun node info => { node with info }⟩

abbrev Assembly := Except AttachFault

def Annot.make (info : NodeInfo) (type : TypeRef) : Assembly Annot := do
  return ⟨info, ← attach info.id type⟩

def Param.make (info : NodeInfo) (name : String) (type : TypeRef) : Assembly Param := do
  return ⟨info, name, ← attach info.id type⟩

namespace Field

def make (info : NodeInfo) (kind : FieldKind) (annotations : List Annot)
    (modifiers : Option Modifiers) (type : Option TypeRef) : Assembly Field := do
  let annotations ← annotations.mapM (attach info.id)
  let type ← type.mapM (attach info.id)
  return ⟨info, kind, annotations, modifiers, type, []⟩

def addAnnot (field : Field) (annot : Annot) : Assembly Field := do
  let annot ← attach field.info.id annot
  return { field with annotations := field.annotations ++ [annot] }

def addDeclarator (field : Field) (declarator : Declarator) : Assembly Field := do
  let initial ← declarator.initial.mapM (attach field.info.id)
  return { field with declarators := field.declarators ++ [{ declarator with initial }] }

def build (info : NodeInfo) (kind : FieldKind) (annotations : List Annot)
    (modifiers : Option Modifiers) (type : Option TypeRef) (declarators : List Declarator) :
    Assembly Field := do
  let field ← make info kind annotations modifiers type
  declarators.foldlM addDeclarator field

end Field

namespace Method

def make (info : NodeInfo) (annotations : List Annot) (modifiers : Option Modifiers)
    (name : String) : Assembly Method := do
  let annotations ← annotations.mapM (attach info.id)
  return ⟨info, annotations, modifiers, name, [], none, none⟩

def addParam (method : Method) (param : Param) : Assembly Method := do
  let param ← attach method.info.id param
  return { method with params := method.params ++ [param] }

def setResult (method : Method) (type : TypeRef) : Assembly Method := do
  return { method with result := some (← attach method.info.id type) }

def setBody (method : Method) (block : Block) : Assembly Method := do
  return { method with body := some (← attach method.info.id block) }

def build (info : NodeInfo) (annotations : List Annot) (modifiers : Option Modifiers)
    (name : String) (params : List Param) (result : Option TypeRef) (body : Option Block) :
    Assembly Method := do
  let method ← make info annotations modifiers name
  let method ← params.foldlM addParam method
  let method ← result.elim (pure method) method.setResult
  body.elim (pure method) method.setBody

end Method

namespace Body

def make (info : NodeInfo) : Body :=
  ⟨info, [], [], []⟩

def addField (body : Body) (field : Field) : Assembly Body := do
  let field ← attach body.info.id field
  match field.kind with
  | .mutable => return { body with vars := body.vars ++ [field] }
  | .constant => return { body with consts := body.consts ++ [field] }

def addMethod (body : Body) (method : Method) : Assembly Body := do
  let method ← attach body.info.id method
  return { body with methods := body.methods ++ [method] }

end Body

namespace TypeDecl

def make (info : NodeInfo) (annotations : List Annot) (modifiers : Option Modifiers)
    (name : DottedName) : Assembly TypeDecl := do
  let annotations ← annotations.mapM (attach info.id)
  return ⟨info, annotations, modifiers, name, [], none⟩

def addBase (decl : TypeDecl) (type : TypeRef) : Assembly TypeDecl := do
  let type ← attach decl.info.id type
  return { decl with bases := decl.bases ++ [type] }

def setBody (decl : TypeDecl) (body : Body) : Assembly TypeDecl := do
  return { decl with body := some (← attach decl.info.id body) }

def build (info : NodeInfo) (annotations : List Annot) (modifiers : Option Modifiers)
    (name : DottedName) (bases : List TypeRef) (body : Option Body) : Assembly TypeDecl := do
  let decl ← make info annotations modifiers name
  let decl ← bases.foldlM addBase decl
  body.elim (pure decl) decl.setBody

def base? (decl : TypeDecl) : Option DottedName :=
  decl.bases.head?.map TypeRef.name

end TypeDecl

namespace SourceUnit

def make (info : NodeInfo) (file : String) (package : Option PackageClause) :
    Assembly SourceUnit := do
  let package ← package.mapM (attach info.id)
  return ⟨info, file, package, [], []⟩

def addImport (unit : SourceUnit) (clause : ImportClause) : Assembly SourceUnit := do
  let clause ← attach unit.info.id clause
  return { unit with imports := unit.imports ++ [clause] }

def addType (unit : SourceUnit) (decl : TypeDecl) : Assembly SourceUnit := do
  let decl ← attach unit.info.id decl
  return { unit with types := unit.types ++ [decl] }

def build (info : NodeInfo) (file : String) (package : Option PackageClause)
    (imports : List ImportClause) (types : List TypeDecl) : Assembly SourceUnit := do
  let unit ← make info file package
  let unit ← imports.foldlM addImport unit
  types.foldlM addType unit

def packageName (unit : SourceUnit) : Option DottedName :=
  unit.package.map PackageClause.name

def nameOf (unit : SourceUnit) (decl : TypeDecl) : DottedName :=
  decl.name.resolve unit.packageName

def moduleName (unit : SourceUnit) : String :=
  match unit.packageName with
  | some package => package.text
  | none => (Text.fileStem? unit.file).getD unit.file

end SourceUnit

end Beagle
