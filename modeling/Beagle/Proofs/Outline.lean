import Beagle.Proofs.Ownership
import Beagle.Proofs.Spelling

/-!
Outlines of trees: what is left of a tree without ids, links and the name of its file.  Two trees with
one outline differ in nothing that a text says.
-/

namespace Beagle

def NodeInfo.outline (info : NodeInfo) : NodeInfo :=
  .fresh 0 info.position

def TypeRef.outline (type : TypeRef) : TypeRef :=
  ⟨type.info.outline, type.name⟩

def Annot.outline (annot : Annot) : Annot :=
  ⟨annot.info.outline, annot.type.outline⟩

def Literal.outline (literal : Literal) : Literal :=
  ⟨literal.info.outline, literal.value⟩

def Declarator.outline (declarator : Declarator) : Declarator :=
  { declarator with initial := declarator.initial.map Literal.outline }

def Field.outline (field : Field) : Field :=
  ⟨field.info.outline, field.kind, field.annotations.map Annot.outline, field.modifiers,
    field.type.map TypeRef.outline, field.declarators.map Declarator.outline⟩

def Param.outline (param : Param) : Param :=
  ⟨param.info.outline, param.name, param.type.outline⟩

def Block.outline (block : Block) : Block :=
  ⟨block.info.outline, block.size⟩

def Method.outline (method : Method) : Method :=
  ⟨method.info.outline, method.annotations.map Annot.outline, method.modifiers, method.name,
    method.params.map Param.outline, method.result.map TypeRef.outline, method.body.map Block.outline⟩

def Body.outline (body : Body) : Body :=
  ⟨body.info.outline, body.vars.map Field.outline, body.consts.map Field.outline,
    body.methods.map Method.outline⟩

def TypeDecl.outline (decl : TypeDecl) : TypeDecl :=
  ⟨decl.info.outline, decl.annotations.map Annot.outline, decl.modifiers, decl.name,
    decl.bases.map TypeRef.outline, decl.body.map Body.outline⟩

def PackageClause.outline (clause : PackageClause) : PackageClause :=
  ⟨clause.info.outline, clause.name⟩

def ImportClause.outline (clause : ImportClause) : ImportClause :=
  ⟨clause.info.outline, clause.package, clause.target⟩

def SourceUnit.outline (unit : SourceUnit) : SourceUnit :=
  ⟨unit.info.outline, "", unit.package.map PackageClause.outline, unit.imports.map ImportClause.outline,
    unit.types.map TypeDecl.outline⟩

def Grammar.Member.outline : Grammar.Member → Grammar.Member
  | .field it => .field it.outline
  | .method it => .method it.outline

def Preamble.outline (start : Preamble) : Preamble :=
  ⟨start.info.outline, start.annotations.map Annot.outline, start.modifiers⟩

theorem NodeInfo.outline_eq {first second : NodeInfo} (same : first.position = second.position) :
    first.outline = second.outline :=
  congrArg (NodeInfo.fresh 0) same

section Links

variable (parent : Nat)

@[simp] theorem TypeRef.outline_owned (type : TypeRef) : (owned parent type).outline = type.outline := rfl

@[simp] theorem Annot.outline_owned (annot : Annot) : (owned parent annot).outline = annot.outline := rfl

@[simp] theorem Literal.outline_owned (literal : Literal) :
    (owned parent literal).outline = literal.outline := rfl

@[simp] theorem Declarator.outline_owned (declarator : Declarator) :
    (declarator.owned parent).outline = declarator.outline := by
  simp [outline, Declarator.owned, Function.comp_def]

@[simp] theorem Field.outline_owned (field : Field) : (owned parent field).outline = field.outline := rfl

@[simp] theorem Param.outline_owned (param : Param) : (owned parent param).outline = param.outline := rfl

@[simp] theorem Block.outline_owned (block : Block) : (owned parent block).outline = block.outline := rfl

@[simp] theorem Method.outline_owned (method : Method) :
    (owned parent method).outline = method.outline := rfl

@[simp] theorem Body.outline_owned (body : Body) : (owned parent body).outline = body.outline := rfl

@[simp] theorem TypeDecl.outline_owned (decl : TypeDecl) : (owned parent decl).outline = decl.outline := rfl

@[simp] theorem PackageClause.outline_owned (clause : PackageClause) :
    (owned parent clause).outline = clause.outline := rfl

@[simp] theorem ImportClause.outline_owned (clause : ImportClause) :
    (owned parent clause).outline = clause.outline := rfl

end Links

end Beagle
