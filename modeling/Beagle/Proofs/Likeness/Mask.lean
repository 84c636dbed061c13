import Beagle.Grammar.Unit

/-!
Masks over trees, tokens and diagnostics.  A mask hides ids or places: what it sends to the same value
can no longer be told apart.  Putting nodes together does not depend on anything that is hidden, so a
mask may be laid over the parts just as well as over the whole.
-/

namespace Beagle

structure Mask where
  id : Nat → Nat
  position : Position → Position

namespace Mask

def ids : Mask :=
  ⟨fun _ => 0, fun position => position⟩

def places : Mask :=
  ⟨fun id => id, fun _ => .start⟩

end Mask

section Masking

variable (mask : Mask)

def Token.masked (token : Token) : Token :=
  { token with position := mask.position token.position }

def FileEnd.masked (fileEnd : FileEnd) : FileEnd :=
  { fileEnd with position := mask.position fileEnd.position }

def Complaint.masked : Complaint → Complaint
  | .expected kinds found => .expected kinds (found.masked mask)
  | complaint => complaint

def Diagnostic.masked (diagnostic : Diagnostic) : Diagnostic :=
  { diagnostic with
    position := diagnostic.position.map mask.position
    complaint := diagnostic.complaint.masked mask }

def AttachFault.masked (fault : AttachFault) : AttachFault :=
  ⟨mask.id fault.id, mask.id fault.parent⟩

def NodeInfo.masked (info : NodeInfo) : NodeInfo :=
  ⟨mask.id info.id, mask.position info.position, info.parent.map mask.id⟩

def TypeRef.masked (type : TypeRef) : TypeRef :=
  ⟨type.info.masked mask, type.name⟩

def Annot.masked (annot : Annot) : Annot :=
  ⟨annot.info.masked mask, annot.type.masked mask⟩

def Literal.masked (literal : Literal) : Literal :=
  ⟨literal.info.masked mask, literal.value⟩

def Declarator.masked (declarator : Declarator) : Declarator :=
  ⟨declarator.name, mask.position declarator.position, declarator.initial.map (Literal.masked mask)⟩

def Field.masked (field : Field) : Field :=
  ⟨field.info.masked mask, field.kind, field.annotations.map (Annot.masked mask), field.modifiers,
    field.type.map (TypeRef.masked mask), field.declarators.map (Declarator.masked mask)⟩

def Param.masked (param : Param) : Param :=
  ⟨param.info.masked mask, param.name, param.type.masked mask⟩

def Block.masked (block : Block) : Block :=
  ⟨block.info.masked mask, block.size⟩

def Method.masked (method : Method) : Method :=
  ⟨method.info.masked mask, method.annotations.map (Annot.masked mask), method.modifiers, method.name,
    method.params.map (Param.masked mask), method.result.map (TypeRef.masked mask),
    method.body.map (Block.masked mask)⟩

def Body.masked (body : Body) : Body :=
  ⟨body.info.masked mask, body.vars.map (Field.masked mask), body.consts.map (Field.masked mask),
    body.methods.map (Method.masked mask)⟩

def TypeDecl.masked (decl : TypeDecl) : TypeDecl :=
  ⟨decl.info.masked mask, decl.annotations.map (Annot.masked mask), decl.modifiers, decl.name,
    decl.bases.map (TypeRef.masked mask), decl.body.map (Body.masked mask)⟩

def PackageClause.masked (clause : PackageClause) : PackageClause :=
  ⟨clause.info.masked mask, clause.name⟩

def ImportClause.masked (clause : ImportClause) : ImportClause :=
  ⟨clause.info.masked mask, clause.package, clause.target⟩

def SourceUnit.masked (unit : SourceUnit) : SourceUnit :=
  ⟨unit.info.masked mask, unit.file, unit.package.map (PackageClause.masked mask),
    unit.imports.map (ImportClause.masked mask), unit.types.map (TypeDecl.masked mask)⟩

def Preamble.masked (start : Preamble) : Preamble :=
  ⟨start.info.masked mask, start.annotations.map (Annot.masked mask), start.modifiers⟩

def Grammar.Member.masked : Grammar.Member → Grammar.Member
  | .field it => .field (it.masked mask)
  | .method it => .method (it.masked mask)

end Masking

namespace Token

variable {mask : Mask} {token image : Token} (same : token.masked mask = image.masked mask)

include same

theorem kind_of_masked : token.kind = image.kind := by
  have visible := congrArg Token.kind same
  exact visible

theorem text_of_masked : token.text = image.text := by
  have visible := congrArg Token.text same
  exact visible

theorem position_of_masked : mask.position token.position = mask.position image.position := by
  have visible := congrArg Token.position same
  exact visible

end Token

theorem NodeInfo.masked_fresh {mask : Mask} {id other : Nat} {position image : Position}
    (sameId : mask.id id = mask.id other) (samePosition : mask.position position = mask.position image) :
    (NodeInfo.fresh id position).masked mask = (NodeInfo.fresh other image).masked mask := by
  simp [NodeInfo.masked, NodeInfo.fresh, sameId, samePosition]

class Maskable (α : Type) [HasInfo α] where
  masked : Mask → α → α
  info_masked : ∀ mask child, HasInfo.info (masked mask child) = (HasInfo.info child).masked mask
  masked_withInfo : ∀ mask child info, masked mask (HasInfo.withInfo child info) =
    HasInfo.withInfo (masked mask child) (info.masked mask)

instance : Maskable TypeRef := ⟨TypeRef.masked, fun _ _ => rfl, fun _ _ _ => rfl⟩
instance : Maskable Annot := ⟨Annot.masked, fun _ _ => rfl, fun _ _ _ => rfl⟩
instance : Maskable Literal := ⟨Literal.masked, fun _ _ => rfl, fun _ _ _ => rfl⟩
instance : Maskable Field := ⟨Field.masked, fun _ _ => rfl, fun _ _ _ => rfl⟩
instance : Maskable Param := ⟨Param.masked, fun _ _ => rfl, fun _ _ _ => rfl⟩
instance : Maskable Block := ⟨Block.masked, fun _ _ => rfl, fun _ _ _ => rfl⟩
instance : Maskable Method := ⟨Method.masked, fun _ _ => rfl, fun _ _ _ => rfl⟩
instance : Maskable Body := ⟨Body.masked, fun _ _ => rfl, fun _ _ _ => rfl⟩
instance : Maskable TypeDecl := ⟨TypeDecl.masked, fun _ _ => rfl, fun _ _ _ => rfl⟩
instance : Maskable PackageClause := ⟨PackageClause.masked, fun _ _ => rfl, fun _ _ _ => rfl⟩
instance : Maskable ImportClause := ⟨ImportClause.masked, fun _ _ => rfl, fun _ _ _ => rfl⟩

def Assembly.masked {α β : Type} (mask : Mask) (view : α → β) : Assembly α → Assembly β
  | .ok value => .ok (view value)
  | .error fault => .error (fault.masked mask)

variable {mask : Mask}

namespace Assembly

variable {α β γ δ : Type} {view : α → β} {later : γ → δ}

theorem masked_pure (value : α) : Assembly.masked mask view (pure value) = pure (view value) := rfl

theorem masked_bind {first : Assembly α} {image : Assembly β} {next : α → Assembly γ}
    {nextImage : β → Assembly δ} (commutes : first.masked mask view = image)
    (commutesNext : ∀ value, (next value).masked mask later = nextImage (view value)) :
    Assembly.masked mask later (first >>= next) = image >>= nextImage := by
  subst commutes
  cases first with
  | ok value => exact commutesNext value
  | error fault => rfl

theorem masked_foldlM {add : α → γ → Assembly α} {addImage : β → δ → Assembly β}
    (commutes : ∀ whole part, (add whole part).masked mask view = addImage (view whole) (later part))
    (parts : List γ) (whole : α) :
    Assembly.masked mask view (parts.foldlM add whole) =
      (parts.map later).foldlM addImage (view whole) := by
  induction parts generalizing whole with
  | nil => rfl
  | cons part parts ih =>
      rw [List.foldlM_cons, List.map_cons, List.foldlM_cons]
      exact masked_bind (commutes whole part) ih

theorem masked_elim {value : Option γ} {whole : α} {set : γ → Assembly α} {setImage : δ → Assembly β}
    (commutes : ∀ part, (set part).masked mask view = setImage (later part)) :
    Assembly.masked mask view (value.elim (pure whole) set) =
      (value.map later).elim (pure (view whole)) setImage := by
  cases value with
  | none => rfl
  | some part => exact commutes part

end Assembly

open Assembly

section Attaching

variable {α : Type} [HasInfo α] [Maskable α]

theorem NodeInfo.masked_attach (info : NodeInfo) (parent : Nat) :
    Assembly.masked mask (NodeInfo.masked mask) (info.attach parent) =
      (info.masked mask).attach (mask.id parent) := by
  obtain ⟨id, position, link⟩ := info
  cases link <;> rfl

theorem masked_attach (parent : Nat) (child : α) :
    Assembly.masked mask (Maskable.masked mask) (attach parent child) =
      attach (mask.id parent) (Maskable.masked mask child) := by
  unfold attach
  rw [Maskable.info_masked]
  refine masked_bind (NodeInfo.masked_attach _ _) fun info => ?_
  exact congrArg Except.ok (Maskable.masked_withInfo mask child info)

theorem masked_mapM_attach (parent : Nat) (children : List α) :
    Assembly.masked mask (List.map (Maskable.masked mask)) (children.mapM (attach parent)) =
      (children.map (Maskable.masked mask)).mapM (attach (mask.id parent)) := by
  induction children with
  | nil => rfl
  | cons child children ih =>
      rw [List.mapM_cons, List.map_cons, List.mapM_cons]
      exact masked_bind (masked_attach parent child) fun _ => masked_bind ih fun _ => masked_pure _

theorem masked_option_mapM_attach (parent : Nat) (child : Option α) :
    Assembly.masked mask (Option.map (Maskable.masked mask)) (child.mapM (attach parent)) =
      (child.map (Maskable.masked mask)).mapM (attach (mask.id parent)) := by
  cases child with
  | none => rfl
  | some value =>
      rw [Option.map_some, Option.mapM_some, Option.mapM_some]
      exact masked_bind (masked_attach parent value) fun _ => masked_pure _

end Attaching

theorem Annot.masked_make (info : NodeInfo) (type : TypeRef) :
    (Annot.make info type).masked mask (Annot.masked mask) =
      Annot.make (info.masked mask) (type.masked mask) :=
  masked_bind (masked_attach info.id type) fun _ => masked_pure _

theorem Param.masked_make (info : NodeInfo) (name : String) (type : TypeRef) :
    (Param.make info name type).masked mask (Param.masked mask) =
      Param.make (info.masked mask) name (type.masked mask) :=
  masked_bind (masked_attach info.id type) fun _ => masked_pure _

namespace Field

theorem masked_make (info : NodeInfo) (kind : FieldKind) (annotations : List Annot)
    (modifiers : Option Modifiers) (type : Option TypeRef) :
    (make info kind annotations modifiers type).masked mask (Field.masked mask) =
      make (info.masked mask) kind (annotations.map (Annot.masked mask)) modifiers
        (type.map (TypeRef.masked mask)) :=
  masked_bind (masked_mapM_attach info.id annotations) fun _ =>
    masked_bind (masked_option_mapM_attach info.id type) fun _ => masked_pure _

theorem masked_addDeclarator (field : Field) (declarator : Declarator) :
    (field.addDeclarator declarator).masked mask (Field.masked mask) =
      (field.masked mask).addDeclarator (declarator.masked mask) := by
  refine masked_bind (masked_option_mapM_attach field.info.id declarator.initial) fun initial => ?_
  refine congrArg Except.ok ?_
  rw [Field.masked, List.map_append]
  rfl

theorem masked_build (info : NodeInfo) (kind : FieldKind) (annotations : List Annot)
    (modifiers : Option Modifiers) (type : Option TypeRef) (declarators : List Declarator) :
    (build info kind annotations modifiers type declarators).masked mask (Field.masked mask) =
      build (info.masked mask) kind (annotations.map (Annot.masked mask)) modifiers
        (type.map (TypeRef.masked mask)) (declarators.map (Declarator.masked mask)) :=
  masked_bind (masked_make _ _ _ _ _) fun field => masked_foldlM masked_addDeclarator declarators field

end Field

namespace Method

theorem masked_make (info : NodeInfo) (annotations : List Annot) (modifiers : Option Modifiers)
    (name : String) :
    (make info annotations modifiers name).masked mask (Method.masked mask) =
      make (info.masked mask) (annotations.map (Annot.masked mask)) modifiers name :=
  masked_bind (masked_mapM_attach info.id annotations) fun _ => masked_pure _

theorem masked_addParam (method : Method) (param : Param) :
    (method.addParam param).masked mask (Method.masked mask) =
      (method.masked mask).addParam (param.masked mask) := by
  refine masked_bind (masked_attach method.info.id param) fun _ => congrArg Except.ok ?_
  rw [Method.masked, List.map_append]
  rfl

theorem masked_setResult (method : Method) (type : TypeRef) :
    (method.setResult type).masked mask (Method.masked mask) =
      (method.masked mask).setResult (type.masked mask) :=
  masked_bind (masked_attach method.info.id type) fun _ => masked_pure _

theorem masked_setBody (method : Method) (block : Block) :
    (method.setBody block).masked mask (Method.masked mask) =
      (method.masked mask).setBody (block.masked mask) :=
  masked_bind (masked_attach method.info.id block) fun _ => masked_pure _

theorem masked_build (info : NodeInfo) (annotations : List Annot) (modifiers : Option Modifiers)
    (name : String) (params : List Param) (result : Option TypeRef) (body : Option Block) :
    (build info annotations modifiers name params result body).masked mask (Method.masked mask) =
      build (info.masked mask) (annotations.map (Annot.masked mask)) modifiers name
        (params.map (Param.masked mask)) (result.map (TypeRef.masked mask))
        (body.map (Block.masked mask)) := by
  refine masked_bind (masked_make _ _ _ _) fun method => ?_
  refine masked_bind (masked_foldlM masked_addParam params method) fun method => ?_
  refine masked_bind (masked_elim (masked_setResult method)) fun method => ?_
  exact masked_elim (masked_setBody method)

end Method

namespace Body

theorem masked_addField (body : Body) (field : Field) :
    (body.addField field).masked mask (Body.masked mask) =
      (body.masked mask).addField (field.masked mask) := by
  refine masked_bind (masked_attach body.info.id field) fun field => ?_
  obtain ⟨info, kind, _⟩ := field
  cases kind with
  | mutable =>
      refine congrArg Except.ok ?_
      rw [Body.masked, List.map_append]
      rfl
  | constant =>
      refine congrArg Except.ok ?_
      rw [Body.masked, List.map_append]
      rfl

theorem masked_addMethod (body : Body) (method : Method) :
    (body.addMethod method).masked mask (Body.masked mask) =
      (body.masked mask).addMethod (method.masked mask) := by
  refine masked_bind (masked_attach body.info.id method) fun _ => congrArg Except.ok ?_
  rw [Body.masked, List.map_append]
  rfl

end Body

theorem Grammar.Member.masked_addTo (body : Body) (member : Member) :
    (member.addTo body).masked mask (Body.masked mask) = (member.masked mask).addTo (body.masked mask) := by
  cases member with
  | field it => exact body.masked_addField it
  | method it => exact body.masked_addMethod it

theorem Grammar.masked_buildBody (info : NodeInfo) (members : List Member) :
    (buildBody info members).masked mask (Body.masked mask) =
      buildBody (info.masked mask) (members.map (Member.masked mask)) :=
  masked_foldlM Member.masked_addTo members (Body.make info)

namespace TypeDecl

theorem masked_make (info : NodeInfo) (annotations : List Annot) (modifiers : Option Modifiers)
    (name : DottedName) :
    (make info annotations modifiers name).masked mask (TypeDecl.masked mask) =
      make (info.masked mask) (annotations.map (Annot.masked mask)) modifiers name :=
  masked_bind (masked_mapM_attach info.id annotations) fun _ => masked_pure _

theorem masked_addBase (decl : TypeDecl) (type : TypeRef) :
    (decl.addBase type).masked mask (TypeDecl.masked mask) =
      (decl.masked mask).addBase (type.masked mask) := by
  refine masked_bind (masked_attach decl.info.id type) fun _ => congrArg Except.ok ?_
  rw [TypeDecl.masked, List.map_append]
  rfl

theorem masked_setBody (decl : TypeDecl) (body : Body) :
    (decl.setBody body).masked mask (TypeDecl.masked mask) =
      (decl.masked mask).setBody (body.masked mask) :=
  masked_bind (masked_attach decl.info.id body) fun _ => masked_pure _

theorem masked_build (info : NodeInfo) (annotations : List Annot) (modifiers : Option Modifiers)
    (name : DottedName) (bases : List TypeRef) (body : Option Body) :
    (build info annotations modifiers name bases body).masked mask (TypeDecl.masked mask) =
      build (info.masked mask) (annotations.map (Annot.masked mask)) modifiers name
        (bases.map (TypeRef.masked mask)) (body.map (Body.masked mask)) := by
  refine masked_bind (masked_make _ _ _ _) fun decl => ?_
  refine masked_bind (masked_foldlM masked_addBase bases decl) fun decl => ?_
  exact masked_elim (masked_setBody decl)

end TypeDecl

namespace SourceUnit

theorem masked_make (info : NodeInfo) (file : String) (package : Option PackageClause) :
    (make info file package).masked mask (SourceUnit.masked mask) =
      make (info.masked mask) file (package.map (PackageClause.masked mask)) :=
  masked_bind (masked_option_mapM_attach info.id package) fun _ => masked_pure _

theorem masked_addImport (unit : SourceUnit) (clause : ImportClause) :
    (unit.addImport clause).masked mask (SourceUnit.masked mask) =
      (unit.masked mask).addImport (clause.masked mask) := by
  refine masked_bind (masked_attach unit.info.id clause) fun _ => congrArg Except.ok ?_
  rw [SourceUnit.masked, List.map_append]
  rfl

theorem masked_addType (unit : SourceUnit) (decl : TypeDecl) :
    (unit.addType decl).masked mask (SourceUnit.masked mask) =
      (unit.masked mask).addType (decl.masked mask) := by
  refine masked_bind (masked_attach unit.info.id decl) fun _ => congrArg Except.ok ?_
  rw [SourceUnit.masked, List.map_append]
  rfl

theorem masked_build (info : NodeInfo) (file : String) (package : Option PackageClause)
    (imports : List ImportClause) (types : List TypeDecl) :
    (build info file package imports types).masked mask (SourceUnit.masked mask) =
      build (info.masked mask) file (package.map (PackageClause.masked mask))
        (imports.map (ImportClause.masked mask)) (types.map (TypeDecl.masked mask)) := by
  refine masked_bind (masked_make _ _ _) fun unit => ?_
  refine masked_bind (masked_foldlM masked_addImport imports unit) fun unit => ?_
  exact masked_foldlM masked_addType types unit

end SourceUnit

end Beagle
