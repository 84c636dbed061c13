import Beagle.Grammar.Repeat
import Beagle.Lexeme

/-!
Units: a package, imports, and one or more classes with their fields and methods.
-/

namespace Beagle

namespace Declarator

def pair : List (String × Position) → List Literal → List Declarator
  | [], _ => []
  | (name, position) :: names, [] => ⟨name, position, none⟩ :: pair names []
  | (name, position) :: names, initial :: initials =>
    ⟨name, position, some initial⟩ :: pair names initials

end Declarator

structure Preamble where
  info : NodeInfo
  annotations : List Annot
  modifiers : Option Modifiers

namespace Grammar

open Rule

variable {σ : Type} [TokenSource σ]

def isTerminator : Kind → Bool
  | .mark .semicolon | .lineEnd => true
  | _ => false

def terminatorStep : Rule σ (Option Unit) :=
  takeWhen fun token => if isTerminator token.kind then some () else none

theorem consumesWhen_terminatorStep :
    (terminatorStep : Rule σ (Option Unit)).ConsumesWhen fun taken => taken.isSome :=
  consumesWhen_takeWhen fun token last => by simp [last, isTerminator]

def terminators : Rule σ Unit := do
  let _ ← collect terminatorStep consumesWhen_terminatorStep

def simpleName : Rule σ String := do
  return (← expect .identifier).text

def segmentStep : Rule σ (Option String) := do
  if ← startsWith [.mark .dot, .identifier] then
    let _ ← expect (.mark .dot)
    return some (← simpleName)
  else return none

theorem consumesWhen_segmentStep :
    (segmentStep : Rule σ (Option String)).ConsumesWhen fun segment => segment.isSome := by
  refine consumesWhen_bind_of_second fun found => ?_
  cases found with
  | false => exact consumesWhen_pure (by simp)
  | true => exact consumesWhen_bind_of_first (consumes_expect (by simp))

/-- A name of one or more segments.  A dot that no identifier follows is left alone. -/
def qualifiedName : Rule σ DottedName := do
  let first ← simpleName
  let rest ← collect segmentStep consumesWhen_segmentStep
  return ⟨first :: rest, List.cons_ne_nil _ _⟩

def typeRef : Rule σ TypeRef := do
  let info ← node
  return ⟨info, ← qualifiedName⟩

def annot : Rule σ Annot := do
  let info ← node
  let _ ← expect (.mark .atSign)
  let type ← typeRef
  assemble (Annot.make info type)

theorem consumes_annot : (annot : Rule σ Annot).Consumes :=
  consumesWhen_bind_of_second fun _ => consumesWhen_bind_of_first (consumes_expect (by simp))

def annotations : Rule σ (List Annot) :=
  collect (whenNext (.mark .atSign) annot) (consumesWhen_whenNext consumes_annot)

def modifierStep : Rule σ (Option (Modifier × Position)) :=
  takeWhen fun token =>
    match token.kind with
    | .modifier word => some (word, token.position)
    | _ => none

theorem consumesWhen_modifierStep :
    (modifierStep : Rule σ (Option (Modifier × Position))).ConsumesWhen fun taken => taken.isSome :=
  consumesWhen_takeWhen fun token last => by simp [last]

def warnRepeated (seen : Modifiers) : List (Modifier × Position) → Rule σ Unit
  | [] => return
  | (word, position) :: rest => do
    if seen.contains word then report .warning position (.repeatedModifier word)
    warnRepeated (seen.insert word) rest

def modifiers : Rule σ (Option Modifiers) := do
  let run ← collect modifierStep consumesWhen_modifierStep
  warnRepeated .empty run
  return if run.isEmpty then none else some (.ofList (run.map Prod.fst))

def literalKinds : List Kind :=
  [.keyword .trueWord, .keyword .falseWord, .string, .integer]

def literalValue? (token : Token) : Option LiteralValue :=
  match token.kind with
  | .keyword .trueWord => some (.bool true)
  | .keyword .falseWord => some (.bool false)
  | .string => some (.string token.text)
  | .integer => (Numeral.int32? token.text).map .integer
  | _ => none

/-- A literal.  An integer out of range is reported and not used up. -/
def literal : Rule σ Literal := do
  let token ← demand literalKinds
  let info ← node
  match literalValue? token with
  | some value =>
    discard 1
    return ⟨info, value⟩
  | none => refuse token.position (.integerRange token.text)

def preamble : Rule σ Preamble := do
  let info ← node
  let annotations ← annotations
  let modifiers ← modifiers
  return ⟨info, annotations, modifiers⟩

def declaredName : Rule σ (String × Position) := do
  let position := (← current).position
  return (← simpleName, position)

def optionalType : Rule σ (Option TypeRef) :=
  after (.mark .colon) typeRef

def initials (kind : FieldKind) : Rule σ (List Literal) := do
  match ← after (.mark .assign) (commaSeparated literal), kind with
  | some literals, _ => return literals
  | none, .mutable => return []
  | none, .constant => refuseExpected [.mark .assign]

def fieldWord : FieldKind → Keyword
  | .mutable => .varWord
  | .constant => .constWord

def field (start : Preamble) (kind : FieldKind) : Rule σ Field := do
  let _ ← expect (.keyword (fieldWord kind))
  let names ← commaSeparated declaredName
  let type ← optionalType
  let initials ← initials kind
  if !initials.isEmpty && initials.length ≠ names.length then
    refuse start.info.position .initializerCount
  else assemble (Field.build start.info kind start.annotations start.modifiers type
    (Declarator.pair names initials))

def param : Rule σ Param := do
  let info ← node
  let name ← simpleName
  let _ ← expect (.mark .colon)
  let type ← typeRef
  assemble (Param.make info name type)

def paramList : Rule σ (List Param) := do
  if ← check (.mark .rightParen) then return [] else commaSeparated param

def params : Rule σ (List Param) := do
  let _ ← expect (.mark .leftParen)
  let params ← paramList
  let _ ← expect (.mark .rightParen)
  return params

structure BlockProgress where
  depth : Nat
  size : Nat

def isBlockToken (kind : Kind) : Bool :=
  kind ≠ .fileEnd && kind ≠ .invalid

def BlockProgress.take (progress : BlockProgress) : Kind → BlockProgress ⊕ Nat
  | .mark .leftBrace => .inl ⟨progress.depth + 1, progress.size + 1⟩
  | .mark .rightBrace =>
    match progress.depth with
    | 0 => .inr progress.size
    | depth + 1 => .inl ⟨depth, progress.size + 1⟩
  | _ => .inl ⟨progress.depth, progress.size + 1⟩

def blockStep (progress : BlockProgress) : Rule σ (BlockProgress ⊕ Nat) := do
  match ← takeWhen fun token => if isBlockToken token.kind then some token.kind else none with
  | some kind => return progress.take kind
  | none => refuseExpected [.mark .rightBrace]

theorem consumesWhen_blockStep (progress : BlockProgress) :
    (blockStep progress : Rule σ _).ConsumesWhen fun next => next.isLeft := by
  refine (consumesWhen_takeWhen fun token last => by simp [last, isBlockToken]).bind ?_
  intro taken absent
  cases taken with
  | none => exact (consumes_refuseExpected _).when _
  | some kind => simp at absent

/-- The body of a method: everything up to the matching brace. -/
def block : Rule σ Block := do
  let info ← node
  let _ ← expect (.mark .leftBrace)
  let size ← loop blockStep consumesWhen_blockStep ⟨0, 0⟩
  return ⟨info, size⟩

def method (start : Preamble) : Rule σ Method := do
  let _ ← expect (.keyword .defWord)
  let name ← simpleName
  let params ← params
  let result ← optionalType
  let body ← whenNext (.mark .leftBrace) block
  assemble (Method.build start.info start.annotations start.modifiers name params result body)

inductive Member
  | field (field : Field)
  | method (method : Method)

def Member.addTo (body : Body) : Member → Assembly Body
  | .field it => body.addField it
  | .method it => body.addMethod it

def buildBody (info : NodeInfo) (members : List Member) : Assembly Body :=
  members.foldlM Member.addTo (Body.make info)

theorem consumes_field (start : Preamble) (kind : FieldKind) :
    (field start kind : Rule σ Field).Consumes :=
  consumesWhen_bind_of_first (consumes_expect (by simp))

theorem consumes_method (start : Preamble) : (method start : Rule σ Method).Consumes :=
  consumesWhen_bind_of_first (consumes_expect (by simp))

def memberAfter (start : Preamble) : Rule σ (Option Member) := do
  match (← current).kind with
  | .keyword .varWord => return some (.field (← field start .mutable))
  | .keyword .constWord => return some (.field (← field start .constant))
  | .keyword .defWord => return some (.method (← method start))
  | _ =>
    reportExpected [.keyword .varWord, .keyword .constWord]
    return none

theorem consumesWhen_memberAfter (start : Preamble) :
    (memberAfter start : Rule σ (Option Member)).ConsumesWhen fun member => member.isSome := by
  refine consumesWhen_bind_of_second fun token => ?_
  split
  · exact consumesWhen_bind_of_first (consumes_field _ _)
  · exact consumesWhen_bind_of_first (consumes_field _ _)
  · exact consumesWhen_bind_of_first (consumes_method _)
  · exact consumesWhen_bind_of_second fun _ => consumesWhen_pure (by simp)

def memberStep : Rule σ (Option Member) := do
  terminators
  if ← check (.mark .rightBrace) then return none else memberAfter (← preamble)

theorem consumesWhen_memberStep :
    (memberStep : Rule σ (Option Member)).ConsumesWhen fun member => member.isSome := by
  refine consumesWhen_bind_of_second fun _ => consumesWhen_bind_of_second fun closed => ?_
  cases closed with
  | true => exact consumesWhen_pure (by simp)
  | false => exact consumesWhen_bind_of_second consumesWhen_memberAfter

/-- The body of a class.  The token behind its members is used up, whatever it is. -/
def body : Rule σ Body := do
  let info ← node
  let _ ← expect (.mark .leftBrace)
  let members ← collect memberStep consumesWhen_memberStep
  discard 1
  assemble (buildBody info members)

def bases : Rule σ (List TypeRef) := do
  return (← after (.mark .colon) (commaSeparated typeRef)).getD []

def typeDecl : Rule σ TypeDecl := do
  let start ← preamble
  let _ ← expect (.keyword .classWord)
  let name ← qualifiedName
  let bases ← bases
  terminators
  let body ← whenNext (.mark .leftBrace) body
  assemble (TypeDecl.build start.info start.annotations start.modifiers name bases body)

theorem consumes_typeDecl : (typeDecl : Rule σ TypeDecl).Consumes :=
  consumesWhen_bind_of_second fun _ => consumesWhen_bind_of_first (consumes_expect (by simp))

def packageClause : Rule σ PackageClause := do
  let info ← node
  let _ ← expect (.keyword .packageWord)
  return ⟨info, ← qualifiedName⟩

def importClause : Rule σ ImportClause := do
  let info ← node
  let _ ← expect (.keyword .importWord)
  let name ← qualifiedName
  if ← startsWith [.mark .dot, .mark .star] then
    discard 2
    return ⟨info, name, .everything⟩
  else match name.slice? 0 (name.size - 1) with
    | some package => return ⟨info, package, .type (.single name.simple)⟩
    | none => refuse info.position .unqualifiedImport

theorem consumes_importClause : (importClause : Rule σ ImportClause).Consumes :=
  consumesWhen_bind_of_second fun _ => consumesWhen_bind_of_first (consumes_expect (by simp))

def importStep : Rule σ (Option ImportClause) := do
  if ← check (.keyword .importWord) then
    match ← importClause.attempt with
    | some clause =>
      terminators
      return some clause
    | none => return none
  else return none

theorem consumesWhen_importStep :
    (importStep : Rule σ (Option ImportClause)).ConsumesWhen fun clause => clause.isSome := by
  refine consumesWhen_bind_of_second fun found => ?_
  cases found with
  | false => exact consumesWhen_pure (by simp)
  | true =>
      refine (consumesWhen_attempt consumes_importClause).bind fun clause absent => ?_
      cases clause with
      | none => exact consumesWhen_pure (by simp)
      | some clause => simp at absent

def typeStep : Rule σ (Option TypeDecl) := do
  terminators
  if ← check .fileEnd then return none else return some (← typeDecl)

theorem consumesWhen_typeStep :
    (typeStep : Rule σ (Option TypeDecl)).ConsumesWhen fun decl => decl.isSome := by
  refine consumesWhen_bind_of_second fun _ => consumesWhen_bind_of_second fun ended => ?_
  cases ended with
  | true => exact consumesWhen_pure (by simp)
  | false => exact consumesWhen_bind_of_first consumes_typeDecl

def unit (file : String) : Rule σ SourceUnit := do
  let info ← node
  terminators
  let package ← whenNext (.keyword .packageWord) packageClause
  terminators
  let imports ← collect importStep consumesWhen_importStep
  terminators
  let first ← typeDecl
  let rest ← collect typeStep consumesWhen_typeStep
  assemble (SourceUnit.build info file package imports (first :: rest))

end Grammar

def State.parse {σ : Type} [TokenSource σ] (state : State σ) : Except Stop SourceUnit × State σ :=
  let begun := { state with session := state.session.begin state.file }
  let (result, state) := (Grammar.unit state.file).run begun
  (result, { state with session := state.session.finish })

end Beagle
