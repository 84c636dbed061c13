import Beagle.Grammar.Unit
import Mathlib.Computability.Language

/-!
The documented grammar, written as the spellings of trees: for every tree the runs of tokens that it is
read from.  Products of languages put one text behind another.  The kinds of tokens, the texts of names
and literals and the places where nodes start are part of a spelling; ids and links are not.
-/

namespace Beagle

namespace Grammar.Member

def var? : Member → Option Field
  | .field it => if it.kind = .mutable then some it else none
  | .method _ => none

def const? : Member → Option Field
  | .field it => if it.kind = .constant then some it else none
  | .method _ => none

def method? : Member → Option Method
  | .field _ => none
  | .method it => some it

end Grammar.Member

def Body.ofMembers (info : NodeInfo) (members : List Grammar.Member) : Body :=
  ⟨info, members.filterMap (·.var?), members.filterMap (·.const?),
    members.filterMap (·.method?)⟩

namespace Spelling

def word (kind : Kind) : Language Token :=
  {tokens | ∃ token, token.kind = kind ∧ tokens = [token]}

def mark (sign : Mark) : Language Token := word (.mark sign)

def keyword (reserved : Keyword) : Language Token := word (.keyword reserved)

def identifier (text : String) : Language Token :=
  {tokens | ∃ token, token.kind = .identifier ∧ token.text = text ∧ tokens = [token]}

def terminators : Language Token :=
  {tokens | ∀ token ∈ tokens, token.kind = .mark .semicolon ∨ token.kind = .lineEnd}

def maybe {α : Type} (text : α → Language Token) : Option α → Language Token
  | none => 1
  | some value => text value

def separated (sign : Mark) : List (Language Token) → Language Token
  | [] => 0
  | first :: rest => first * (rest.map (mark sign * ·)).prod

def placed (info : NodeInfo) (text : Language Token) : Language Token :=
  {tokens | tokens ∈ text ∧ tokens.head?.map Token.position = some info.position}

def ofName (name : DottedName) : Language Token :=
  separated .dot (name.segments.map identifier)

def ofTypeRef (type : TypeRef) : Language Token :=
  placed type.info (ofName type.name)

def ofAnnot (annot : Annot) : Language Token :=
  placed annot.info (mark .atSign * ofTypeRef annot.type)

def ofAnnots (annotations : List Annot) : Language Token :=
  (annotations.map ofAnnot).prod

/-- A run of modifiers in any order, repeated or not; an empty run stands for none. -/
def ofModifiers (modifiers : Option Modifiers) : Language Token :=
  {tokens | ∃ words : List Modifier, tokens.map Token.kind = words.map .modifier ∧
    modifiers = if words = [] then none else some (.ofList words)}

def Denotes (token : Token) : LiteralValue → Prop
  | .bool truth => token.kind = .keyword (if truth then .trueWord else .falseWord)
  | .string text => token.kind = .string ∧ token.text = text
  | .integer number => token.kind = .integer ∧ Numeral.int32? token.text = some number

def ofLiteral (literal : Literal) : Language Token :=
  placed literal.info {tokens | ∃ token, Denotes token literal.value ∧ tokens = [token]}

def declared (name : String × Position) : Language Token :=
  {tokens | ∃ token, token.kind = .identifier ∧ token.text = name.1 ∧ token.position = name.2 ∧
    tokens = [token]}

def ofDeclared (declarator : Declarator) : Language Token :=
  declared (declarator.name, declarator.position)

def ofOptionalType (type : Option TypeRef) : Language Token :=
  maybe (mark .colon * ofTypeRef ·) type

/-- Either no declarator has an initial value, which only variables allow, or each has one. -/
def ofInitials (kind : FieldKind) (declarators : List Declarator) : Language Token :=
  {tokens | (kind = .mutable ∧ (∀ declarator ∈ declarators, declarator.initial = none) ∧ tokens = []) ∨
    ∃ initials : List Literal, declarators.map Declarator.initial = initials.map some ∧
      tokens ∈ mark .assign * separated .comma (initials.map ofLiteral)}

def ofField (field : Field) : Language Token :=
  placed field.info (ofAnnots field.annotations * ofModifiers field.modifiers *
    keyword (Grammar.fieldWord field.kind) * separated .comma (field.declarators.map ofDeclared) *
    ofOptionalType field.type * ofInitials field.kind field.declarators)

def ofParam (param : Param) : Language Token :=
  placed param.info (identifier param.name * mark .colon * ofTypeRef param.type)

def ofParams (params : List Param) : Language Token :=
  mark .leftParen * (if params = [] then 1 else separated .comma (params.map ofParam)) *
    mark .rightParen

def countMark (sign : Mark) (tokens : List Token) : Nat :=
  tokens.countP fun token => token.kind = .mark sign

/-- Where `depth` braces are open already, all braces are closed in the end, and nowhere are more
closed than opened. -/
structure Balanced (depth : Nat) (tokens : List Token) : Prop where
  closed : countMark .rightBrace tokens = countMark .leftBrace tokens + depth
  opened : ∀ before, before <+: tokens →
    countMark .rightBrace before ≤ countMark .leftBrace before + depth

def ofBlockInside (size : Nat) : Language Token :=
  {tokens | Balanced 0 tokens ∧ (∀ token ∈ tokens, token.kind ≠ .invalid) ∧ tokens.length = size}

def ofBlock (block : Block) : Language Token :=
  placed block.info (mark .leftBrace * ofBlockInside block.size * mark .rightBrace)

def ofMethod (method : Method) : Language Token :=
  placed method.info (ofAnnots method.annotations * ofModifiers method.modifiers *
    keyword .defWord * identifier method.name * ofParams method.params *
    ofOptionalType method.result * maybe ofBlock method.body)

def ofMember : Grammar.Member → Language Token
  | .field it => ofField it
  | .method it => ofMethod it

def ofMembers (members : List Grammar.Member) : Language Token :=
  (members.map fun member => terminators * ofMember member).prod

def ofBody (body : Body) : Language Token :=
  {tokens | ∃ members, body = .ofMembers body.info members ∧
    tokens ∈ placed body.info
      (mark .leftBrace * ofMembers members * terminators * mark .rightBrace)}

def ofBases (bases : List TypeRef) : Language Token :=
  if bases = [] then 1 else mark .colon * separated .comma (bases.map ofTypeRef)

def ofTypeDecl (decl : TypeDecl) : Language Token :=
  placed decl.info (ofAnnots decl.annotations * ofModifiers decl.modifiers *
    keyword .classWord * ofName decl.name * ofBases decl.bases * terminators *
    maybe ofBody decl.body)

def ofPackage (clause : PackageClause) : Language Token :=
  placed clause.info (keyword .packageWord * ofName clause.name)

def ofImportTarget (package : DottedName) : ImportTarget → Language Token
  | .everything => ofName package * mark .dot * mark .star
  | .type name => {tokens | name.size = 1 ∧ tokens ∈ ofName (name.within package)}

def ofImport (clause : ImportClause) : Language Token :=
  placed clause.info (keyword .importWord * ofImportTarget clause.package clause.target)

def ofImports (imports : List ImportClause) : Language Token :=
  (imports.map fun clause => ofImport clause * terminators).prod

def ofTypes (types : List TypeDecl) : Language Token :=
  (types.map fun decl => terminators * ofTypeDecl decl).prod

def ofUnit (unit : SourceUnit) : Language Token :=
  {tokens | unit.types ≠ [] ∧
    tokens ∈ placed unit.info (terminators * maybe ofPackage unit.package * terminators *
      ofImports unit.imports * ofTypes unit.types * terminators)}

theorem ofTypes_cons (decl : TypeDecl) (types : List TypeDecl) :
    ofTypes (decl :: types) = terminators * ofTypeDecl decl * ofTypes types := rfl

theorem singleton_mem_word {token : Token} {kind : Kind} (found : token.kind = kind) :
    [token] ∈ word kind :=
  ⟨token, found, rfl⟩

@[simp] theorem nil_mem_mul {first second : Language Token} :
    [] ∈ first * second ↔ [] ∈ first ∧ [] ∈ second := by
  simp [Language.mem_mul]

@[simp] theorem nil_notMem_word (kind : Kind) : [] ∉ word kind := by
  rintro ⟨token, _, same⟩
  simp at same

@[simp] theorem nil_notMem_mark (sign : Mark) : [] ∉ mark sign :=
  nil_notMem_word _

@[simp] theorem nil_notMem_keyword (reserved : Keyword) : [] ∉ keyword reserved :=
  nil_notMem_word _

@[simp] theorem nil_notMem_identifier (text : String) : [] ∉ identifier text := by
  rintro ⟨token, _, _, same⟩
  simp at same

theorem mem_prod_word_iff {kinds : List Kind} {tokens : List Token} :
    tokens ∈ (kinds.map word).prod ↔ tokens.map Token.kind = kinds := by
  induction kinds generalizing tokens with
  | nil => simp
  | cons kind kinds ih =>
      rw [List.map_cons, List.prod_cons, Language.mem_mul]
      constructor
      · rintro ⟨_, ⟨token, found, rfl⟩, rest, spells, rfl⟩
        simp [found, ih.mp spells]
      · intro same
        cases tokens with
        | nil => simp at same
        | cons token rest =>
            obtain ⟨found, others⟩ := List.cons.inj same
            exact ⟨[token], singleton_mem_word found, rest, ih.mpr others, rfl⟩

theorem nil_notMem_separated {sign : Mark} {texts : List (Language Token)}
    (nonempty : ∀ text ∈ texts, [] ∉ text) : [] ∉ separated sign texts := by
  cases texts with
  | nil => exact Language.notMem_zero _
  | cons first rest =>
      rw [separated, nil_mem_mul]
      exact fun both => nonempty first (by simp) both.1

@[simp] theorem nil_notMem_ofName (name : DottedName) : [] ∉ ofName name := by
  refine nil_notMem_separated fun text member => ?_
  obtain ⟨segment, _, rfl⟩ := List.mem_map.mp member
  exact nil_notMem_identifier segment

@[simp] theorem nil_notMem_placed (info : NodeInfo) (text : Language Token) : [] ∉ placed info text := by
  rintro ⟨_, position⟩
  simp at position

section Braces

variable {depth : Nat} {token : Token} {tokens : List Token}

theorem countMark_cons (sign : Mark) (token : Token) (tokens : List Token) :
    countMark sign (token :: tokens) =
      countMark sign tokens + if token.kind = .mark sign then 1 else 0 := by
  simp [countMark, List.countP_cons]

theorem balanced_nil_iff : Balanced depth [] ↔ depth = 0 := by
  constructor
  · intro balanced
    simpa [countMark] using balanced.closed.symm
  · rintro rfl
    exact ⟨rfl, fun before isPrefix => by simp [List.prefix_nil.mp isPrefix, countMark]⟩

theorem balanced_cons_iff {after : Nat}
    (moves : after + (if token.kind = .mark .rightBrace then 1 else 0) =
      depth + if token.kind = .mark .leftBrace then 1 else 0) :
    Balanced depth (token :: tokens) ↔ Balanced after tokens := by
  constructor
  · intro balanced
    refine ⟨?_, fun before isPrefix => ?_⟩
    · have closed := balanced.closed
      rw [countMark_cons, countMark_cons] at closed
      omega
    · have opened := balanced.opened (token :: before) (List.cons_prefix_cons.mpr ⟨rfl, isPrefix⟩)
      rw [countMark_cons, countMark_cons] at opened
      omega
  · intro balanced
    refine ⟨?_, fun before isPrefix => ?_⟩
    · have closed := balanced.closed
      rw [countMark_cons, countMark_cons]
      omega
    · rcases List.prefix_cons_iff.mp isPrefix with rfl | ⟨rest, rfl, shorter⟩
      · simp [countMark]
      · have opened := balanced.opened rest shorter
        rw [countMark_cons, countMark_cons]
        omega

theorem balanced_cons_left_iff (found : token.kind = .mark .leftBrace) :
    Balanced depth (token :: tokens) ↔ Balanced (depth + 1) tokens :=
  balanced_cons_iff (by simp [found])

theorem balanced_cons_right_iff (found : token.kind = .mark .rightBrace) :
    Balanced (depth + 1) (token :: tokens) ↔ Balanced depth tokens :=
  balanced_cons_iff (by simp [found])

theorem not_balanced_zero_cons_right (found : token.kind = .mark .rightBrace) :
    ¬Balanced 0 (token :: tokens) := by
  intro balanced
  have opened := balanced.opened [token] (by simp)
  simp [countMark, found] at opened

theorem balanced_cons_other_iff (notLeft : token.kind ≠ .mark .leftBrace)
    (notRight : token.kind ≠ .mark .rightBrace) :
    Balanced depth (token :: tokens) ↔ Balanced depth tokens :=
  balanced_cons_iff (by simp [notLeft, notRight])

end Braces

end Spelling

end Beagle
