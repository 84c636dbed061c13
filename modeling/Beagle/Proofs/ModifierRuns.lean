import Beagle.Proofs.Spelling
import Mathlib.Data.List.Forall2

/-!
Runs of modifiers in a list of tokens.  Each token is judged by the tokens before it: by the braces that are
open there, and by the uninterrupted run of modifiers that ends there.  In a text that spells a unit, the
words that start its declarations stand behind runs with the modifiers of these declarations.
-/

namespace Beagle

open Spelling

namespace Modifiers

theorem contains_insert (modifiers : Modifiers) (word other : Modifier) :
    (modifiers.insert word).contains other = true ↔ other = word ∨ modifiers.contains other = true := by
  cases word <;> cases other <;> simp [insert, contains]

theorem contains_empty (word : Modifier) : empty.contains word = false := by
  cases word <;> rfl

theorem contains_ofList (words : List Modifier) (word : Modifier) :
    (ofList words).contains word = true ↔ word ∈ words := by
  induction words using List.reverseRecOn with
  | nil => simp [ofList, contains_empty]
  | append_singleton words other ih =>
      rw [ofList, List.foldl_append, List.foldl_cons, List.foldl_nil, contains_insert, List.mem_append,
        List.mem_singleton, ← ofList, ih]
      exact Or.comm

def IsSetOf (run : List Modifier) (modifiers : Option Modifiers) : Prop :=
  (modifiers = none ↔ run = []) ∧
    ∀ set, modifiers = some set → ∀ word, set.contains word = true ↔ word ∈ run

theorem isSetOf_ofList (run : List Modifier) :
    IsSetOf run (if run = [] then none else some (.ofList run)) := by
  by_cases empty : run = []
  · rw [if_pos empty]
    exact ⟨⟨fun _ => empty, fun _ => rfl⟩, fun _ absurd => nomatch absurd⟩
  · rw [if_neg empty]
    refine ⟨⟨fun absurd => (nomatch absurd), fun absurd => (empty absurd).elim⟩, ?_⟩
    rintro _ ⟨⟩ word
    exact contains_ofList run word

end Modifiers

open Modifiers

inductive Modified
  | type
  | field (kind : FieldKind)
  | method
deriving DecidableEq

def Modified.word : Modified → Keyword
  | .type => .classWord
  | .field kind => Grammar.fieldWord kind
  | .method => .defWord

theorem Modified.word_injective {modified other : Modified} (same : modified.word = other.word) :
    modified = other := by
  revert same
  rcases modified with _ | ⟨_ | _⟩ | _ <;> rcases other with _ | ⟨_ | _⟩ | _ <;> decide

namespace Runs

def extend (run : List Modifier) (token : Token) : List Modifier :=
  match token.kind with
  | .modifier word => run ++ [word]
  | _ => []

def last (tokens : List Token) : List Modifier :=
  tokens.foldl extend []

/-- Behind these tokens a method block is open.  The braces around it are those of a class. -/
def InBlock (past : List Token) : Prop :=
  countMark .rightBrace past + 1 < countMark .leftBrace past

instance (past : List Token) : Decidable (InBlock past) :=
  inferInstanceAs (Decidable (_ < _))

/-- What is picked from the tokens outside of method blocks, where each is looked at together with the run
in front of it. -/
def gather {α : Type} (pick : List Modifier → Token → Option α) (past : List Token) : List Token → List α
  | [] => []
  | token :: rest =>
    (if InBlock past then none else pick (last past) token).toList ++ gather pick (past ++ [token]) rest

def repeated? (run : List Modifier) (token : Token) : Option (Modifier × Position) :=
  match token.kind with
  | .modifier word => if word ∈ run then some (word, token.position) else none
  | _ => none

def headed? (modified : Modified) (run : List Modifier) (token : Token) : Option (List Modifier) :=
  if token.kind = .keyword modified.word then some run else none

def starts : Kind → Bool
  | .modifier _ | .keyword .classWord | .keyword .varWord | .keyword .constWord | .keyword .defWord => true
  | _ => false

def Inert (kind : Kind) : Prop :=
  starts kind = false ∧ kind ≠ .mark .leftBrace ∧ kind ≠ .mark .rightBrace

instance (kind : Kind) : Decidable (Inert kind) :=
  inferInstanceAs (Decidable (_ ∧ _))

section Gathering

variable {α : Type} {pick : List Modifier → Token → Option α} {past tokens : List Token} {token : Token}

def Ignores (pick : List Modifier → Token → Option α) : Prop :=
  ∀ run token, starts token.kind = false → pick run token = none

theorem repeated?_of_other (other : ∀ word, token.kind ≠ .modifier word) (run : List Modifier) :
    repeated? run token = none := by
  unfold repeated?
  split
  · rename_i word found
    exact absurd found (other word)
  · rfl

theorem ignores_repeated : Ignores repeated? := by
  intro run token other
  apply repeated?_of_other
  intro word found
  rw [found] at other
  cases other

theorem ignores_headed (modified : Modified) : Ignores (headed? modified) := by
  intro run token other
  rw [headed?, if_neg]
  intro found
  rw [found] at other
  rcases modified with _ | ⟨_ | _⟩ | _ <;> cases other

theorem gather_append (pick : List Modifier → Token → Option α) (past first second : List Token) :
    gather pick past (first ++ second) = gather pick past first ++ gather pick (past ++ first) second := by
  induction first generalizing past with
  | nil => rw [List.nil_append, List.append_nil, gather, List.nil_append]
  | cons token first ih =>
      rw [List.cons_append, gather, gather, ih, List.append_assoc, List.append_assoc]
      rfl

theorem gather_of_unpicked (unpicked : ∀ token ∈ tokens, ∀ run, pick run token = none) :
    gather pick past tokens = [] := by
  induction tokens generalizing past with
  | nil => rfl
  | cons token tokens ih =>
      rw [gather, ih fun other member => unpicked other (List.mem_cons_of_mem _ member),
        unpicked token List.mem_cons_self, ite_self]
      rfl

theorem gather_of_ignored (ignores : Ignores pick) (others : ∀ token ∈ tokens, starts token.kind = false) :
    gather pick past tokens = [] :=
  gather_of_unpicked fun token member run => ignores run token (others token member)

theorem gather_of_inBlock
    (inside : ∀ front token back, tokens = front ++ token :: back → InBlock (past ++ front)) :
    gather pick past tokens = [] := by
  induction tokens generalizing past with
  | nil => rfl
  | cons token tokens ih =>
      have here : InBlock past := by simpa using inside [] token tokens rfl
      rw [gather, if_pos here, ih]
      · rfl
      · intro front other back split
        have later := inside (token :: front) other back (by rw [split]; rfl)
        rwa [List.append_assoc]

end Gathering

section Depth

variable {past tokens : List Token} {token : Token} {depth : Nat}

def Depth (depth : Nat) (past : List Token) : Prop :=
  countMark .leftBrace past = countMark .rightBrace past + depth

def Calm (depth : Nat) (past : List Token) : Prop :=
  Depth depth past ∧ last past = []

theorem countMark_append (sign : Mark) (first second : List Token) :
    countMark sign (first ++ second) = countMark sign first + countMark sign second :=
  List.countP_append

theorem last_concat (past : List Token) (token : Token) :
    last (past ++ [token]) = extend (last past) token := by
  rw [last, List.foldl_append]
  rfl

theorem calm_nil : Calm 0 [] :=
  ⟨rfl, rfl⟩

theorem Depth.not_inBlock (reached : Depth depth past) (few : depth ≤ 1) : ¬InBlock past := by
  rw [Depth] at reached
  rw [InBlock]
  omega

theorem Depth.concat {after : Nat} (reached : Depth depth past)
    (moves : after + (if token.kind = .mark .rightBrace then 1 else 0) =
      depth + if token.kind = .mark .leftBrace then 1 else 0) : Depth after (past ++ [token]) := by
  rw [Depth] at *
  rw [countMark_append, countMark_append, countMark_cons, countMark_cons]
  simp only [countMark, List.countP_nil] at *
  omega

theorem Depth.concat_modifier {word : Modifier} (reached : Depth depth past)
    (found : token.kind = .modifier word) : Depth depth (past ++ [token]) :=
  reached.concat (by simp [found])

theorem last_concat_other (other : ∀ word, token.kind ≠ .modifier word) :
    last (past ++ [token]) = [] := by
  rw [last_concat]
  unfold extend
  split
  · rename_i word found
    exact absurd found (other word)
  · rfl

theorem Depth.calm_concat {after : Nat} (reached : Depth depth past)
    (moves : after + (if token.kind = .mark .rightBrace then 1 else 0) =
      depth + if token.kind = .mark .leftBrace then 1 else 0)
    (other : ∀ word, token.kind ≠ .modifier word) : Calm after (past ++ [token]) :=
  ⟨reached.concat moves, last_concat_other other⟩

theorem Depth.calm_keyword {reserved : Keyword} (reached : Depth depth past)
    (found : token.kind = .keyword reserved) : Calm depth (past ++ [token]) :=
  reached.calm_concat (by simp [found]) (by simp [found])

theorem Inert.ne_modifier {kind : Kind} (inert : Inert kind) (word : Modifier) : kind ≠ .modifier word := by
  rintro rfl
  cases inert.1

theorem Depth.append_modifiers {words : List Modifier} (reached : Depth depth past)
    (kinds : tokens.map Token.kind = words.map .modifier) :
    Depth depth (past ++ tokens) ∧ last (past ++ tokens) = last past ++ words := by
  induction words generalizing past tokens with
  | nil =>
      obtain rfl : tokens = [] := by simpa using kinds
      rw [List.append_nil, List.append_nil]
      exact ⟨reached, rfl⟩
  | cons word words ih =>
      cases tokens with
      | nil => cases kinds
      | cons token tokens =>
          obtain ⟨found, others⟩ := List.cons.inj kinds
          obtain ⟨later, runs⟩ := ih (reached.concat_modifier found) others
          rw [List.append_assoc, List.singleton_append] at later runs
          refine ⟨later, ?_⟩
          rw [runs, last_concat, extend, found, List.append_assoc, List.singleton_append]

theorem Calm.append_inert (calm : Calm depth past) (inert : ∀ token ∈ tokens, Inert token.kind) :
    Calm depth (past ++ tokens) := by
  induction tokens generalizing past with
  | nil => rwa [List.append_nil]
  | cons token tokens ih =>
      have here := inert token List.mem_cons_self
      have next : Calm depth (past ++ [token]) :=
        calm.1.calm_concat (by rw [if_neg here.2.1, if_neg here.2.2]) here.ne_modifier
      have whole := ih next fun other member => inert other (List.mem_cons_of_mem _ member)
      rwa [List.append_assoc] at whole

variable {opening closing : Token}

theorem calm_block (reached : Depth depth past) (isOpening : opening.kind = .mark .leftBrace)
    (balanced : Balanced 0 tokens) (isClosing : closing.kind = .mark .rightBrace) :
    Calm depth (past ++ ([opening] ++ tokens ++ [closing])) := by
  have opened : Depth (depth + 1) (past ++ [opening]) :=
    reached.concat (by simp [isOpening])
  have inside : Depth (depth + 1) (past ++ [opening] ++ tokens) := by
    have closed := balanced.closed
    rw [Depth] at *
    rw [countMark_append, countMark_append .rightBrace]
    omega
  rw [← List.append_assoc, ← List.append_assoc]
  exact inside.calm_concat (by simp [isClosing]) (by simp [isClosing])

theorem gather_block {α : Type} {pick : List Modifier → Token → Option α} (ignores : Ignores pick)
    (reached : Depth 1 past) (isOpening : opening.kind = .mark .leftBrace) (balanced : Balanced 0 tokens)
    (isClosing : closing.kind = .mark .rightBrace) :
    gather pick past ([opening] ++ tokens ++ [closing]) = [] := by
  have opened : Depth 2 (past ++ [opening]) := reached.concat (by simp [isOpening])
  have first : gather pick past [opening] = [] :=
    gather_of_ignored ignores (by simp [isOpening, starts])
  have last : gather pick (past ++ ([opening] ++ tokens)) [closing] = [] :=
    gather_of_ignored ignores (by simp [isClosing, starts])
  have inside : gather pick (past ++ [opening]) tokens = [] := by
    -- No part of what is inside closes more braces than it opens, so that two stay open all the time.
    apply gather_of_inBlock
    intro front token back split
    have closed := balanced.opened front ⟨token :: back, split.symm⟩
    rw [Depth] at opened
    rw [InBlock, countMark_append, countMark_append .leftBrace]
    omega
  rw [gather_append, gather_append, first, inside, last]
  rfl

end Depth

end Runs

namespace Spelling

open Runs

def Plain (text : Language Token) : Prop :=
  ∀ tokens ∈ text, ∀ token ∈ tokens, Inert token.kind

section Plain

variable {α : Type} {first second text : Language Token}

theorem plain_one : Plain 1 := by
  rintro _ ⟨⟩ token member
  cases member

theorem Plain.mul (early : Plain first) (late : Plain second) : Plain (first * second) := by
  intro tokens spells token member
  obtain ⟨front, isFront, back, isBack, rfl⟩ := Language.mem_mul.mp spells
  rcases List.mem_append.mp member with old | new
  · exact early front isFront token old
  · exact late back isBack token new

theorem plain_prod {texts : List (Language Token)} (each : ∀ text ∈ texts, Plain text) :
    Plain texts.prod := by
  induction texts with
  | nil => exact plain_one
  | cons text texts ih =>
      rw [List.prod_cons]
      refine (each text List.mem_cons_self).mul (ih ?_)
      exact fun other member => each other (List.mem_cons_of_mem _ member)

theorem plain_word {kind : Kind} (inert : Inert kind) : Plain (word kind) := by
  rintro _ ⟨token, found, rfl⟩ other member
  rw [List.mem_singleton.mp member, found]
  exact inert

theorem plain_identifier (name : String) : Plain (identifier name) := by
  rintro _ ⟨token, found, _, rfl⟩
  have inert : Inert .identifier := by decide
  exact plain_word inert [token] ⟨token, found, rfl⟩

theorem plain_terminators : Plain terminators := by
  intro tokens spells token member
  rcases spells token member with semicolon | lineEnd
  · rw [semicolon]
    decide
  · rw [lineEnd]
    decide

theorem plain_maybe {text : α → Language Token} (each : ∀ value, Plain (text value))
    (option : Option α) : Plain (maybe text option) := by
  cases option with
  | none => exact plain_one
  | some value => exact each value

theorem plain_separated {sign : Mark} (inert : Inert (.mark sign)) {text : α → Language Token}
    (each : ∀ item, Plain (text item)) (items : List α) : Plain (separated sign (items.map text)) := by
  cases items with
  | nil =>
      intro tokens spells
      exact absurd spells (Language.notMem_zero tokens)
  | cons item items =>
      refine (each item).mul (plain_prod ?_)
      intro other member
      obtain ⟨_, listed, rfl⟩ := List.mem_map.mp member
      obtain ⟨later, _, rfl⟩ := List.mem_map.mp listed
      exact (plain_word inert).mul (each later)

theorem Plain.placed {info : NodeInfo} (plain : Plain text) : Plain (placed info text) :=
  fun tokens spells => plain tokens spells.1

theorem plain_ofName (name : DottedName) : Plain (ofName name) :=
  plain_separated (by decide) plain_identifier name.segments

theorem plain_ofTypeRef (type : TypeRef) : Plain (ofTypeRef type) :=
  (plain_ofName type.name).placed

theorem plain_ofAnnots (annotations : List Annot) : Plain (ofAnnots annotations) := by
  apply plain_prod
  intro text member
  obtain ⟨annot, _, rfl⟩ := List.mem_map.mp member
  exact ((plain_word (by decide)).mul (plain_ofTypeRef annot.type)).placed

theorem plain_ofLiteral (literal : Literal) : Plain (ofLiteral literal) := by
  apply Plain.placed
  rintro _ ⟨token, denotes, rfl⟩ other member
  rw [List.mem_singleton.mp member]
  cases value : literal.value with
  | bool truth =>
      rw [value] at denotes
      rw [show token.kind = _ from denotes]
      cases truth <;> decide
  | string text =>
      rw [value] at denotes
      rw [denotes.1]
      decide
  | integer number =>
      rw [value] at denotes
      rw [denotes.1]
      decide

theorem plain_ofDeclared (declarator : Declarator) : Plain (ofDeclared declarator) := by
  rintro _ ⟨token, found, _, _, rfl⟩
  have inert : Inert .identifier := by decide
  exact plain_word inert [token] ⟨token, found, rfl⟩

theorem plain_ofOptionalType (type : Option TypeRef) : Plain (ofOptionalType type) :=
  plain_maybe (fun type => (plain_word (by decide)).mul (plain_ofTypeRef type)) type

theorem plain_ofInitials (kind : FieldKind) (declarators : List Declarator) :
    Plain (ofInitials kind declarators) := by
  rintro tokens (⟨_, _, rfl⟩ | ⟨initials, _, spells⟩)
  · exact plain_one [] rfl
  · have inert : Inert (.mark .assign) := by decide
    have values := plain_separated (by decide : Inert (.mark .comma)) plain_ofLiteral initials
    exact (plain_word inert).mul values tokens spells

theorem plain_ofParams (params : List Param) : Plain (ofParams params) := by
  refine ((plain_word (by decide)).mul ?_).mul (plain_word (by decide))
  split
  · exact plain_one
  · refine plain_separated (by decide) (fun param => Plain.placed ?_) params
    exact ((plain_identifier param.name).mul (plain_word (by decide))).mul (plain_ofTypeRef param.type)

theorem plain_ofBases (bases : List TypeRef) : Plain (ofBases bases) := by
  unfold ofBases
  split
  · exact plain_one
  · exact (plain_word (by decide)).mul (plain_separated (by decide) plain_ofTypeRef bases)

theorem plain_ofPackage (clause : PackageClause) : Plain (ofPackage clause) :=
  ((plain_word (by decide)).mul (plain_ofName clause.name)).placed

theorem plain_ofImports (imports : List ImportClause) : Plain (ofImports imports) := by
  apply plain_prod
  intro text member
  obtain ⟨clause, _, rfl⟩ := List.mem_map.mp member
  refine (((plain_word (by decide)).mul ?_).placed).mul plain_terminators
  cases clause.target with
  | everything =>
      exact ((plain_ofName clause.package).mul (plain_word (by decide))).mul (plain_word (by decide))
  | type name => exact fun tokens spells => plain_ofName _ tokens spells.2

end Plain

end Spelling

def Body.modifiersOf (body : Body) : Modified → List (Option Modifiers)
  | .type => []
  | .field .mutable => body.vars.map Field.modifiers
  | .field .constant => body.consts.map Field.modifiers
  | .method => body.methods.map Method.modifiers

def TypeDecl.modifiersOf (decl : TypeDecl) (modified : Modified) : List (Option Modifiers) :=
  (if modified = .type then [decl.modifiers] else []) ++ decl.body.elim [] (·.modifiersOf modified)

def SourceUnit.modifiersOf (unit : SourceUnit) (modified : Modified) : List (Option Modifiers) :=
  unit.types.flatMap (·.modifiersOf modified)

def Grammar.Member.modifiersOf (modified : Modified) : Grammar.Member → List (Option Modifiers)
  | .field it => if modified = .field it.kind then [it.modifiers] else []
  | .method it => if modified = .method then [it.modifiers] else []

theorem Body.modifiersOf_ofMembers (info : NodeInfo) (members : List Grammar.Member)
    (modified : Modified) : (Body.ofMembers info members).modifiersOf modified =
      members.flatMap (Grammar.Member.modifiersOf modified) := by
  induction members with
  | nil => rcases modified with _ | ⟨_ | _⟩ | _ <;> rfl
  | cons member members ih =>
      rw [List.flatMap_cons, ← ih]
      cases member with
      | field it =>
          cases kind : it.kind <;> rcases modified with _ | ⟨_ | _⟩ | _ <;>
            simp [modifiersOf, ofMembers, Grammar.Member.modifiersOf, Grammar.Member.var?,
              Grammar.Member.const?, Grammar.Member.method?, kind]
      | method it =>
          rcases modified with _ | ⟨_ | _⟩ | _ <;>
            simp [modifiersOf, ofMembers, Grammar.Member.modifiersOf, Grammar.Member.var?,
              Grammar.Member.const?, Grammar.Member.method?]

namespace Spelling

open Runs

/-- Wherever the text stands in a place as it starts from, it leads to one as it ends in, and the runs in
front of declarations of the kind have these sets of modifiers. -/
def Passes (modified : Modified) (pre : List Token → Prop) (text : Language Token)
    (post : List Token → Prop) (sets : List (Option Modifiers)) : Prop :=
  ∀ tokens ∈ text, ∀ past, pre past →
    post (past ++ tokens) ∧ List.Forall₂ IsSetOf (gather (headed? modified) past tokens) sets

def Led (depth : Nat) (modifiers : Option Modifiers) (past : List Token) : Prop :=
  Depth depth past ∧ IsSetOf (last past) modifiers

section Passing

variable {modified : Modified} {pre middle post : List Token → Prop} {first second text : Language Token}
variable {sets others : List (Option Modifiers)} {depth : Nat}

theorem Passes.mul (early : Passes modified pre first middle sets)
    (late : Passes modified middle second post others) :
    Passes modified pre (first * second) post (sets ++ others) := by
  intro tokens spells past holds
  obtain ⟨front, isFront, back, isBack, rfl⟩ := Language.mem_mul.mp spells
  obtain ⟨reached, runs⟩ := early front isFront past holds
  obtain ⟨final, moreRuns⟩ := late back isBack (past ++ front) reached
  rw [← List.append_assoc, gather_append]
  exact ⟨final, List.rel_append runs moreRuns⟩

theorem passes_prod {α : Type} {text : α → Language Token} {sets : α → List (Option Modifiers)}
    (each : ∀ item, Passes modified pre (text item) pre (sets item)) (items : List α) :
    Passes modified pre (items.map text).prod pre (items.flatMap sets) := by
  induction items with
  | nil =>
      rintro _ ⟨⟩ past holds
      rw [List.append_nil]
      exact ⟨holds, .nil⟩
  | cons item items ih => exact (each item).mul ih

theorem Passes.placed {info : NodeInfo} (passes : Passes modified pre text post sets) :
    Passes modified pre (placed info text) post sets :=
  fun tokens spells => passes tokens spells.1

theorem passes_plain (plain : Plain text) : Passes modified (Calm depth) text (Calm depth) [] := by
  intro tokens spells past calm
  have inert := plain tokens spells
  refine ⟨calm.append_inert inert, ?_⟩
  rw [gather_of_ignored (ignores_headed modified) fun token member => (inert token member).1]
  exact .nil

theorem Passes.mul_plain (passes : Passes modified pre first (Calm depth) sets) (plain : Plain second) :
    Passes modified pre (first * second) (Calm depth) sets := by
  have whole := passes.mul (passes_plain plain)
  rwa [List.append_nil] at whole

theorem passes_modifiers (modifiers : Option Modifiers) :
    Passes modified (Calm depth) (ofModifiers modifiers) (Led depth modifiers) [] := by
  rintro tokens ⟨words, kinds, rfl⟩ past ⟨reached, still⟩
  obtain ⟨later, runs⟩ := reached.append_modifiers kinds
  rw [still, List.nil_append] at runs
  refine ⟨⟨later, runs ▸ isSetOf_ofList words⟩, ?_⟩
  rw [gather_of_unpicked]
  · exact .nil
  · intro token member run
    have listed := List.mem_map_of_mem (f := Token.kind) member
    rw [kinds] at listed
    obtain ⟨word, _, found⟩ := List.mem_map.mp listed
    rw [headed?, if_neg]
    rw [← found]
    simp

theorem passes_word (few : depth ≤ 1) (other : Modified) (modifiers : Option Modifiers) :
    Passes modified (Led depth modifiers) (keyword other.word) (Calm depth)
      (if modified = other then [modifiers] else []) := by
  rintro _ ⟨token, found, rfl⟩ past ⟨reached, isSet⟩
  refine ⟨reached.calm_keyword found, ?_⟩
  rw [gather, gather, if_neg (reached.not_inBlock few), headed?, found, List.append_nil]
  by_cases same : modified = other
  · rw [if_pos (by rw [same]), if_pos same]
    exact .cons isSet .nil
  · rw [if_neg, if_neg same]
    · exact .nil
    · intro sameWord
      exact same (Modified.word_injective (Kind.keyword.inj sameWord)).symm

theorem passes_head (few : depth ≤ 1) (other : Modified) (annotations : List Annot)
    (modifiers : Option Modifiers) :
    Passes modified (Calm depth) (ofAnnots annotations * ofModifiers modifiers * keyword other.word)
      (Calm depth) (if modified = other then [modifiers] else []) :=
  ((passes_plain (plain_ofAnnots annotations)).mul (passes_modifiers modifiers)).mul
    (passes_word few other modifiers)

theorem passes_field (field : Field) : Passes modified (Calm 1) (ofField field) (Calm 1)
    (if modified = .field field.kind then [field.modifiers] else []) :=
  .placed ((((passes_head (Nat.le_refl 1) (.field field.kind) _ _).mul_plain
    (plain_separated (by decide) plain_ofDeclared _)).mul_plain
    (plain_ofOptionalType _)).mul_plain (plain_ofInitials _ _))

theorem passes_block (block : Block) : Passes modified (Calm 1) (ofBlock block) (Calm 1) [] := by
  refine .placed ?_
  rintro tokens spells past ⟨reached, _⟩
  obtain ⟨_, unclosed, _, ⟨closing, isClosing, rfl⟩, rfl⟩ := Language.mem_mul.mp spells
  obtain ⟨_, ⟨opening, isOpening, rfl⟩, inside, ⟨balanced, _⟩, rfl⟩ := Language.mem_mul.mp unclosed
  refine ⟨calm_block reached isOpening balanced isClosing, ?_⟩
  rw [gather_block (ignores_headed modified) reached isOpening balanced isClosing]
  exact .nil

theorem passes_method (method : Method) : Passes modified (Calm 1) (ofMethod method) (Calm 1)
    (if modified = .method then [method.modifiers] else []) := by
  have head : Passes modified (Calm 1) (ofAnnots method.annotations * ofModifiers method.modifiers *
      keyword .defWord) (Calm 1) (if modified = .method then [method.modifiers] else []) :=
    passes_head (Nat.le_refl 1) .method method.annotations method.modifiers
  have front := ((head.mul_plain (plain_identifier method.name)).mul_plain
    (plain_ofParams method.params)).mul_plain (plain_ofOptionalType method.result)
  refine .placed ?_
  cases method.body with
  | none => exact front.mul_plain plain_one
  | some block =>
      have whole := front.mul (passes_block block)
      rwa [List.append_nil] at whole

theorem passes_members (members : List Grammar.Member) : Passes modified (Calm 1) (ofMembers members)
    (Calm 1) (members.flatMap (Grammar.Member.modifiersOf modified)) := by
  refine passes_prod (fun member => ?_) members
  have skipped : Passes modified (Calm 1) terminators (Calm 1) [] := passes_plain plain_terminators
  cases member with
  | field it => exact skipped.mul (passes_field it)
  | method it => exact skipped.mul (passes_method it)

theorem passes_mark {sign : Mark} {after : Nat}
    (moves : after + (if sign = .rightBrace then 1 else 0) = depth + if sign = .leftBrace then 1 else 0) :
    Passes modified (Calm depth) (mark sign) (Calm after) [] := by
  rintro _ ⟨token, found, rfl⟩ past ⟨reached, _⟩
  refine ⟨reached.calm_concat (by simpa [found] using moves) (by simp [found]), ?_⟩
  rw [gather_of_ignored (ignores_headed modified) (by simp [found, starts])]
  exact .nil

theorem passes_body (body : Body) :
    Passes modified (Calm 0) (ofBody body) (Calm 0) (body.modifiersOf modified) := by
  rintro tokens ⟨members, filed, spells⟩
  rw [filed, Body.modifiersOf_ofMembers]
  have opened : Passes modified (Calm 0) (mark .leftBrace) (Calm 1) [] := passes_mark rfl
  have closed : Passes modified (Calm 1) (mark .rightBrace) (Calm 0) [] := passes_mark rfl
  have whole := ((opened.mul (passes_members members)).mul_plain plain_terminators).mul closed
  rw [List.append_nil] at whole
  exact whole tokens spells.1

theorem passes_typeDecl (decl : TypeDecl) :
    Passes modified (Calm 0) (ofTypeDecl decl) (Calm 0) (decl.modifiersOf modified) := by
  refine .placed (Passes.mul ((((passes_head (Nat.zero_le 1) .type _ _).mul_plain
    (plain_ofName _)).mul_plain (plain_ofBases _)).mul_plain plain_terminators) ?_)
  cases decl.body with
  | none => exact passes_plain plain_one
  | some body => exact passes_body body

/-- In the spelling of a unit each declaration has the modifiers of the run in front of its word. -/
theorem runs_of_ofUnit {unit : SourceUnit} {tokens : List Token} (spells : tokens ∈ ofUnit unit)
    (modified : Modified) :
    List.Forall₂ IsSetOf (gather (headed? modified) [] tokens) (unit.modifiersOf modified) := by
  have types : Passes modified (Calm 0) (ofTypes unit.types) (Calm 0) (unit.modifiersOf modified) := by
    refine passes_prod (fun decl => ?_) unit.types
    exact (passes_plain plain_terminators).mul (passes_typeDecl decl)
  have front : Plain (terminators * maybe ofPackage unit.package * terminators * ofImports unit.imports) :=
    ((plain_terminators.mul (plain_maybe plain_ofPackage unit.package)).mul plain_terminators).mul
      (plain_ofImports unit.imports)
  have whole := ((passes_plain front).mul types).mul_plain plain_terminators
  exact (whole tokens spells.2.1 [] calm_nil).2

end Passing

end Spelling

end Beagle
