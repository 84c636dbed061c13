import Beagle.Output
import Beagle.Proofs.Mangling
import Beagle.Proofs.Pieces

/-!
The words of generated code.  Comments and strings are left out, so a word of the code is a keyword, a
fixed name or a symbol; the code of a type has no symbols but its own and those of its parent.
-/

namespace Beagle

namespace Code

inductive Mode
  | code
  | comment
  | string

/-- The code without what stands in comments and strings. -/
def bare : Mode → List Char → List Char
  | _, [] => []
  | .code, '/' :: '/' :: rest => bare .comment rest
  | .code, '"' :: rest => ' ' :: bare .string rest
  | .code, char :: rest => char :: bare .code rest
  | .comment, '\n' :: rest => '\n' :: bare .code rest
  | .comment, _ :: rest => bare .comment rest
  | .string, '\\' :: _ :: rest => bare .string rest
  | .string, '"' :: rest => ' ' :: bare .code rest
  | .string, _ :: rest => bare .string rest

def runs (text : List Char) : List (List Char) :=
  (text.splitOnP fun char => !Lexeme.continuesWord char).filter (· ≠ [])

def words (text : String) : List String :=
  (runs (bare .code text.toList)).map String.ofList

def vocabulary : List String :=
  ["typedef", "struct", "static", "void", "NULL", "0", "TypeInfo", "typeInfo__", "base__", "type__",
    "base", "staticSize", "dynamicSize", "name"]

def isBreak (char : Char) : Bool :=
  !Lexeme.continuesWord char && char != '/' && char != '"'

def isPlain (text : List Char) : Bool :=
  text.all fun char => char != '/' && char != '"'

theorem bare_append {text : List Char} (plain : isPlain text) (rest : List Char) :
    bare .code (text ++ rest) = text ++ bare .code rest := by
  induction text with
  | nil => rfl
  | cons char text ih =>
      simp only [isPlain, List.all_cons, Bool.and_eq_true, bne_iff_ne] at plain
      obtain ⟨⟨notSlash, notQuote⟩, others⟩ := plain
      rw [List.cons_append, List.cons_append, ← ih others, bare]
      · simp [notSlash]
      · simp [notQuote]

theorem bare_comment {body : List Char} (noFeed : '\n' ∉ body) (rest : List Char) :
    bare .comment (body ++ '\n' :: rest) = '\n' :: bare .code rest := by
  induction body with
  | nil => rw [List.nil_append, bare]
  | cons char body ih =>
      simp only [List.mem_cons, not_or] at noFeed
      rw [List.cons_append, bare, ih noFeed.2]
      exact fun feed => noFeed.1 feed.symm

theorem bare_string {body : List Char} (noQuote : '"' ∉ body) (noEscape : '\\' ∉ body)
    (rest : List Char) : bare .string (body ++ '"' :: rest) = ' ' :: bare .code rest := by
  induction body with
  | nil => rw [List.nil_append, bare]
  | cons char body ih =>
      simp only [List.mem_cons, not_or] at noQuote noEscape
      rw [List.cons_append, bare, ih noQuote.2 noEscape.2]
      · rintro _ _ rfl
        simp at noEscape
      · exact fun quote => noQuote.1 quote.symm

theorem runs_append {char : Char} (breaks : Lexeme.continuesWord char = false)
    (front back : List Char) : runs (front ++ char :: back) = runs front ++ runs back := by
  unfold runs
  rw [List.splitOnP_append_cons front back (by simp [breaks]), List.filter_append]

theorem runs_cons {char : Char} (breaks : Lexeme.continuesWord char = false) (back : List Char) :
    runs (char :: back) = runs back := by
  simpa [runs] using runs_append breaks [] back

theorem runs_word {text : String} (isWord : Lexeme.IsWord text) : runs text.toList = [text.toList] := by
  have nonempty : text.toList ≠ [] := by
    obtain ⟨first, others, same, _⟩ := isWord
    simp [same]
  unfold runs
  rw [List.splitOnP_eq_singleton fun char member => by simp [isWord.continues char member]]
  simp [nonempty]

/-- Whatever code follows the text, the text brings no other words into it. -/
def Brings (allowed : List String) (text : String) : Prop :=
  ∀ rest, ∀ word ∈ words (text ++ rest), word ∈ allowed ∨ word ∈ words rest

variable {allowed : List String}

theorem Brings.mem_of_mem_words {text word : String} (brings : Brings allowed text)
    (member : word ∈ words text) : word ∈ allowed := by
  have found := brings "" word (by simpa using member)
  simpa [words, bare, runs] using found

theorem Brings.append {first second : String} (one : Brings allowed first)
    (two : Brings allowed second) : Brings allowed (first ++ second) := by
  intro rest word member
  rw [String.append_assoc] at member
  rcases one _ word member with isAllowed | later
  · exact .inl isAllowed
  · exact two rest word later

theorem brings_empty : Brings allowed "" := by
  intro rest word member
  exact .inr (by simpa using member)

theorem brings_join {texts : List String} (each : ∀ text ∈ texts, Brings allowed text) :
    Brings allowed (String.join texts) := by
  induction texts with
  | nil => exact brings_empty
  | cons text texts ih =>
      rw [String.join_cons]
      exact (each text (by simp)).append (ih fun other member => each other (by simp [member]))

def openers : List String :=
  ["\n", "   ", "typedef struct\n\x7b\n   ", "\x7d ", "\x7d\n", "void *base__; ",
    "   struct TypeInfo typeInfo__;\n", "static ", "static void ", "NULL;\n", "0;\n", ";\n", "&", "&("]

def closers : List String :=
  [";\n", " ", " *base__;\n", " base__;\n", " *type__;\n", "()\n\x7b\n", ".typeInfo__);\n",
    ".typeInfo__.base = ", ".typeInfo__.staticSize = ", ".typeInfo__.dynamicSize = ",
    ".typeInfo__.name = ", ".base__ = "]

def isFixed (text : String) : Bool :=
  isPlain text.toList && text.toList.getLast?.any isBreak && (words text).all (· ∈ vocabulary)

theorem isFixed_of_mem : ∀ text ∈ openers ++ closers, isFixed text := by
  decide

theorem breaks_of_mem_closers : ∀ text ∈ closers, text.toList.head?.any isBreak := by
  decide

theorem brings_of_isFixed {text : String} (fixed : isFixed text) (known : vocabulary ⊆ allowed) :
    Brings allowed text := by
  simp only [isFixed, Bool.and_eq_true, Option.any_eq_true, List.all_eq_true,
    decide_eq_true_eq] at fixed
  obtain ⟨⟨plain, last, isLast, breaks⟩, inVocabulary⟩ := fixed
  obtain ⟨front, same⟩ := List.getLast?_eq_some_iff.mp isLast
  simp only [isBreak, Bool.and_eq_true, Bool.not_eq_true'] at breaks
  intro rest word member
  rw [words, String.toList_append, bare_append plain, same, List.append_assoc, List.singleton_append,
    runs_append breaks.1.1, List.map_append, List.mem_append] at member
  rcases member with inFront | later
  · refine .inl (known (inVocabulary word ?_))
    have whole := bare_append plain []
    rw [List.append_nil, same] at whole
    rw [words, same, whole, List.append_assoc, List.singleton_append, runs_append breaks.1.1,
      List.map_append]
    exact List.mem_append_left _ inFront
  · exact .inr later

theorem isPlain_of_isWord {text : String} (isWord : Lexeme.IsWord text) : isPlain text.toList := by
  rw [isPlain, List.all_eq_true]
  intro char member
  have continues := isWord.continues char member
  simp only [Bool.and_eq_true, bne_iff_ne]
  constructor
  · rintro rfl
    simp [Lexeme.continuesWord] at continues
  · rintro rfl
    simp [Lexeme.continuesWord] at continues

theorem brings_symbol {symbol text : String} (isWord : Lexeme.IsWord symbol)
    (member : symbol ∈ allowed) (ends : text.toList.head?.any isBreak) (brings : Brings allowed text) :
    Brings allowed (symbol ++ text) := by
  simp only [Option.any_eq_true] at ends
  obtain ⟨char, isFirst, breaks⟩ := ends
  obtain ⟨others, same⟩ := List.head?_eq_some_iff.mp isFirst
  simp only [isBreak, Bool.and_eq_true, Bool.not_eq_true', bne_iff_ne] at breaks
  have head : ∀ rest, bare .code (text ++ rest).toList = char :: bare .code (others ++ rest.toList) := by
    intro rest
    have plainHead : isPlain [char] := by simp [isPlain, breaks]
    have bared := bare_append plainHead (others ++ rest.toList)
    simpa [same] using bared
  intro rest word isIn
  rw [String.append_assoc, words, String.toList_append, bare_append (isPlain_of_isWord isWord), head,
    runs_append breaks.1.1, runs_word isWord, List.map_append, List.mem_append] at isIn
  rcases isIn with isSymbol | later
  · obtain rfl : word = symbol := by simpa using isSymbol
    exact .inl member
  · refine brings rest word ?_
    rw [words, head, runs_cons breaks.1.1]
    exact later

theorem brings_commentLine {line : String} (noFeed : '\n' ∉ line.toList) :
    Brings allowed (Fragment.commentLine line) := by
  intro rest word member
  have noFeed' : '\n' ∉ ' ' :: line.toList := by simp [noFeed]
  have bared : bare .code (Fragment.commentLine line ++ rest).toList = '\n' :: bare .code rest.toList := by
    rw [← bare_comment noFeed']
    simp [Fragment.commentLine, bare]
  rw [words, bared, runs_cons (by decide)] at member
  exact .inr member

theorem brings_string {text : String} (noQuote : '"' ∉ text.toList) (noEscape : '\\' ∉ text.toList) :
    Brings allowed ("\"" ++ text ++ "\"") := by
  intro rest word member
  have bared : bare .code ("\"" ++ text ++ "\"" ++ rest).toList = ' ' :: ' ' :: bare .code rest.toList := by
    rw [← bare_string noQuote noEscape]
    simp [bare]
  rw [words, bared, runs_cons (by decide), runs_cons (by decide)] at member
  exact .inr member

end Code

theorem Text.notMem_of_mem_lines {text line : String} (member : line ∈ lines text) :
    '\n' ∉ line.toList := by
  have short : ∀ part : List Char, dropReturn part ⊆ part := by
    intro part
    unfold dropReturn
    split
    · exact List.dropLast_subset part
    · exact List.Subset.refl part
  simp only [lines, List.map_append, List.mem_append, List.mem_map, List.mem_filter] at member
  rcases member with ⟨_, ⟨part, isPart, rfl⟩, rfl⟩ | ⟨part, ⟨isLast, _⟩, rfl⟩
  · rw [String.toList_ofList]
    exact fun feed => notMem_of_mem_pieces (List.dropLast_subset _ isPart) (short part feed)
  · rw [String.toList_ofList]
    exact notMem_of_mem_pieces (List.mem_of_getLast? (Option.mem_toList.mp isLast))

namespace Layout

open Code

def block (entry : Entry) : String :=
  Fragment.renderAll (ofEntry entry)

def known (entry : Entry) : List String :=
  vocabulary ++ Symbol.defined entry.name ++ entry.parent.toList.flatMap Symbol.inherited

theorem brings_comment {allowed : List String} (text : String) :
    Brings allowed (Fragment.comment text).render := by
  rw [Fragment.render]
  split
  · exact brings_commentLine (by simp)
  · refine brings_join fun line member => ?_
    obtain ⟨line, isLine, rfl⟩ := List.mem_map.mp member
    exact brings_commentLine (Text.notMem_of_mem_lines isLine)

variable {entry : Entry}

theorem brings_opener {text : String} (opens : text ∈ openers) : Brings (known entry) text :=
  brings_of_isFixed (isFixed_of_mem text (List.mem_append_left _ opens)) (by simp [known])

theorem brings_closer {text : String} (closes : text ∈ closers) : Brings (known entry) text :=
  brings_of_isFixed (isFixed_of_mem text (List.mem_append_right _ closes)) (by simp [known])

theorem brings_own_append {symbol closer text : String} (proper : entry.name.Proper)
    (isOwn : symbol ∈ Symbol.defined entry.name) (closes : closer ∈ closers)
    (brings : Brings (known entry) text) : Brings (known entry) (symbol ++ (closer ++ text)) := by
  refine brings_symbol (Symbol.isWord_of_mem_defined proper isOwn) (by simp [known, isOwn]) ?_
    ((brings_closer closes).append brings)
  have breaks := breaks_of_mem_closers closer closes
  simp only [Option.any_eq_true, List.head?_eq_some_iff] at breaks ⊢
  obtain ⟨char, ⟨others, same⟩, isBreak⟩ := breaks
  exact ⟨char, ⟨others ++ text.toList, by simp [same]⟩, isBreak⟩

theorem brings_own {symbol closer : String} (proper : entry.name.Proper)
    (isOwn : symbol ∈ Symbol.defined entry.name) (closes : closer ∈ closers) :
    Brings (known entry) (symbol ++ closer) :=
  brings_symbol (Symbol.isWord_of_mem_defined proper isOwn) (by simp [known, isOwn])
    (breaks_of_mem_closers closer closes) (brings_closer closes)

theorem brings_inherited {symbol closer : String} {parent : DottedName}
    (isParent : entry.parent = some parent) (proper : ∀ parent ∈ entry.parent, parent.Proper)
    (isInherited : symbol ∈ Symbol.inherited parent) (closes : closer ∈ closers) :
    Brings (known entry) (symbol ++ closer) := by
  have isDefined := Symbol.inherited_subset_defined parent isInherited
  exact brings_symbol (Symbol.isWord_of_mem_defined (proper parent isParent) isDefined)
    (by simp [known, isParent, isInherited]) (breaks_of_mem_closers closer closes) (brings_closer closes)

theorem brings_furtherBases :
    ∀ fragment ∈ furtherBases entry.decl, Brings (known entry) fragment.render := by
  intro fragment member
  unfold furtherBases at member
  split at member
  · simp at member
  · obtain rfl := List.mem_singleton.mp member
    exact brings_comment _

theorem brings_recordStart : Brings (known entry) recordStart.render :=
  brings_opener (by simp [openers, recordStart, Fragment.render])

theorem brings_blank : Brings (known entry) Fragment.blank.render :=
  brings_opener (by simp [openers, Fragment.render])

theorem brings_recordEnd {record : String} (proper : entry.name.Proper)
    (isOwn : record ∈ Symbol.defined entry.name) : Brings (known entry) (recordEnd record).render := by
  simp only [recordEnd, Fragment.render, String.append_assoc]
  exact (brings_opener (by simp [openers])).append (brings_own proper isOwn (by simp [closers]))

theorem brings_commented (front back : String) (opens : front ∈ openers) (noFeed : '\n' ∉ back.toList) :
    Brings (known entry) (front ++ Fragment.commentLine back) :=
  (brings_opener opens).append (brings_commentLine noFeed)

theorem brings_staticRecord (proper : entry.name.Proper)
    (parentProper : ∀ parent ∈ entry.parent, parent.Proper) :
    ∀ fragment ∈ staticRecord entry, Brings (known entry) fragment.render := by
  simp only [staticRecord, List.cons_append, List.forall_mem_cons, List.forall_mem_append,
    List.not_mem_nil, false_imp_iff, implies_true, and_true]
  refine ⟨brings_comment _, brings_furtherBases, brings_recordStart, ?_,
    brings_opener (by simp [openers, Fragment.render]), ?_,
    brings_recordEnd proper (by simp [Symbol.defined]), brings_blank⟩
  · cases isParent : entry.parent with
    | none => exact brings_commented "void *base__; " "no base type" (by simp [openers]) (by decide)
    | some parent =>
        simp only [Fragment.render, String.append_assoc]
        exact brings_inherited isParent parentProper (by simp [Symbol.inherited]) (by simp [closers])
  · exact brings_commented "   " "no static fields" (by simp [openers]) (by decide)

theorem brings_dynamicRecord (proper : entry.name.Proper)
    (parentProper : ∀ parent ∈ entry.parent, parent.Proper) :
    ∀ fragment ∈ dynamicRecord entry, Brings (known entry) fragment.render := by
  simp only [dynamicRecord, List.forall_mem_cons, List.not_mem_nil, false_imp_iff, implies_true,
    and_true]
  refine ⟨brings_comment _, brings_recordStart, ?_, ?_, ?_,
    brings_recordEnd proper (by simp [Symbol.defined]), brings_blank⟩
  · cases isParent : entry.parent with
    | none => exact brings_comment _
    | some parent =>
        simp only [Fragment.render, String.append_assoc]
        exact brings_inherited isParent parentProper (by simp [Symbol.inherited]) (by simp [closers])
  · simp only [Fragment.render, String.append_assoc]
    exact (brings_opener (by simp [openers])).append
      (brings_own proper (by simp [Symbol.defined]) (by simp [closers]))
  · exact brings_commented "   " "no dynamic fields" (by simp [openers]) (by decide)

theorem brings_slot (proper : entry.name.Proper) :
    ∀ fragment ∈ slot entry, Brings (known entry) fragment.render := by
  simp only [slot, List.forall_mem_cons, List.not_mem_nil, false_imp_iff, implies_true, and_true]
  refine ⟨?_, brings_blank⟩
  simp only [Fragment.render, String.append_assoc]
  refine (brings_opener (by simp [openers])).append ?_
  refine brings_own_append proper (by simp [Symbol.defined]) (by simp [closers]) ?_
  exact brings_own proper (by simp [Symbol.defined]) (by simp [closers])

theorem brings_assign {member value : String} (proper : entry.name.Proper)
    (closes : "." ++ member ++ " = " ∈ closers)
    (brings : Brings (known entry) (value ++ (";" ++ "\n"))) :
    Brings (known entry) (Fragment.line
      ("   " ++ Symbol.slot entry.name ++ "." ++ member ++ " = " ++ value ++ ";")).render := by
  have grouped : (Fragment.line
      ("   " ++ Symbol.slot entry.name ++ "." ++ member ++ " = " ++ value ++ ";")).render =
      "   " ++ (Symbol.slot entry.name ++ ("." ++ member ++ " = " ++ (value ++ (";" ++ "\n")))) := by
    simp only [Fragment.render, String.append_assoc]
  rw [grouped]
  refine (brings_opener (by simp [openers])).append ?_
  exact brings_own_append proper (by simp [Symbol.defined]) closes brings

theorem brings_parent (opener closer : String) {value : String → String}
    (written : ∀ slot, value slot ++ (";" ++ "\n") = opener ++ (slot ++ closer))
    (parentProper : ∀ parent ∈ entry.parent, parent.Proper) (opens : opener ∈ openers)
    (closes : closer ∈ closers) :
    Brings (known entry) ((entry.parent.map Symbol.slot).elim "NULL" value ++ (";" ++ "\n")) := by
  cases isParent : entry.parent with
  | none => exact brings_opener (by simp [openers])
  | some parent =>
      rw [Option.map_some, Option.elim_some, written]
      exact (brings_opener opens).append
        (brings_inherited isParent parentProper (by simp [Symbol.inherited]) closes)

theorem brings_setup (proper : entry.name.Proper)
    (parentProper : ∀ parent ∈ entry.parent, parent.Proper) :
    ∀ fragment ∈ setup entry, Brings (known entry) fragment.render := by
  have quoted : Brings (known entry) ("\"" ++ entry.name.text ++ "\"") := by
    have plain := proper.mem_text
    refine brings_string (fun quote => ?_) (fun escape => ?_)
    · exact absurd (plain _ quote) (by decide)
    · exact absurd (plain _ escape) (by decide)
  have above : Brings (known entry) ((entry.parent.map Symbol.slot).elim "NULL"
      (fun slot => "&(" ++ slot ++ ".typeInfo__)") ++ (";" ++ "\n")) :=
    brings_parent "&(" (".typeInfo__)" ++ (";" ++ "\n")) (fun slot => by simp only [String.append_assoc])
      parentProper (by simp [openers]) (by simp [closers])
  have aboveSlot : Brings (known entry) ((entry.parent.map Symbol.slot).elim "NULL"
      (fun slot => "&" ++ slot) ++ (";" ++ "\n")) :=
    brings_parent "&" (";" ++ "\n") (fun slot => by rw [String.append_assoc]) parentProper
      (by simp [openers]) (by simp [closers])
  have number : Brings (known entry) ("0" ++ (";" ++ "\n")) := brings_opener (by simp [openers])
  simp only [setup, List.forall_mem_cons, List.not_mem_nil, false_imp_iff, implies_true, and_true]
  refine ⟨?_, brings_assign proper (by simp [closers]) above,
    brings_assign proper (by simp [closers]) number, brings_assign proper (by simp [closers]) number,
    brings_assign proper (by simp [closers]) (quoted.append (brings_opener (by simp [openers]))),
    brings_assign proper (by simp [closers]) aboveSlot, brings_opener (by simp [openers, Fragment.render]),
    brings_blank⟩
  simp only [Fragment.render, String.append_assoc]
  exact (brings_opener (by simp [openers])).append
    (brings_own proper (by simp [Symbol.defined]) (by simp [closers]))

theorem words_block_subset (proper : entry.name.Proper)
    (parentProper : ∀ parent ∈ entry.parent, parent.Proper) : words (block entry) ⊆ known entry := by
  have brings : Brings (known entry) (block entry) := by
    refine brings_join fun text member => ?_
    obtain ⟨fragment, isFragment, rfl⟩ := List.mem_map.mp member
    simp only [ofEntry, List.mem_append] at isFragment
    rcases isFragment with ((inStatic | inDynamic) | inSlot) | inSetup
    · exact brings_staticRecord proper parentProper fragment inStatic
    · exact brings_dynamicRecord proper parentProper fragment inDynamic
    · exact brings_slot proper fragment inSlot
    · exact brings_setup proper parentProper fragment inSetup
  exact fun word member => brings.mem_of_mem_words member

end Layout

end Beagle
