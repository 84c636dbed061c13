import Beagle.Proofs.FailFast.Parse
import Beagle.Proofs.ModuleConstant
import Beagle.Proofs.Pieces
import Mathlib.Algebra.GroupWithZero.Nat

/-!
The shape of a sketch: how many lines it has, and how they start.  What a sketch prints of a source text
are words, so no line is broken by it.  The name of the unit is different: it may come from the name of the
file, which can have a line feed in it, and the comment in front of all lines prints it as it is.
-/

namespace Beagle

namespace Text

def Unbroken (text : String) : Prop :=
  '\n' ∉ text.toList

instance : DecidablePred Unbroken :=
  fun _ => inferInstanceAs (Decidable (¬_))

variable {text : String}

@[simp] theorem unbroken_append {first second : String} :
    Unbroken (first ++ second) ↔ Unbroken first ∧ Unbroken second := by
  simp [Unbroken]

@[simp] theorem unbroken_join {parts : List String} :
    Unbroken (String.join parts) ↔ ∀ part ∈ parts, Unbroken part := by
  simp [Unbroken, String.toList_join]

theorem unbroken_intercalate {sign : String} {parts : List String} (signUnbroken : Unbroken sign)
    (unbroken : ∀ part ∈ parts, Unbroken part) : Unbroken (sign.intercalate parts) := by
  cases parts with
  | nil => simp [Unbroken]
  | cons first others =>
      rw [List.forall_mem_cons] at unbroken
      rw [Sketch.intercalate_cons, unbroken_append, unbroken_join, List.forall_mem_map]
      exact ⟨unbroken.1, fun part member => unbroken_append.mpr ⟨signUnbroken, unbroken.2 part member⟩⟩

theorem unbroken_of_forall {keep : Char → Bool} (kept : ∀ char ∈ text.toList, keep char)
    (never : keep '\n' = false) : Unbroken text := by
  intro feed
  exact Bool.false_ne_true (never.symm.trans (kept _ feed))

theorem unbroken_toString (number : Nat) : Unbroken (toString number) := by
  have digits : ∀ char ∈ (toString number).toList, char.isDigit := by
    intro char member
    rw [Nat.toString_eq_ofList_toDigits, String.toList_ofList] at member
    exact Nat.isDigit_of_mem_toDigits (by decide) (by decide) member
  exact unbroken_of_forall digits rfl

theorem unbroken_escapeBytes (text : String) : Unbroken (escapeBytes text) :=
  fun feed => absurd (quotable_of_mem_escapeBytes feed) (by decide)

section FileNames

variable {char : Char}

theorem mem_pieces_of_mem_pathParts {path : String} {part : List Char} (listed : part ∈ pathParts path) :
    part ∈ pieces '/' path.toList := by
  unfold pathParts at listed
  split at listed
  · simp at listed
  · rename_i first others same
    rw [same]
    rcases List.mem_append.mp listed with isFirst | isOther
    · exact List.mem_cons.mpr (.inl (List.mem_singleton.mp (List.mem_filter.mp isFirst).1))
    · exact List.mem_cons_of_mem _ (List.mem_filter.mp isOther).1

theorem mem_of_mem_dropExtension {part : List Char} (member : char ∈ dropExtension part) :
    char ∈ part := by
  unfold dropExtension at member
  split at member
  · exact member
  · exact member
  · rename_i dot stem _ same
    have inside : char ∈ part.reverse.dropWhile (· ≠ '.') := by
      rw [same]
      exact List.mem_cons_of_mem _ (List.mem_reverse.mp member)
    exact List.mem_reverse.mp ((List.dropWhile_suffix _).subset inside)

theorem mem_of_mem_stem {path : String} (member : char ∈ ((fileStem? path).getD path).toList) :
    char ∈ path.toList := by
  unfold fileStem? at member
  split at member
  · rename_i part last
    split at member
    · exact member
    · have inPart := mem_of_mem_dropExtension (by simpa using member)
      exact subset_of_mem_pieces (mem_pieces_of_mem_pathParts (List.mem_of_getLast? last)) inPart
  · exact member

end FileNames

end Text

open Text

theorem Lexeme.IsWord.unbroken {text : String} (isWord : IsWord text) : Unbroken text :=
  unbroken_of_forall isWord.continues rfl

theorem DottedName.Proper.unbroken {name : DottedName} (proper : name.Proper) : Unbroken name.text :=
  unbroken_intercalate (by decide) fun segment member => (proper segment member).unbroken

namespace Sketch

def lineMarks : List String :=
  ["; ", "@", "%.dyn.", "define void @"]

def Starts (line : String) : Prop :=
  line = "" ∨ ∃ mark ∈ lineMarks, mark.toList <+: line.toList

def lineCount (unit : SourceUnit) : Nat :=
  2 + (unit.types.map fun decl => 3 + 2 * (methodsOf decl).length).sum

/-- The text has as many lines as the unit asks for, each ended by a line feed, and all of them start as
they should. -/
def KeepsLines (unit : SourceUnit) (text : String) : Prop :=
  ∃ lines, text = textOf lines ∧ (∀ line ∈ lines, Unbroken line ∧ Starts line) ∧
    lines.length = lineCount unit

def banner (unit : SourceUnit) : String :=
  s!"; module '{unit.moduleName}'"

def linesBelow (unit : SourceUnit) : List String :=
  moduleConstant unit.moduleName ::
    unit.types.flatMap fun decl => plainType stubName (unit.nameOf decl).text decl

theorem starts_append {mark front : String} (listed : mark ∈ lineMarks)
    (starts : mark.toList <+: front.toList) (rest : String) : Starts (front ++ rest) := by
  refine .inr ⟨mark, listed, ?_⟩
  rw [String.toList_append]
  exact starts.trans (List.prefix_append _ _)

theorem comment_starts {front : String} (starts : "; ".toList <+: front.toList) (name : String) :
    Starts (front ++ name ++ "'") := by
  rw [String.append_assoc]
  exact starts_append (by decide) starts _

theorem comment_unbroken {front name : String} (unbroken : Unbroken front) :
    Unbroken (front ++ name ++ "'") ↔ Unbroken name := by
  have closing : Unbroken "'" := by decide
  simp [unbroken, closing]

theorem length_plainType (name : String) (decl : TypeDecl) :
    (plainType stubName name decl).length = 3 + 2 * (methodsOf decl).length := by
  simp [plainType, List.length_flatMap]
  omega

theorem length_linesBelow (unit : SourceUnit) : (linesBelow unit).length + 1 = lineCount unit := by
  simp only [linesBelow, lineCount, List.length_cons, List.length_flatMap, length_plainType]
  omega

theorem unbroken_globalName (name : String) : Unbroken (globalName name) := by
  unfold globalName
  split
  · rename_i bare
    have unbroken : Unbroken name := unbroken_of_forall (List.all_eq_true.mp bare) rfl
    exact unbroken_append.mpr ⟨by decide, unbroken⟩
  · simp only [unbroken_append, unbroken_escapeBytes]
    decide

theorem starts_moduleConstant (name : String) : Starts (moduleConstant name) := by
  unfold moduleConstant globalName
  split
  · simp only [String.append_assoc]
    exact starts_append (by decide) List.prefix_rfl _
  · simp only [String.append_assoc]
    exact @starts_append "@" "@\"" (by decide) (by decide) _

theorem unbroken_moduleConstant (name : String) : Unbroken (moduleConstant name) := by
  simp only [moduleConstant, unbroken_append, unbroken_globalName, unbroken_toString, unbroken_escapeBytes]
  decide

theorem textOf_cons (line : String) (lines : List String) :
    textOf (line :: lines) = line ++ "\n" ++ textOf lines := by
  simp [textOf]

theorem count_textOf_cons (line : String) (lines : List String) :
    (textOf (line :: lines)).toList.count '\n' =
      line.toList.count '\n' + 1 + (textOf lines).toList.count '\n' := by
  have feed : "\n".toList.count '\n' = 1 := rfl
  rw [textOf_cons, String.toList_append, String.toList_append, List.count_append, List.count_append, feed]

theorem count_textOf {lines : List String} (unbroken : ∀ line ∈ lines, Unbroken line) :
    (textOf lines).toList.count '\n' = lines.length := by
  induction lines with
  | nil => rfl
  | cons line lines ih =>
      rw [List.forall_mem_cons] at unbroken
      rw [count_textOf_cons, ih unbroken.2, List.count_eq_zero.mpr unbroken.1, List.length_cons]
      omega

section Proper

variable {unit : SourceUnit} {decl : TypeDecl}

theorem unbroken_nameOf (proper : unit.Proper) (isType : decl ∈ unit.types) :
    Unbroken (unit.nameOf decl).text :=
  (proper.nameOf isType).unbroken

theorem unbroken_slotName {field : Field} (typed : field.Proper)
    (declarator : Declarator) : Unbroken (slotName field declarator) := by
  unfold slotName
  cases isTyped : field.type with
  | some type => exact (typed type isTyped).unbroken
  | none =>
      cases declarator.initial with
      | none => decide
      | some literal =>
          change Unbroken literal.value.type.name
          cases literal.value.type <;> decide

theorem unbroken_recordLine {name : String} (named : Unbroken name)
    (typed : ∀ body ∈ decl.body, ∀ field ∈ body.vars, field.Proper) :
    Unbroken (recordLine name decl) := by
  refine unbroken_append.mpr ⟨unbroken_intercalate (by decide) ?_, by decide⟩
  rw [List.forall_mem_cons, List.forall_mem_map]
  constructor
  · simp only [unbroken_append, named]
    decide
  · intro slot isSlot
    obtain ⟨field, isVar, inField⟩ := List.mem_flatMap.mp isSlot
    obtain ⟨declarator, _, rfl⟩ := List.mem_map.mp inField
    cases isBody : decl.body with
    | none => simp [isBody] at isVar
    | some body =>
        rw [isBody] at isVar
        exact unbroken_append.mpr ⟨by decide, unbroken_slotName (typed body isBody field isVar) _⟩

theorem isWord_of_methodsOf (proper : unit.Proper) (isType : decl ∈ unit.types) {method : Method}
    (isMethod : method ∈ methodsOf decl) : Lexeme.IsWord method.name := by
  rw [methodsOf] at isMethod
  cases isBody : decl.body with
  | none => simp [isBody] at isMethod
  | some body =>
      rw [isBody] at isMethod
      exact ((proper.types decl isType).body body isBody).methods method isMethod

theorem unbroken_stubName {owner name : String} (owned : Unbroken owner) (named : Unbroken name) :
    Unbroken (stubName owner name) := by
  unfold stubName dotted
  split
  · exact named
  · exact unbroken_append.mpr ⟨unbroken_append.mpr ⟨owned, by decide⟩, named⟩

theorem lines_of_plainType (proper : unit.Proper) (isType : decl ∈ unit.types) :
    ∀ line ∈ plainType stubName (unit.nameOf decl).text decl, Unbroken line ∧ Starts line := by
  let name := (unit.nameOf decl).text
  have named : Unbroken name := unbroken_nameOf proper isType
  intro line member
  simp only [plainType, List.mem_append, List.mem_cons, List.not_mem_nil, or_false, List.mem_flatMap]
    at member
  rcases member with ((rfl | rfl) | ⟨method, isMethod, rfl | rfl⟩) | rfl
  · exact ⟨(comment_unbroken (by decide)).mpr named, comment_starts (by decide) name⟩
  · refine ⟨unbroken_recordLine named fun body isBody => ((proper.types decl isType).body body isBody).vars, ?_⟩
    rw [recordLine, intercalate_cons]
    simp only [String.append_assoc]
    exact starts_append (by decide) List.prefix_rfl _
  · exact ⟨(comment_unbroken (by decide)).mpr named, comment_starts (by decide) name⟩
  · have stub : Unbroken (stubName name method.name) :=
      unbroken_stubName named (isWord_of_methodsOf proper isType isMethod).unbroken
    simp only [String.append_assoc]
    refine ⟨?_, starts_append (by decide) List.prefix_rfl _⟩
    exact unbroken_append.mpr ⟨by decide, unbroken_append.mpr ⟨stub, by decide⟩⟩
  · exact ⟨by decide, .inl rfl⟩

theorem lines_of_linesBelow (proper : unit.Proper) :
    ∀ line ∈ linesBelow unit, Unbroken line ∧ Starts line := by
  refine List.forall_mem_cons.mpr ⟨⟨unbroken_moduleConstant _, starts_moduleConstant _⟩, ?_⟩
  intro line member
  obtain ⟨decl, isType, inSection⟩ := List.mem_flatMap.mp member
  exact lines_of_plainType proper isType line inSection

theorem unbroken_banner : Unbroken (banner unit) ↔ Unbroken unit.moduleName :=
  @comment_unbroken "; module '" _ (by decide)

theorem keepsLines_iff (proper : unit.Proper) :
    KeepsLines unit (textOf (plainLines stubName unit)) ↔ Unbroken unit.moduleName := by
  have split : plainLines stubName unit = banner unit :: linesBelow unit := rfl
  have below := lines_of_linesBelow proper
  have count := length_linesBelow unit
  rw [split]
  constructor
  · rintro ⟨lines, same, kept, length⟩
    have fed := congrArg (fun text => text.toList.count '\n') same
    rw [count_textOf_cons, count_textOf fun line member => (below line member).1,
      count_textOf fun line member => (kept line member).1] at fed
    have none : (banner unit).toList.count '\n' = 0 := by omega
    exact unbroken_banner.mp (List.count_eq_zero.mp none)
  · intro unbroken
    refine ⟨_, rfl, List.forall_mem_cons.mpr ⟨⟨unbroken_banner.mpr unbroken, ?_⟩, below⟩, count⟩
    exact comment_starts (by decide) _

theorem unbroken_moduleName_iff (proper : unit.Proper) : Unbroken unit.moduleName ↔
    (unit.package = none → Unbroken ((fileStem? unit.file).getD unit.file)) := by
  unfold SourceUnit.moduleName SourceUnit.packageName
  cases isPackage : unit.package with
  | none => simp
  | some clause => simpa using (proper.package clause isPackage).unbroken

end Proper

end Sketch

theorem compiled_sketch {settings : Settings} {file text output : String}
    (sketched : settings.emit = .sketch) (compiled : compile settings file text = .ok output) :
    ∃ unit, (State.ofSource (SourceText.ofString file text) settings.lookahead .empty).parse.1 = .ok unit ∧
      unit.file = file ∧ unit.Proper ∧ output = Sketch.textOf (Sketch.plainLines Sketch.stubName unit) := by
  rcases compileIn_cases .empty settings file text with ⟨_, ran⟩ | ⟨_, unit, parsed, ran⟩
  · rw [compile, ran] at compiled
    cases compiled
  · let state := State.ofSource (SourceText.ofString file text) settings.lookahead .empty
    have reading := state.reading_of_parse parsed
    have proper := State.proper_of_parse (State.worded_ofSource _ _ _) parsed
    refine ⟨unit, parsed, reading.file, proper, ?_⟩
    have made : output = unit.sketch := by
      rw [compile, ran, SourceUnit.generate, sketched] at compiled
      exact (Except.ok.inj compiled).symm
    rw [made, (unit.wellFormed_of_reading reading).sketch_eq, Sketch.renderAll_unitLines]

/-- All lines of a sketch but the first one are whole, as many as they should be, and start as they should.
The first one is whole too if and only if a package names the unit or the stem of the file name has no
line feed, so that a file name without a line feed keeps all lines. -/
theorem sketch_keepsLines_iff {settings : Settings} {file text output : String}
    (sketched : settings.emit = .sketch) (compiled : compile settings file text = .ok output) :
    ∃ unit, (State.ofSource (SourceText.ofString file text) settings.lookahead .empty).parse.1 = .ok unit ∧
      (Sketch.KeepsLines unit output ↔
        (unit.package = none → Unbroken ((fileStem? file).getD file))) ∧
      (Unbroken file → Sketch.KeepsLines unit output) ∧
      ∃ below, output = Sketch.banner unit ++ "\n" ++ Sketch.textOf below ∧
        (∀ line ∈ below, Unbroken line ∧ Sketch.Starts line) ∧
        below.length + 1 = Sketch.lineCount unit := by
  obtain ⟨unit, parsed, rfl, proper, rfl⟩ := compiled_sketch sketched compiled
  have exactly := (Sketch.keepsLines_iff proper).trans (Sketch.unbroken_moduleName_iff proper)
  refine ⟨unit, parsed, exactly, fun unbroken => ?_, Sketch.linesBelow unit, ?_,
    Sketch.lines_of_linesBelow proper, Sketch.length_linesBelow unit⟩
  · exact exactly.mpr fun _ feed => unbroken (mem_of_mem_stem feed)
  · exact Sketch.textOf_cons _ _

/-- The line feed stands in front of the stem, and is not printed. -/
theorem sketch_keepsLines_iff_example :
    let output := Sketch.textOf ["; module 'a'", "@.module.a = private constant [2 x i8] c\"a\\00\"",
      "; Type 'A'", "%.dyn.A = type \x7b %.classref, %.dyn.b.C \x7d", "; method of 'A'",
      "define void @A.m() \x7b\x7d", ""]
    let text := "class A \x7b var x: b.C def m() \x7d"
    compile { emit := .sketch } "x\ny/a.bgl" text = .ok output ∧ ∃ unit,
      (State.ofSource (SourceText.ofString "x\ny/a.bgl" text) 16 .empty).parse.1 = .ok unit ∧
      Sketch.KeepsLines unit output := by
  intro output text
  have compiled : compile { emit := .sketch } "x\ny/a.bgl" text = .ok output := by decide +kernel
  obtain ⟨unit, parsed, exactly, _⟩ := sketch_keepsLines_iff rfl compiled
  exact ⟨compiled, unit, parsed, exactly.mpr fun _ => by decide⟩

def brokenUnit : SourceUnit :=
  ⟨⟨0, ⟨1, 1⟩, none⟩, "a\nb.bgl", none, [], [⟨⟨1, ⟨1, 1⟩, some 0⟩, [], none, .single "A", [],
    some ⟨⟨2, ⟨1, 9⟩, some 1⟩, [], [], []⟩⟩]⟩

/-- A line feed in the name of a file breaks the first line: the sketch has six lines and not five, and the
second one starts with a character of that name. -/
theorem sketch_breaks_line :
    let output := Sketch.textOf ["; module 'a", "b'",
      "@\".module.a\\0Ab\" = private constant [4 x i8] c\"a\\0Ab\\00\"", "; Type 'A'",
      "%.dyn.A = type \x7b %.classref \x7d", ""]
    let state := State.ofSource (SourceText.ofString "a\nb.bgl" "class A \x7b\x7d") 16 .empty
    state.parse.1 = .ok brokenUnit ∧ Sketch.lineCount brokenUnit = 5 ∧
    compile { emit := .sketch } "a\nb.bgl" "class A \x7b\x7d" = .ok output ∧
    ¬Sketch.KeepsLines brokenUnit output := by
  intro output state
  have ran : state.parse.1 = .ok brokenUnit ∧
      compile { emit := .sketch } "a\nb.bgl" "class A \x7b\x7d" = .ok output ∧
      output.toList.count '\n' = 6 := by decide +kernel
  obtain ⟨parsed, compiled, fed⟩ := ran
  refine ⟨parsed, rfl, compiled, ?_⟩
  rintro ⟨lines, same, kept, length⟩
  rw [same, Sketch.count_textOf fun line member => (kept line member).1, length] at fed
  exact absurd fed (by decide)

end Beagle
