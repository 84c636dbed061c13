import Beagle.Proofs.ReadNames
import Beagle.Proofs.SketchLines

/-!
Sketches as plain text.  The outline of a unit is written down here once more, line by line and without
any lookup, and a sketch of a parsed unit is that text: each method stands below the type whose body
has it.  A stub is named after its type and its method, with a dot in between, unless the name of the
type is empty.
-/

namespace Beagle

namespace Sketch

def slotName (field : Field) (declarator : Declarator) : String :=
  ((field.type.map fun type => type.name.text).or
    (declarator.initial.map fun literal => literal.value.type.name)).getD "object"

def recordLine (name : String) (decl : TypeDecl) : String :=
  let vars := decl.body.elim [] Body.vars
  let slots := vars.flatMap fun field => field.declarators.map (slotName field)
  ", ".intercalate (("%.dyn." ++ name ++ " = type \x7b %.classref") :: slots.map ("%.dyn." ++ ·)) ++
    " \x7d"

def dotted (owner name : String) : String :=
  owner ++ "." ++ name

/-- The name of a stub.  A type without a name leaves its methods their own names. -/
def stubName (owner name : String) : String :=
  if owner = "" then name else dotted owner name

def moduleConstant (name : String) : String :=
  globalName (".module." ++ name) ++ " = private constant [" ++ toString (name.utf8ByteSize + 1) ++
    " x i8] c\"" ++ Text.escapeBytes name ++ "\\00\""

def plainType (stub : String → String → String) (name : String) (decl : TypeDecl) : List String :=
  [s!"; Type '{name}'", recordLine name decl] ++
  (methodsOf decl).flatMap (fun method =>
    [s!"; method of '{name}'", "define void @" ++ stub name method.name ++ "() \x7b\x7d"]) ++
  [""]

def plainLines (stub : String → String → String) (unit : SourceUnit) : List String :=
  [s!"; module '{unit.moduleName}'", moduleConstant unit.moduleName] ++
    unit.types.flatMap fun decl => plainType stub (unit.nameOf decl).text decl

def textOf (lines : List String) : String :=
  String.join (lines.map (· ++ "\n"))

theorem slotType_eq_slotName : slotType = slotName := by
  funext field declarator
  rw [slotType, slotName]
  cases field.type <;> cases declarator.initial <;> rfl

theorem intercalate_cons (mark first : String) (others : List String) :
    mark.intercalate (first :: others) = first ++ String.join (others.map (mark ++ ·)) := by
  induction others generalizing first with
  | nil => simp
  | cons second others ih => simp [String.intercalate_cons_cons, ih, String.append_assoc]

theorem renderAll_append (first second : List Fragment) :
    Fragment.renderAll (first ++ second) = Fragment.renderAll first ++ Fragment.renderAll second := by
  simp [Fragment.renderAll]

theorem renderAll_flatMap {α : Type} {fragments : α → List Fragment} {lines : α → List String}
    (same : ∀ item, Fragment.renderAll (fragments item) = textOf (lines item)) (items : List α) :
    Fragment.renderAll (items.flatMap fragments) = textOf (items.flatMap lines) := by
  induction items with
  | nil => rfl
  | cons item items ih => simp [renderAll_append, same, ih, textOf]

theorem slots_eq (decl : TypeDecl) :
    slots decl = (decl.body.elim [] Body.vars).flatMap fun field =>
      field.declarators.map (slotName field) := by
  rw [slots, slotType_eq_slotName]
  cases decl.body <;> rfl

theorem renderAll_typeLines (name : String) (decl : TypeDecl) :
    Fragment.renderAll (typeLines name decl) = textOf [s!"; Type '{name}'", recordLine name decl] := by
  have joined : (", " : String) ++ "%.dyn." = ", %.dyn." := rfl
  rw [typeLines, recordLine, intercalate_cons, slots_eq]
  simp [Fragment.renderAll, Fragment.render, textOf, Function.comp_def, ← String.append_assoc, joined,
    -String.reduceAppend]

theorem renderAll_methodLines (owner name : String) :
    Fragment.renderAll (methodLines owner name) = textOf [s!"; method of '{owner}'",
      "define void @" ++ stubName owner name ++ "() \x7b\x7d"] := by
  simp [methodLines, Fragment.renderAll, Fragment.render, textOf, stubName, dotted]

theorem renderAll_typeSection (name : String) (decl : TypeDecl) :
    Fragment.renderAll (typeSection name decl) = textOf (plainType stubName name decl) := by
  rw [typeSection, renderAll_append, renderAll_append, renderAll_typeLines,
    renderAll_flatMap fun method => renderAll_methodLines name _]
  simp [plainType, textOf, Fragment.renderAll, Fragment.render, String.append_assoc]

theorem renderAll_unitLines (unit : SourceUnit) :
    Fragment.renderAll (unitLines unit) = textOf (plainLines stubName unit) := by
  rw [unitLines, renderAll_append, renderAll_flatMap fun decl => renderAll_typeSection _ decl]
  simp [plainLines, textOf, moduleLines, moduleConstant, Fragment.renderAll, Fragment.render,
    String.append_assoc]

theorem plainType_dotted {name : String} (named : name ≠ "") (decl : TypeDecl) :
    plainType stubName name decl = plainType dotted name decl := by
  simp [plainType, stubName, named]

theorem plainLines_dotted {unit : SourceUnit}
    (named : ∀ decl ∈ unit.types, (unit.nameOf decl).text ≠ "") :
    plainLines stubName unit = plainLines dotted unit := by
  have sections : unit.types.map (fun decl => plainType stubName (unit.nameOf decl).text decl) =
      unit.types.map fun decl => plainType dotted (unit.nameOf decl).text decl :=
    List.map_congr_left fun decl member => plainType_dotted (named decl member) decl
  rw [plainLines, plainLines, List.flatMap_def, List.flatMap_def, sections]

end Sketch

theorem DottedName.text_eq_empty_iff {name : DottedName} : name.text = "" ↔ name = .single "" := by
  constructor
  · intro empty
    obtain ⟨segments, nonempty⟩ := name
    match segments with
    | [] => exact absurd rfl nonempty
    | [segment] =>
        obtain rfl : segment = "" := by simpa [DottedName.text] using empty
        rfl
    | first :: second :: others => simp [DottedName.text, String.intercalate_cons_cons] at empty
  · rintro rfl
    rfl

theorem SourceUnit.nameOf_text_eq_empty_iff {unit : SourceUnit} {decl : TypeDecl} :
    (unit.nameOf decl).text = "" ↔ unit.package = none ∧ decl.name = .single "" := by
  rw [DottedName.text_eq_empty_iff, nameOf, packageName]
  cases unit.package with
  | none => simp [DottedName.resolve]
  | some clause =>
      simp only [Option.map_some, DottedName.resolve, reduceCtorEq, false_and, iff_false]
      intro same
      split at same
      · rename_i qualified
        rw [same] at qualified
        simp [DottedName.isQualified, DottedName.size, DottedName.single] at qualified
      · have size := congrArg DottedName.size same
        have first := List.length_pos_of_ne_nil clause.name.segments_ne_nil
        have second := List.length_pos_of_ne_nil decl.name.segments_ne_nil
        simp only [DottedName.size, DottedName.within, DottedName.single, List.length_append,
          List.length_cons, List.length_nil] at size
        omega

/-- A sketch of a parsed unit is the plain text of its lines, and the type that a method is attributed to
is the one whose body has it.  Only a type whose name is empty leaves its methods without an owner, and
no unit has one that was read from words. -/
theorem sketch_eq_plainLines {σ : Type} [TokenSource σ] (state : State σ) {unit : SourceUnit}
    (parsed : state.parse.1 = .ok unit) :
    unit.sketch = Sketch.textOf (Sketch.plainLines Sketch.stubName unit) ∧
    (∀ decl ∈ unit.types, ∀ method ∈ Sketch.methodsOf decl,
      unit.enclosingType? method.info.id = some decl) ∧
    (∀ decl ∈ unit.types, (unit.nameOf decl).text = "" ↔
      unit.package = none ∧ decl.name = .single "") ∧
    (Spelling.Worded state.ahead →
      unit.sketch = Sketch.textOf (Sketch.plainLines Sketch.dotted unit)) := by
  have reading := state.reading_of_parse parsed
  have wellFormed := unit.wellFormed_of_reading reading
  have whole : unit.sketch = Sketch.textOf (Sketch.plainLines Sketch.stubName unit) := by
    rw [wellFormed.sketch_eq, Sketch.renderAll_unitLines]
  refine ⟨whole, ?_, fun _ _ => SourceUnit.nameOf_text_eq_empty_iff, ?_⟩
  · intro decl isType method isMethod
    rw [Sketch.methodsOf] at isMethod
    cases found : decl.body with
    | none => simp [found] at isMethod
    | some body =>
        rw [found] at isMethod
        exact wellFormed.enclosingType?_of_mem_methods isType found isMethod
  · intro worded
    have proper := State.proper_of_parse worded parsed
    rw [whole, Sketch.plainLines_dotted]
    intro decl isType empty
    have alone := (SourceUnit.nameOf_text_eq_empty_iff.mp empty).2
    have isWord := (proper.types decl isType).name "" (by simp [alone, DottedName.single])
    revert isWord
    decide

def methodUnit (name : String) (brace word : Nat) : SourceUnit :=
  ⟨⟨0, ⟨1, 1⟩, none⟩, "a.bgl", none, [], [⟨⟨1, ⟨1, 1⟩, some 0⟩, [], none, .single name, [],
    some ⟨⟨2, ⟨1, brace⟩, some 1⟩, [], [], [⟨⟨3, ⟨1, word⟩, some 2⟩, [], none, "m", [], none, none⟩]⟩⟩]⟩

theorem sketch_eq_plainLines_example :
    let state := State.ofSource (SourceText.ofString "a.bgl" "class A \x7b def m() \x7d") 2 .empty
    state.parse.1 = .ok (methodUnit "A" 9 11) ∧
    (methodUnit "A" 9 11).sketch = Sketch.textOf ["; module 'a'",
      "@.module.a = private constant [2 x i8] c\"a\\00\"", "; Type 'A'",
      "%.dyn.A = type \x7b %.classref \x7d",
      "; method of 'A'", "define void @A.m() \x7b\x7d", ""] := by
  intro state
  have parsed : state.parse.1 = .ok (methodUnit "A" 9 11) := by decide +kernel
  have worded : Spelling.Worded state.ahead := State.worded_ofSource _ _ _
  refine ⟨parsed, ?_⟩
  rw [(sketch_eq_plainLines state parsed).2.2.2 worded]
  decide +kernel

/-- The name of the type does not stand in front of the method's if it is empty. -/
theorem sketch_unnamedType :
    let state := State.ofSource (Tape.ofTokens "a.bgl" [.symbol (.keyword .classWord) ⟨1, 1⟩,
      ⟨.identifier, "", ⟨1, 7⟩⟩, .symbol (.mark .leftBrace) ⟨1, 8⟩, .symbol (.keyword .defWord) ⟨1, 10⟩,
      ⟨.identifier, "m", ⟨1, 14⟩⟩, .symbol (.mark .leftParen) ⟨1, 15⟩,
      .symbol (.mark .rightParen) ⟨1, 16⟩, .symbol (.mark .rightBrace) ⟨1, 18⟩]) 2 .empty
    state.parse.1 = .ok (methodUnit "" 8 10) ∧
    (methodUnit "" 8 10).sketch = Sketch.textOf ["; module 'a'",
      "@.module.a = private constant [2 x i8] c\"a\\00\"", "; Type ''",
      "%.dyn. = type \x7b %.classref \x7d",
      "; method of ''", "define void @m() \x7b\x7d", ""] ∧
    (methodUnit "" 8 10).sketch ≠
      Sketch.textOf (Sketch.plainLines Sketch.dotted (methodUnit "" 8 10)) := by
  decide +kernel

end Beagle
