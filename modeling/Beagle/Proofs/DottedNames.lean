import Beagle.Proofs.Inheritance.Resolution
import Beagle.Proofs.Pieces
import Beagle.Proofs.ReadNames

/-!
Dotted names and their texts.  A name whose segments are neither empty nor dotted is what its text is read
as, and a text is read as such a name or not at all.  The names that are read from a source are of this
kind, so types are found by the texts of their names as well as by the names themselves.
-/

namespace Beagle

namespace DottedName

def Dotless (name : DottedName) : Prop :=
  ∀ segment ∈ name.segments, segment ≠ "" ∧ '.' ∉ segment.toList

section Texts

variable {name other : DottedName} {text : String}

theorem ofSegments?_eq_some_iff {segments : List String} :
    ofSegments? segments = some name ↔ name.segments = segments := by
  unfold ofSegments?
  constructor
  · intro made
    split at made
    · obtain rfl := Option.some.inj made
      rfl
    · cases made
  · rintro rfl
    rw [dif_pos name.segments_ne_nil]

theorem toList_text (name : DottedName) :
    name.text.toList = ['.'].intercalate (name.segments.map String.toList) :=
  String.toList_intercalate

theorem pieces_text (dotless : name.Dotless) :
    Text.pieces '.' name.text.toList = name.segments.map String.toList := by
  rw [toList_text, Text.pieces_eq_splitOn]
  apply List.splitOn_intercalate
  · intro piece listed
    obtain ⟨segment, member, rfl⟩ := List.mem_map.mp listed
    exact (dotless segment member).2
  · simp [name.segments_ne_nil]

theorem ofText?_eq (text : String) : ofText? text =
    if [] ∈ Text.pieces '.' text.toList then none
    else ofSegments? ((Text.pieces '.' text.toList).map String.ofList) := by
  have empty : ((Text.pieces '.' text.toList).map String.ofList).contains "" = true ↔
      [] ∈ Text.pieces '.' text.toList := by
    simp
  unfold ofText?
  simp only [empty]

theorem ofText?_eq_some_iff : ofText? text = some name ↔ name.Dotless ∧ name.text = text := by
  rw [ofText?_eq]
  constructor
  · intro read
    split at read
    · cases read
    · rename_i unempty
      have segments := ofSegments?_eq_some_iff.mp read
      constructor
      · intro segment member
        rw [segments] at member
        obtain ⟨piece, listed, rfl⟩ := List.mem_map.mp member
        constructor
        · rintro empty
          obtain rfl : piece = [] := by simpa using empty
          exact unempty listed
        · rw [String.toList_ofList]
          exact Text.notMem_of_mem_pieces listed
      · apply String.toList_injective
        rw [toList_text, segments, List.map_map, Text.pieces_eq_splitOn]
        simp [Function.comp_def]
  · rintro ⟨dotless, rfl⟩
    rw [pieces_text dotless, if_neg, ofSegments?_eq_some_iff]
    · simp [Function.comp_def]
    · intro empty
      obtain ⟨segment, member, none⟩ := List.mem_map.mp empty
      exact (dotless segment member).1 (by simpa using none)

theorem exists_ofText?_iff : (∃ name, ofText? text = some name) ↔
    ∀ piece, Text.IsPiece '.' text.toList piece → piece ≠ [] := by
  simp only [← Text.mem_pieces_iff]
  rw [ofText?_eq]
  constructor
  · rintro ⟨name, read⟩ piece listed rfl
    rw [if_pos listed] at read
    cases read
  · intro unempty
    have some : (Text.pieces '.' text.toList).map String.ofList ≠ [] := by
      simp [Text.pieces_eq_splitOn, List.splitOn_ne_nil]
    refine ⟨⟨_, some⟩, ?_⟩
    rw [if_neg fun listed => unempty [] listed rfl, ofSegments?_eq_some_iff]

theorem Dotless.eq_of_text (dotless : name.Dotless) (otherDotless : other.Dotless)
    (same : name.text = other.text) : name = other := by
  have read := ofText?_eq_some_iff.mpr ⟨dotless, same⟩
  rw [ofText?_eq_some_iff.mpr ⟨otherDotless, rfl⟩] at read
  exact (Option.some.inj read).symm

theorem Proper.dotless (proper : name.Proper) : name.Dotless := by
  intro segment member
  have isWord := proper segment member
  constructor
  · rintro rfl
    obtain ⟨first, others, same, _⟩ := isWord
    simp at same
  · intro dot
    have continues := isWord.continues '.' dot
    revert continues
    decide

end Texts

section Parts

variable {name part : DottedName} {start stop : Nat}

theorem slice?_eq_some_iff : name.slice? start stop = some part ↔
    start < stop ∧ stop ≤ name.size ∧ part.segments = (name.segments.take stop).drop start := by
  rw [slice?]
  split
  · rename_i inside
    rw [ofSegments?_eq_some_iff]
    exact ⟨fun same => ⟨inside.1, inside.2, same⟩, fun found => found.2.2⟩
  · rename_i outside
    constructor
    · intro found
      cases found
    · rintro ⟨ordered, bounded, _⟩
      exact absurd ⟨ordered, bounded⟩ outside

theorem exists_slice? (ordered : start < stop) (bounded : stop ≤ name.size) :
    ∃ part, name.slice? start stop = some part ∧
      part.segments = (name.segments.take stop).drop start := by
  have some : (name.segments.take stop).drop start ≠ [] := by
    intro none
    have length := congrArg List.length none
    rw [size] at bounded
    simp only [List.length_drop, List.length_take, List.length_nil] at length
    omega
  exact ⟨⟨_, some⟩, slice?_eq_some_iff.mpr ⟨ordered, bounded, rfl⟩, rfl⟩

theorem slice?_eq_none_iff : name.slice? start stop = none ↔ stop ≤ start ∨ name.size < stop := by
  constructor
  · intro absent
    by_contra inside
    have ordered : start < stop := by omega
    have bounded : stop ≤ name.size := by omega
    obtain ⟨part, found, _⟩ := exists_slice? ordered bounded
    rw [absent] at found
    cases found
  · intro outside
    rw [Option.eq_none_iff_forall_ne_some]
    intro part found
    obtain ⟨ordered, bounded, _⟩ := slice?_eq_some_iff.mp found
    omega

theorem within_slices {count : Nat} (positive : 0 < count) (proper : count < name.size) :
    ∃ front back, name.slice? 0 count = some front ∧ name.slice? count name.size = some back ∧
      back.within front = name := by
  obtain ⟨front, isFront, frontSegments⟩ := exists_slice? positive (Nat.le_of_lt proper)
  obtain ⟨back, isBack, backSegments⟩ := exists_slice? proper (Nat.le_refl name.size)
  refine ⟨front, back, isFront, isBack, ?_⟩
  have whole : front.segments ++ back.segments = name.segments := by
    rw [frontSegments, backSegments, List.drop_zero, size, List.take_length, List.take_append_drop]
  cases name
  simp [within, whole]

end Parts

inductive Edit
  | append (segment : String)
  | slice (start stop : Nat)
  | putInside (package : DottedName)

def edit (name : DottedName) : Edit → Option DottedName
  | .append segment => some (name.push segment)
  | .slice start stop => name.slice? start stop
  | .putInside package => some (name.within package)

def Edit.change (segments : List String) : Edit → Option (List String)
  | .append segment => some (segments ++ [segment])
  | .slice start stop =>
    if start < stop ∧ stop ≤ segments.length then some ((segments.take stop).drop start) else none
  | .putInside package => some (package.segments ++ segments)

section Edits

theorem segments_edit (name : DottedName) (edit : Edit) :
    (name.edit edit).map segments = edit.change name.segments := by
  cases edit with
  | append segment => rfl
  | putInside package => rfl
  | slice start stop =>
      rw [DottedName.edit, Edit.change]
      by_cases inside : start < stop ∧ stop ≤ name.segments.length
      · obtain ⟨part, found, same⟩ := exists_slice? inside.1 inside.2
        rw [found, if_pos inside, Option.map_some, same]
      · have absent : name.slice? start stop = none := slice?_eq_none_iff.mpr (by rw [size]; omega)
        rw [absent, if_neg inside, Option.map_none]

theorem segments_edits (name : DottedName) (edits : List Edit) :
    (edits.foldlM DottedName.edit name).map segments = edits.foldlM Edit.change name.segments := by
  induction edits generalizing name with
  | nil => rfl
  | cons first edits ih =>
      rw [List.foldlM_cons, List.foldlM_cons, ← segments_edit]
      cases name.edit first with
      | none => rfl
      | some middle => exact ih middle

theorem edits_ne_nil (name : DottedName) (edits : List Edit) :
    edits.foldlM Edit.change name.segments ≠ some [] := by
  intro empty
  rw [← segments_edits, Option.map_eq_some_iff] at empty
  obtain ⟨last, _, none⟩ := empty
  exact last.segments_ne_nil none

end Edits

end DottedName

def DottedName.Scanned (name : DottedName) : Prop :=
  ∀ segment ∈ name.segments, ∃ (source : SourceText) (token : Token),
    token ∈ TokenSource.ahead source ∧ token.kind = .identifier ∧ token.text = segment

theorem DottedName.Scanned.proper {name : DottedName} (scanned : name.Scanned) : name.Proper := by
  intro segment member
  obtain ⟨source, token, ahead, found, rfl⟩ := scanned segment member
  exact SourceText.isWord_of_mem_ahead ahead found

section Tables

open Inheritance

variable {types : List Declared}

theorem Inheritance.repeated?_eq_none_iff {texts : List String} :
    repeated? [] texts = none ↔ texts.Nodup := by
  constructor
  · intro unrepeated
    exact (nodup_of_repeated unrepeated).1
  · intro distinct
    rw [Option.eq_none_iff_forall_ne_some]
    intro text found
    exact (firstRepeated_of_repeated found).not_nodup distinct

theorem nodup_texts_iff (dotless : ∀ type ∈ types, type.name.Dotless) :
    (types.map (·.name.text)).Nodup ↔ (types.map (·.name)).Nodup := by
  have texts : types.map (·.name.text) = (types.map (·.name)).map DottedName.text := by
    rw [List.map_map]
    rfl
  rw [texts]
  constructor
  · intro distinct
    exact List.Nodup.of_map _ distinct
  · intro distinct
    refine List.Nodup.map_on ?_ distinct
    intro first isFirst second isSecond same
    obtain ⟨type, member, rfl⟩ := List.mem_map.mp isFirst
    obtain ⟨other, isOther, rfl⟩ := List.mem_map.mp isSecond
    exact (dotless type member).eq_of_text (dotless other isOther) same

theorem find_by_text {base : DottedName} (dotless : ∀ type ∈ types, type.name.Dotless)
    (baseDotless : base.Dotless) :
    (types.findFinIdx? fun type => type.name.text = base.text) =
      types.findFinIdx? fun type => type.name = base := by
  have same (place : Fin types.length) :
      types[place].name.text = base.text ↔ types[place].name = base := by
    constructor
    · exact (dotless _ (types.get_mem place)).eq_of_text baseDotless
    · intro equal
      rw [equal]
  refine Option.ext fun place => ?_
  rw [List.findFinIdx?_eq_some_iff, List.findFinIdx?_eq_some_iff]
  simp only [decide_eq_true_eq, same]

theorem SourceUnit.Proper.dotless {unit : SourceUnit} (proper : unit.Proper) :
    ∀ type ∈ unit.declared, type.name.Dotless := by
  intro type member
  obtain ⟨decl, listed, rfl⟩ := List.mem_map.mp member
  exact (proper.nameOf listed).dotless

theorem TypeDecl.Proper.base_dotless {decl : TypeDecl} (proper : decl.Proper) {base : DottedName}
    (found : decl.base? = some base) : base.Dotless := by
  obtain ⟨type, first, rfl⟩ := Option.map_eq_some_iff.mp found
  exact (proper.bases type (List.mem_of_head? first)).dotless

end Tables

/-- Names and texts determine each other: a name without empty or dotted segments is read back from its
text, and a text without empty pieces is the text of the name that it is read as.  So names from a source
have the same text only if they are the same, and a repeated type, or the type that a base names, is found
by texts as it would be by names.  A name is put together from its two parts wherever it is cut, has a
slice for just the ranges inside of it, and keeps a segment under all changes. -/
theorem names_and_texts_agree :
    (∀ name : DottedName, (∀ segment ∈ name.segments, segment ≠ "" ∧ '.' ∉ segment.toList) →
      DottedName.ofText? name.text = some name) ∧
    (∀ text : String,
      ((∃ name, DottedName.ofText? text = some name) ↔
        ∀ piece, Text.IsPiece '.' text.toList piece → piece ≠ []) ∧
      ∀ name, DottedName.ofText? text = some name → name.text = text) ∧
    (∀ name other : DottedName, name.Scanned → other.Scanned →
      (name.text = other.text ↔ name = other)) ∧
    (∀ (source : SourceText) (capacity : Nat) (session : Session) (unit : SourceUnit),
      (State.ofSource source capacity session).parse.1 = .ok unit →
      (Inheritance.repeated? [] (unit.declared.map (·.name.text)) = none ↔
        (unit.declared.map (·.name)).Nodup) ∧
      ∀ decl ∈ unit.types, ∀ base, decl.base? = some base →
        (unit.declared.findFinIdx? fun type => type.name.text = base.text) =
          unit.declared.findFinIdx? fun type => type.name = base) ∧
    (∀ (name : DottedName) (count : Nat), 0 < count → count < name.size →
      ∃ front back, name.slice? 0 count = some front ∧ name.slice? count name.size = some back ∧
        back.within front = name) ∧
    (∀ (name : DottedName) (start stop : Nat),
      name.slice? start stop = none ↔ stop ≤ start ∨ name.size < stop) ∧
    ∀ (name : DottedName) (edits : List DottedName.Edit),
      (edits.foldlM DottedName.edit name).map DottedName.segments =
        edits.foldlM DottedName.Edit.change name.segments ∧
      edits.foldlM DottedName.Edit.change name.segments ≠ some [] := by
  refine ⟨?_, ?_, ?_, ?_, ?_, ?_, ?_⟩
  · intro name dotless
    exact DottedName.ofText?_eq_some_iff.mpr ⟨dotless, rfl⟩
  · intro text
    refine ⟨DottedName.exists_ofText?_iff, ?_⟩
    intro name read
    exact (DottedName.ofText?_eq_some_iff.mp read).2
  · intro name other scanned otherScanned
    refine ⟨scanned.proper.dotless.eq_of_text otherScanned.proper.dotless, ?_⟩
    rintro rfl
    rfl
  · intro source capacity session unit parsed
    have proper := State.proper_of_parse (State.worded_ofSource source capacity session) parsed
    refine ⟨?_, ?_⟩
    · rw [Inheritance.repeated?_eq_none_iff, nodup_texts_iff proper.dotless]
    · intro decl listed base isBase
      exact find_by_text proper.dotless ((proper.types decl listed).base_dotless isBase)
  · intro name count positive inside
    exact DottedName.within_slices positive inside
  · intro name start stop
    exact DottedName.slice?_eq_none_iff
  · intro name edits
    exact ⟨name.segments_edits edits, name.edits_ne_nil edits⟩

theorem names_and_texts_agree_point :
    let point : DottedName := ⟨["plane", "euclid", "Point"], by simp⟩
    let state := State.ofSource (SourceText.ofString "a.bgl" "package p class A class B : p.A") 1 .empty
    DottedName.ofText? "plane.euclid.Point" = some point ∧
    (∃ front back, point.slice? 0 2 = some front ∧ point.slice? 2 3 = some back ∧
      back.within front = point) ∧
    ∃ unit, state.parse.1 = .ok unit ∧ (unit.declared.map (·.name)).Nodup := by
  intro point state
  obtain ⟨readBack, _, _, tables, cut, _, _⟩ := names_and_texts_agree
  have ran : (state.parse.1.toOption.map fun unit =>
      Inheritance.repeated? [] (unit.declared.map (·.name.text))) = some none := by decide +kernel
  refine ⟨readBack point (by decide), cut point 2 (by decide) (by decide), ?_⟩
  obtain ⟨unit, parsed, unrepeated⟩ := Option.map_eq_some_iff.mp ran
  have accepted : state.parse.1 = .ok unit := by
    generalize state.parse.1 = answer at parsed
    cases answer with
    | error stop => cases parsed
    | ok other => exact congrArg Except.ok (Option.some.inj parsed)
  exact ⟨unit, accepted, (tables _ _ _ unit accepted).1.mp unrepeated⟩

end Beagle
