import Beagle.Proofs.Identifiers
import Beagle.Output
import Mathlib.Data.List.Nodup

/-!
Symbols are told apart.  A mangled name can be read back if its segments are words, so different names
have different symbols, and the four symbols of a name differ as well.
-/

namespace Beagle

theorem mem_or_of_mem_intercalate {char : Char} {mark : List Char} {parts : List (List Char)}
    (member : char ∈ mark.intercalate parts) : char ∈ mark ∨ ∃ part ∈ parts, char ∈ part := by
  induction parts with
  | nil => simp at member
  | cons first parts ih =>
      cases parts with
      | nil => exact .inr ⟨first, by simp, by simpa using member⟩
      | cons second parts =>
          rw [List.intercalate_cons_cons, List.mem_append, List.mem_append] at member
          rcases member with (inFirst | inMark) | later
          · exact .inr ⟨first, by simp, inFirst⟩
          · exact .inl inMark
          · rcases ih later with inMark | ⟨part, isPart, inside⟩
            · exact .inl inMark
            · exact .inr ⟨part, List.mem_cons_of_mem _ isPart, inside⟩

theorem DottedName.Proper.mem_text {name : DottedName} (proper : name.Proper) :
    ∀ char ∈ name.text.toList, char = '.' ∨ Lexeme.continuesWord char := by
  intro char member
  rw [DottedName.text, String.toList_intercalate] at member
  rcases mem_or_of_mem_intercalate member with join | ⟨part, isPart, inside⟩
  · exact .inl (by simpa using join)
  · obtain ⟨segment, isSegment, rfl⟩ := List.mem_map.mp isPart
    exact .inr ((proper segment isSegment).continues char inside)

namespace Symbol

/-- The segments of a mangled name: an underscore in front of a zero belongs to a segment, any other
ends one. -/
def unmangle : List Char → List (List Char)
  | [] => [[]]
  | '_' :: '0' :: rest => (unmangle rest).modifyHead ('_' :: ·)
  | '_' :: rest => [] :: unmangle rest
  | char :: rest => (unmangle rest).modifyHead (char :: ·)

theorem unmangle_cons {char : Char} (plain : char ≠ '_') (rest : List Char) :
    unmangle (char :: rest) = (unmangle rest).modifyHead (char :: ·) := by
  rw [unmangle]
  · simp [plain]
  · simp [plain]

theorem unmangle_underscore {rest : List Char} (notZero : rest.head? ≠ some '0') :
    unmangle ('_' :: rest) = [] :: unmangle rest := by
  rw [unmangle]
  rintro others rfl
  simp at notZero

theorem mangleChars_cons (char : Char) (chars : List Char) :
    mangleChars (char :: chars) = (if char = '_' then ['_', '0'] else [char]) ++ mangleChars chars := rfl

theorem unmangle_mangleChars_append (chars rest : List Char) :
    unmangle (mangleChars chars ++ rest) = (unmangle rest).modifyHead (chars ++ ·) := by
  induction chars with
  | nil => exact (congrFun List.modifyHead_id _).symm
  | cons char chars ih =>
      rw [mangleChars_cons]
      by_cases underscore : char = '_'
      · subst underscore
        simp only [if_true, List.cons_append, List.nil_append]
        rw [unmangle, ih, List.modifyHead_modifyHead]
        rfl
      · simp only [underscore, if_false, List.cons_append, List.nil_append]
        rw [unmangle_cons underscore, ih, List.modifyHead_modifyHead]
        rfl

theorem head?_mangleChars_append_ne {text : String} (isWord : Lexeme.IsWord text) (rest : List Char) :
    (mangleChars text.toList ++ rest).head? ≠ some '0' := by
  obtain ⟨first, others, same, starts, _⟩ := isWord
  rw [same, mangleChars_cons]
  split
  · simp
  · intro zero
    obtain rfl : first = '0' := by simpa using zero
    simp [Lexeme.startsWord] at starts

theorem head?_intercalate_ne {segments : List String}
    (words : ∀ segment ∈ segments, Lexeme.IsWord segment) :
    (['_'].intercalate (segments.map fun segment => mangleChars segment.toList)).head? ≠ some '0' := by
  match segments with
  | [] => simp
  | [first] => simpa using head?_mangleChars_append_ne (words first (by simp)) []
  | first :: second :: segments =>
      simp only [List.map_cons, List.intercalate_cons_cons, List.append_assoc]
      exact head?_mangleChars_append_ne (words first (by simp)) _

theorem unmangle_intercalate {segments : List String} (nonempty : segments ≠ [])
    (words : ∀ segment ∈ segments, Lexeme.IsWord segment) :
    unmangle (['_'].intercalate (segments.map fun segment => mangleChars segment.toList)) =
      segments.map String.toList := by
  induction segments with
  | nil => exact absurd rfl nonempty
  | cons first segments ih =>
      have others : ∀ segment ∈ segments, Lexeme.IsWord segment :=
        fun segment member => words segment (List.mem_cons_of_mem _ member)
      have notZero := head?_intercalate_ne others
      cases segments with
      | nil =>
          have single := unmangle_mangleChars_append first.toList []
          simpa [unmangle] using single
      | cons second segments =>
          simp only [List.map_cons, List.intercalate_cons_cons, List.append_assoc,
            List.singleton_append] at *
          rw [unmangle_mangleChars_append, unmangle_underscore notZero, ih (by simp) others]
          simp

theorem toList_mangle (name : DottedName) : (mangle name).toList =
    ['_'].intercalate (name.segments.map fun segment => mangleChars segment.toList) := by
  simp [mangle, mangleSegment, String.toList_intercalate, Function.comp_def]

theorem mangle_injective {name other : DottedName} (proper : name.Proper) (otherProper : other.Proper)
    (same : mangle name = mangle other) : name = other := by
  have segments := congrArg (fun text => unmangle text.toList) same
  simp only [toList_mangle, unmangle_intercalate name.segments_ne_nil proper,
    unmangle_intercalate other.segments_ne_nil otherProper] at segments
  have equal := List.map_injective_iff.mpr (fun _ _ => String.toList_injective) segments
  cases name
  cases other
  simpa using equal

def roles : List String :=
  ["static_", "dynamic_", "type_", "sinit_"]

def defined (name : DottedName) : List String :=
  [staticRecord name, dynamicRecord name, slot name, setup name]

def inherited (parent : DottedName) : List String :=
  [staticRecord parent, dynamicRecord parent, slot parent]

theorem defined_eq_map (name : DottedName) :
    defined name = roles.map fun role => role ++ mangle name ++ "_" := rfl

theorem inherited_subset_defined (name : DottedName) : inherited name ⊆ defined name := by
  simp [inherited, defined]

theorem role_unique {role other : String} (isRole : role ∈ roles) (isOther : other ∈ roles)
    {name name' : DottedName} (same : role ++ mangle name ++ "_" = other ++ mangle name' ++ "_") :
    role = other ∧ mangle name = mangle name' := by
  have chars := congrArg String.toList same
  simp only [String.toList_append, List.append_assoc] at chars
  have prefixFree : ∀ first ∈ roles, ∀ second ∈ roles,
      first.toList <+: second.toList → first = second := by decide
  have equal : role = other := by
    rcases List.prefix_or_prefix_of_prefix (List.prefix_append role.toList _)
      (chars ▸ List.prefix_append other.toList _) with front | front
    · exact prefixFree role isRole other isOther front
    · exact (prefixFree other isOther role isRole front).symm
  subst equal
  refine ⟨rfl, ?_⟩
  rw [← String.toList_inj]
  exact List.append_cancel_right (List.append_cancel_left chars)

theorem name_unique {symbol : String} {name other : DottedName} (proper : name.Proper)
    (otherProper : other.Proper) (isDefined : symbol ∈ defined name)
    (isOther : symbol ∈ defined other) : name = other := by
  rw [defined_eq_map] at isDefined isOther
  obtain ⟨role, isRole, rfl⟩ := List.mem_map.mp isDefined
  obtain ⟨role', isRole', same⟩ := List.mem_map.mp isOther
  exact mangle_injective proper otherProper (role_unique isRole' isRole same).2.symm

theorem nodup_defined (name : DottedName) : (defined name).Nodup := by
  rw [defined_eq_map]
  refine List.Nodup.map_on ?_ (by decide)
  exact fun role isRole other isOther same => (role_unique isRole isOther same).1

theorem nodup_flatMap_defined {names : List DottedName} (proper : ∀ name ∈ names, name.Proper)
    (distinct : names.Nodup) : (names.flatMap defined).Nodup := by
  rw [List.nodup_flatMap]
  refine ⟨fun name _ => nodup_defined name, ?_⟩
  refine distinct.imp_of_mem fun {name other} member otherMember different symbol isDefined isOther => ?_
  exact different (name_unique (proper name member) (proper other otherMember) isDefined isOther)

theorem mem_mangleChars {char : Char} {chars : List Char} (member : char ∈ mangleChars chars) :
    char ∈ chars ∨ char = '_' ∨ char = '0' := by
  obtain ⟨old, inside, isNew⟩ := List.mem_flatMap.mp member
  split at isNew
  · exact .inr (by simpa using isNew)
  · obtain rfl : char = old := by simpa using isNew
    exact .inl inside

theorem continues_of_mem_mangle {name : DottedName} (proper : name.Proper) :
    ∀ char ∈ (mangle name).toList, Lexeme.continuesWord char := by
  intro char member
  rw [toList_mangle] at member
  rcases mem_or_of_mem_intercalate member with join | ⟨part, isPart, inside⟩
  · obtain rfl : char = '_' := by simpa using join
    decide
  · obtain ⟨segment, isSegment, rfl⟩ := List.mem_map.mp isPart
    rcases mem_mangleChars inside with old | rfl | rfl
    · exact (proper segment isSegment).continues char old
    · decide
    · decide

theorem isWord_of_mem_defined {name : DottedName} (proper : name.Proper) {symbol : String}
    (isDefined : symbol ∈ defined name) : Lexeme.IsWord symbol := by
  rw [defined_eq_map] at isDefined
  obtain ⟨role, isRole, rfl⟩ := List.mem_map.mp isDefined
  have roleWord : ∀ role ∈ roles, Lexeme.IsWord role := by decide
  obtain ⟨first, others, same, starts, goesOn⟩ := roleWord role isRole
  refine ⟨first, others ++ (mangle name).toList ++ ['_'], by simp [same], starts, ?_⟩
  intro char member
  simp only [List.mem_append, List.mem_singleton] at member
  rcases member with (inRole | inName) | rfl
  · exact goesOn char inRole
  · exact continues_of_mem_mangle proper char inName
  · decide

inductive Purpose
  | staticRecord
  | dynamicRecord
  | slot
  | setup
deriving DecidableEq

namespace Purpose

def symbol : Purpose → DottedName → String
  | .staticRecord => Symbol.staticRecord
  | .dynamicRecord => Symbol.dynamicRecord
  | .slot => Symbol.slot
  | .setup => Symbol.setup

def role : Purpose → String
  | .staticRecord => "static_"
  | .dynamicRecord => "dynamic_"
  | .slot => "type_"
  | .setup => "sinit_"

theorem symbol_eq (purpose : Purpose) (name : DottedName) :
    purpose.symbol name = purpose.role ++ mangle name ++ "_" := by
  cases purpose <;> rfl

theorem role_mem (purpose : Purpose) : purpose.role ∈ roles := by
  cases purpose <;> simp [role, roles]

theorem role_injective : Function.Injective role := by
  intro purpose other same
  cases purpose <;> cases other <;> simp [role] at same ⊢

end Purpose

/-- A symbol tells which name of identifiers it was made from, and what for. -/
theorem symbols_unambiguous {name other : DottedName} (proper : name.Proper)
    (otherProper : other.Proper) :
    (mangle name = mangle other → name = other) ∧
    ∀ purpose otherPurpose : Purpose, purpose.symbol name = otherPurpose.symbol other →
      purpose = otherPurpose ∧ name = other := by
  refine ⟨mangle_injective proper otherProper, ?_⟩
  intro purpose otherPurpose same
  rw [Purpose.symbol_eq, Purpose.symbol_eq] at same
  obtain ⟨sameRole, sameName⟩ := role_unique purpose.role_mem otherPurpose.role_mem same
  exact ⟨Purpose.role_injective sameRole, mangle_injective proper otherProper sameName⟩

/-- Segments that end or start with an underscore. -/
theorem symbols_unambiguous_example :
    let name : DottedName := ⟨["a_", "b"], by decide⟩
    let other : DottedName := ⟨["a", "_b"], by decide⟩
    mangle name ≠ mangle other ∧
      ∀ purpose otherPurpose : Purpose, purpose.symbol name ≠ otherPurpose.symbol other := by
  intro name other
  have proper : name.Proper := by decide
  have otherProper : other.Proper := by decide
  have different : name ≠ other := by decide
  obtain ⟨names, symbols⟩ := symbols_unambiguous proper otherProper
  exact ⟨fun same => different (names same),
    fun purpose otherPurpose same => different (symbols purpose otherPurpose same).2⟩

end Symbol

end Beagle
